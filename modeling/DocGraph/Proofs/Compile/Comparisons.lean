import DocGraph.Proofs.Codec.Encode
import DocGraph.Proofs.Compile.Chains
import DocGraph.Proofs.Compile.CompiledFilters
import DocGraph.Proofs.Sparql.Numbers

/-!
# Compiled comparisons

The elements of a comparison are faithful to its meaning (`faithful_comparison`): an
equality that is inlined, the values of `$all`, and what asks whether a match exists each
have a lemma. The comparisons of a condition are numbered, so those with numbers in
different ranges own different variables (`OwnsBetween`).
-/

namespace DocGraph

open Rdf (Graph Term Variable)
open Sparql (Context Expr Node Solution Store)

variable {g : Graph} {c : Context} {scope : Term → Prop} {x y z : Term}

/-! ## Comparisons -/

namespace FilterScope

variable {f : FilterScope} {cmp : Comparison} {es : List Element}

theorem constant_ne_blank {t : Term} (h : f.constant cmp.path cmp.operand = .ok t) :
    ∀ name, t ≠ .blank name :=
  Schema.encode_ne_blank h

theorem constants_eq_ok {path : Path} {operand : Json.Value} {ts : List Term}
    (h : f.constants path operand = .ok ts) {t : Term} (ht : t ∈ ts) :
    ∃ v, f.constant path v = .ok t := by
  unfold constants at h
  split at h
  · obtain ⟨v, -, hv⟩ := exists_left_of_mem (Outcome.mapM_eq_ok.mp h) ht
    exact ⟨v, hv⟩
  · obtain ⟨t', ht', h⟩ := Outcome.bind_eq_ok.mp h
    obtain rfl := Except.ok.inj h
    exact ⟨_, List.mem_singleton.mp ht ▸ ht'⟩

theorem holds_relation_iff {t : Term} {value : Expr} {r : Sparql.Relation} {κ : Solution}
    (ht : f.constant cmp.path cmp.operand = .ok t) (hz : value.eval c κ = some z) :
    (Expr.relation r value (.ofTerm t)).Holds c κ ↔
      ∃ t, f.constant cmp.path cmp.operand = .ok t ∧ c.store.related r z t = some true := by
  rw [Expr.holds_relation hz (Expr.eval_ofTerm (constant_ne_blank ht))]
  simp only [ht, Except.ok.injEq, exists_eq_left']

/-- The test of an operator holds for the values that pass it. An equality that
is tested is one of values. -/
theorem holds_test {operator : Operator} {e value : Expr} {exact : Bool} {κ : Solution}
    (h : f.CompiledTest cmp value operator e) (hexact : operator = .eq → exact = false)
    (hz : value.eval c κ = some z) :
    e.Holds c κ ↔ f.Passes c.store exact cmp operator z := by
  cases h with
  | eq ht =>
    obtain rfl := hexact rfl
    exact holds_relation_iff ht hz
  | gt ht | gte ht | lt ht | lte ht => exact holds_relation_iff ht hz
  | @oneOf ts hts =>
    have hblank : ∀ u ∈ ts, ∀ name, u ≠ .blank name := fun u hu => by
      obtain ⟨v, hv⟩ := constants_eq_ok hts hu
      exact Schema.encode_ne_blank hv
    rw [Expr.holds_oneOf hz hblank]
    simp only [Passes, hts, Except.ok.injEq, exists_eq_left']
  | regex hpattern =>
    rw [Expr.holds_regex (.inl ⟨rfl, rfl⟩) hz]
    simp only [Passes, hpattern, Json.Value.str.injEq, exists_and_left, exists_eq_left']
  | iregex hpattern =>
    rw [Expr.holds_regex (.inr rfl) hz]
    simp only [Passes, hpattern, Json.Value.str.injEq, exists_and_left, exists_eq_left']
  | strlen hnumber hlength =>
    rw [Expr.holds_strlen hz]
    simp only [Passes, hnumber, Json.Value.num.injEq, exists_and_left, exists_eq_left', hlength,
      Option.some.injEq]

/-- The operators that ask for a value which passes a test. -/
theorem finds_of_ne_all {store : Store} {exact : Bool} {operator : Operator} {r : ResolvedPath}
    (hr : f.schema.resolve f.model cmp.path = .ok r) (hop : operator ≠ .all) :
    f.Finds store g exact cmp operator x ↔
      ∃ v, Reaches f.schema g r.steps x v ∧ f.Passes store exact cmp operator v := by
  simp only [Finds, hr, Except.ok.injEq, exists_eq_left', hop, if_false]

/-- No value of a document without values passes a test. -/
theorem not_finds_of_no_value {store : Store} {exact : Bool}
    {operator : Operator} (hop : operator ≠ .all)
    (h : ∀ r v, f.schema.resolve f.model cmp.path = .ok r → ¬Reaches f.schema g r.steps x v) :
    ¬f.Finds store g exact cmp operator x := by
  rintro ⟨r, hr, hfinds⟩
  rw [if_neg hop] at hfinds
  obtain ⟨v, hv, -⟩ := hfinds
  exact h r v hr hv

theorem satisfies_iff {store : Store} {exact : Comparison → Bool} :
    f.Satisfies store g exact cmp x ↔
      if cmp.operator.polarity = .negative then
        ¬f.Finds store g (exact cmp) cmp cmp.operator.positive x
      else f.Finds store g (exact cmp) cmp cmp.operator.positive x := by
  cases hp : cmp.operator.polarity <;> simp [Satisfies, Operator.positive, hp]

/-- The values that an operand is where a path has no hops are IRIs. -/
theorem exists_iri_of_constants {path : Path} {operand : Json.Value} {r : ResolvedPath}
    {ts : List Term} (hr : f.schema.resolve f.model path = .ok r)
    (hts : f.constants path operand = .ok ts) (hhops : withoutIdentity r.steps = []) :
    ∀ t ∈ ts, ∃ i, t = .iri i := fun t ht => by
  obtain ⟨v, hv⟩ := constants_eq_ok hts ht
  exact Schema.exists_iri_of_encode hr hhops hv

section Operators

variable {n : Nat} {r : ResolvedPath} {ch : Chain}

/-- The chain of an equality that is inlined ends in its constant. -/
theorem faithful_inlined (hr : f.schema.resolve f.model cmp.path = .ok r)
    (hw : Walkable cmp.path.segments r.steps) (hinlined : f.isInlined cmp = true) {t : Term}
    (ht : f.constant cmp.path cmp.operand = .ok t)
    (hch : chain f.schema (.filter n) cmp.path.segments r.steps (some t) = .ok ch) :
    Faithful c scope ((Role.filter n).Owns 0) ch.elements
      (f.Satisfies c.store c.statements f.isInlined cmp) := by
  obtain ⟨heq, hpos, -⟩ := isInlined_iff.mp hinlined
  refine (Faithful.ofConstantChain hw hch fun hhops =>
    Schema.exists_iri_of_encode hr hhops ht).congr fun x _ => ?_
  rw [satisfies_iff, if_neg hpos, heq, finds_of_ne_all hr (by decide)]
  simp only [Passes, hinlined, if_true, ht, Except.ok.injEq, exists_eq_right']

/-- The values of `$all` have one chain each. -/
theorem faithful_all (hr : f.schema.resolve f.model cmp.path = .ok r)
    (hw : Walkable cmp.path.segments r.steps) (hall : cmp.operator.positive = .all)
    {ts : List Term} (hts : f.constants cmp.path cmp.operand = .ok ts) {inner : List Element}
    (hinner : f.allOf (.filter n) cmp.path.segments r.steps ts = .ok inner) :
    Faithful c scope ((Role.filter n).Owns 0)
      (if cmp.operator.polarity = .negative then existence true inner else inner)
      (f.Satisfies c.store c.statements f.isInlined cmp) := by
  have hfaithful (c : Context) : Faithful c scope ((Role.filter n).Owns 0) inner fun x =>
      f.Finds c.store c.statements (f.isInlined cmp) cmp .all x :=
    (Faithful.ofAllOf hw hinner fun hhops => exists_iri_of_constants hr hts hhops).congr
      fun x _ => by
        simp only [Finds, hr, hts, Except.ok.injEq, exists_eq_left', if_true]
  by_cases hneg : cmp.operator.polarity = .negative
  · have hsubstituted (μ : Solution) :
        Faithful (c.substituted μ) scope ((Role.filter n).Owns 0) inner fun x =>
          f.Finds c.store c.statements (f.isInlined cmp) cmp .all x :=
      hfaithful (c.substituted μ)
    rw [if_pos hneg]
    refine (Faithful.existence true hsubstituted).congr fun x _ => ?_
    rw [satisfies_iff, if_pos hneg, hall, if_pos rfl]
  · rw [if_neg hneg]
    refine (hfaithful c).congr fun x _ => ?_
    rw [satisfies_iff, if_neg hneg, hall]

/-- All other operators ask whether a chain and some tests at its end match. -/
theorem faithful_existence (hr : f.schema.resolve f.model cmp.path = .ok r)
    (hw : Walkable cmp.path.segments r.steps) (hall : cmp.operator.positive ≠ .all)
    (hch : chain f.schema (.filter n) cmp.path.segments r.steps none = .ok ch)
    {tests : List Element} {passes : Term → Prop}
    (htests : ∀ c' : Context, c'.store = c.store → TestsNode c' ch.terminal tests passes)
    (hpasses : ∀ z, passes z ↔
      f.Passes c.store (f.isInlined cmp) cmp cmp.operator.positive z) :
    Faithful c scope ((Role.filter n).Owns 0)
      (existence (cmp.operator.polarity = .negative) (ch.elements ++ tests))
      (f.Satisfies c.store c.statements f.isInlined cmp) := by
  have hinner (μ : Solution) : Faithful (c.substituted μ) scope ((Role.filter n).Owns 0)
      (ch.elements ++ tests) fun x => ∃ z, Reaches f.schema c.statements r.steps x z ∧ passes z :=
    Faithful.ofChain hw hch (htests (c.substituted μ) rfl)
  refine (Faithful.existence _ hinner).congr fun x _ => ?_
  have hfinds : (∃ z, Reaches f.schema c.statements r.steps x z ∧ passes z) ↔
      f.Finds c.store c.statements (f.isInlined cmp) cmp cmp.operator.positive x := by
    rw [finds_of_ne_all hr hall]
    simp only [hpasses]
  rw [satisfies_iff, ← hfinds]
  simp only [decide_eq_true_iff]

/-- A path without hops leads to the document itself, which is always there. -/
theorem faithful_itself (hr : f.schema.resolve f.model cmp.path = .ok r)
    (hw : Walkable cmp.path.segments r.steps) (hpresent : cmp.operator.positive = .present)
    (hch : chain f.schema (.filter n) cmp.path.segments r.steps none = .ok ch)
    (hempty : ch.elements = []) :
    Faithful c scope ((Role.filter n).Owns 0)
      (if cmp.operator.polarity = .negative then [.filter (.literal (.ofBool false))] else [])
      (f.Satisfies c.store c.statements f.isInlined cmp) := by
  have hhops : withoutIdentity r.steps = [] := by
    by_contra hne
    exact elements_ne_nil_of_chainFrom (chain_none hch) hw.not_identity hne hempty
  have hfinds {x : Term} :
      f.Finds c.store c.statements (f.isInlined cmp) cmp .present x ↔ True := by
    refine iff_of_true ((finds_of_ne_all hr (by decide)).mpr ⟨x, ?_, trivial⟩) trivial
    rw [← reaches_withoutIdentity, hhops]
    exact rfl
  by_cases hneg : cmp.operator.polarity = .negative
  · rw [if_pos hneg]
    refine Faithful.filter fun {μ x} _ _ => iff_of_false (Expr.not_holds_false c μ) ?_
    rw [satisfies_iff, if_pos hneg, hpresent, hfinds]
    exact not_not_intro trivial
  · rw [if_neg hneg]
    refine Faithful.nil.congr fun x _ => ?_
    rw [satisfies_iff, if_neg hneg, hpresent, hfinds]

/-- The elements of a comparison ask for the documents that satisfy it. They own
the variables with its number. -/
theorem faithful_comparison (hs : f.schema.WellFormed) (h : f.comparison n cmp = .ok es)
    (hsearch : cmp.operator.positive ≠ .search) (c : Context) :
    Faithful c scope ((Role.filter n).Owns 0) es
      (f.Satisfies c.store c.statements f.isInlined cmp) := by
  obtain ⟨r, hr, h⟩ := comparison_eq_ok h
  have hw := walkable_of_resolve hs hr
  cases h with
  | inlined hinlined ht hch => exact faithful_inlined hr hw hinlined ht hch
  | all hall hts hinner => exact faithful_all hr hw hall hts hinner
  | itself hpresent hch hempty => exact faithful_itself hr hw hpresent hch hempty
  | @present ch hpresent hch =>
    rw [← List.append_nil ch.elements]
    refine faithful_existence hr hw (by rw [hpresent]; decide) hch
      (fun c' _ => TestsNode.nil c' ch.terminal) fun z => ?_
    rw [hpresent]
    exact Iff.rfl
  | search hop => exact absurd hop hsearch
  | tested hinlined hall hch he =>
    refine faithful_existence hr hw hall hch (fun c' hstore => TestsNode.filter fun κ z hz => ?_)
      fun z => Iff.rfl
    rw [← hstore]
    exact holds_test he (fun _ => hinlined) ((eval_terminal hw hch κ).trans hz)

end Operators

/-! ## Numbered comparisons -/

/-- Whether a variable belongs to a comparison with a number from `m` to
`n - 1`. -/
def OwnsBetween (m n : Nat) (v : Variable) : Prop :=
  ∃ k, m ≤ k ∧ k < n ∧ (Role.filter k).Owns 0 v

theorem OwnsBetween.mono {m m' n n' : Nat} {v : Variable} (h : OwnsBetween m n v) (hm : m' ≤ m)
    (hn : n ≤ n') : OwnsBetween m' n' v := by
  obtain ⟨k, hmk, hkn, hv⟩ := h
  exact ⟨k, hm.trans hmk, Nat.lt_of_lt_of_le hkn hn, hv⟩

theorem not_ownsBetween_root (m n : Nat) : ¬OwnsBetween m n rootVariable := fun ⟨_, _, _, hv⟩ =>
  Role.not_owns_root _ _ hv

theorem OwnsBetween.disjoint {m n n' : Nat} {v : Variable} (h : OwnsBetween m n v) :
    ¬OwnsBetween n n' v := fun ⟨_, hk', _, hv'⟩ => by
  obtain ⟨k, -, hk, hv⟩ := h
  obtain rfl := Role.filter.inj (hv.role_eq hv')
  omega

/-- What the elements of a filter are matched in: the scope has a well-formed
schema and a model with a class, and the context substitutes nothing. -/
structure Setting (f : FilterScope) (c : Context) (classUri : Rdf.Iri) : Prop where
  wellFormed : f.schema.WellFormed
  classUri_eq : f.schema.classUri f.model = .ok classUri
  given_eq : c.given = .empty

theorem Setting.anchor_eq {classUri : Rdf.Iri} (h : Setting f c classUri) :
    f.anchor = .ok (.statement rootNode Rdf.rdfType (.term (.iri classUri))) := by
  rw [anchor, h.classUri_eq]
  rfl

/-! ## Filters of people -/

/-- A filter of people in a query with a column for their age. -/
def ofPeople : FilterScope :=
  ⟨peopleSchema, "Person", [.ofText "age"], .standard⟩

/-- The comparison of an age with 5. -/
def ageOfFive (operator : Operator) : Condition :=
  .compare ⟨.ofText "age", operator, .num (.integer ⟨5, by decide, by decide⟩)⟩

/-- A person. -/
def alice : Term :=
  .iri ⟨"http://example.org/instances/person/alice"⟩

/-- A person whose age is the double 5. -/
def aliceIsFive : Graph :=
  {⟨alice, Rdf.rdfType, .iri ⟨"http://example.org/classes/Person"⟩⟩,
    ⟨alice, ⟨"http://example.org/properties/Person/age"⟩,
      .literal (.typed "5" (Rdf.xsd "double"))⟩}

/-- A person without an age. -/
def ageless : Graph :=
  {⟨alice, Rdf.rdfType, .iri ⟨"http://example.org/classes/Person"⟩⟩}

/-- The age of a person is at the end of one hop. -/
theorem exists_resolve_age :
    ∃ r, peopleSchema.resolve "Person" (.ofText "age") = .ok r ∧
      ∀ {g : Graph} {x v : Term}, Reaches peopleSchema g r.steps x v ↔
        ⟨x, ⟨"http://example.org/properties/Person/age"⟩, v⟩ ∈ g :=
  ⟨_, Schema.resolve_property (SchemaDefinition.build_wellFormed people_build) rfl rfl,
    reaches_singleton⟩

theorem isInstance_ageless : ofPeople.IsInstance ageless alice :=
  ⟨_, rfl, by decide⟩

theorem not_reaches_ageless {r : ResolvedPath} {v : Term}
    (hr : ofPeople.schema.resolve ofPeople.model (.ofText "age") = .ok r) :
    ¬Reaches ofPeople.schema ageless r.steps alice v := by
  obtain ⟨r', hr', hreaches⟩ := exists_resolve_age
  obtain rfl := Except.ok.inj (hr.symm.trans hr')
  intro hv
  have hpredicate := congrArg Rdf.Statement.predicate (Finset.mem_singleton.mp (hreaches.mp hv))
  have hne : (⟨"http://example.org/properties/Person/age"⟩ : Rdf.Iri) ≠ Rdf.rdfType := by decide
  exact hne hpredicate

end FilterScope

end DocGraph
