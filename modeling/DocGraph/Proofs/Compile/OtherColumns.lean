import DocGraph.Proofs.Compile.FilteredRows
import DocGraph.Proofs.Compile.Keys

/-!
# Filters and the columns of a query

The documents that a query matches are those that its required elements match and its filter
asks for (`Selection.mem_roots_iff`): optional elements and bindings never lose one. So its
other columns touch its documents only through the filter, where an equality on a path that
is no column is one of terms, and on a column one of values. Two queries that differ in other
columns match the same documents, but for those that an equality finds in one way only
(`Selection.roots_of_other_columns`).
-/

namespace DocGraph

open Rdf (Dataset Graph Term Variable rdfType)
open FilterScope (alice)
open Sparql (Context Solution Solutions Store)

variable {s : Schema} {model : String} {q q' : Spec} {options : CompileOptions}
  {sel sel' : Selection} {f f' : FilterScope} {cond : Condition} {store : Store} {data : Dataset}
  {x : Term}

/-! ## Documents -/

/-- Optional elements and bindings lose no solution. -/
theorem exists_mem_extendAll {c : Context} {es : List Element}
    (h : ∀ e ∈ es, (∃ block, e = .optional block) ∨ ∃ v value, e = .bind v value) (μ : Solution) :
    ∃ κ, κ ∈ extendAll c es {μ} := by
  induction es generalizing μ with
  | nil => exact ⟨μ, mem_extendAll_nil.mpr rfl⟩
  | cons e rest ih =>
    rw [List.forall_mem_cons] at h
    obtain ⟨ν, hν⟩ : ∃ ν, ν ∈ e.extend c {μ} := by
      rcases h.1 with ⟨block, rfl⟩ | ⟨v, value, rfl⟩
      · rw [Element.extend]
        exact Multiset.exists_mem_of_ne_zero (Solutions.leftJoin_ne_zero _)
      · rw [Element.extend, Multiset.map_singleton]
        exact ⟨_, Multiset.mem_singleton_self _⟩
    obtain ⟨κ, hκ⟩ := ih h.2 ν
    exact ⟨κ, mem_extendAll_cons.mpr ⟨ν, hν, hκ⟩⟩

namespace Selection

/-- The documents that a query matches. -/
def roots (sel : Selection) (store : Store) (data : Dataset) : Set Term :=
  {x | ∃ κ ∈ sel.documents.eval { store := store, data := data }, κ rootVariable = some x}

theorem mem_roots : x ∈ sel.roots store data ↔ Solution.ofDocument x ∈
    (sel.documents.eval { store := store, data := data }).map (·.restrict [rootVariable]) := by
  rw [Multiset.mem_map]
  refine exists_congr fun κ => and_congr_right fun _ => ?_
  constructor
  · intro hx
    funext v
    by_cases hv : v = rootVariable
    · rw [hv, Solution.restrict_of_mem (List.mem_singleton_self _), hx, Solution.ofDocument,
        Solution.set_self]
    · rw [Solution.restrict_of_notMem (by simpa using hv), Solution.ofDocument,
        Solution.set_of_ne _ hv, Solution.empty_apply]
  · intro hx
    have hroot := congrFun hx rootVariable
    rwa [Solution.restrict_of_mem (List.mem_singleton_self _), Solution.ofDocument,
      Solution.set_self] at hroot

/-- Without its filter a query matches the documents of its required elements. -/
theorem mem_roots_unfiltered (hs : s.WellFormed) (h : q.compile s options model = .ok sel) :
    x ∈ sel.unfiltered.roots store data ↔
      ∃ μ ∈ extendAll { store := store, data := data, graph := options.graph } sel.required
        {.empty}, μ rootVariable = some x := by
  obtain ⟨classUri, -, hfilterable, hrest⟩ := Spec.exists_filterable hs h
  set c : Context := { store := store, data := data, graph := options.graph }
  have hf := hfilterable c 0 0 rfl
  have hsolutions : sel.unfiltered.documents.eval { store := store, data := data } =
      extendAll c (sel.required ++ (sel.optionals ++ sel.bindings)) {.empty} := by
    have htests : filtersOf (sel.required ++ (sel.optionals ++ sel.bindings)) = [] := by
      rw [filtersOf_append, hf.tests.1, hf.tests.2]
      rfl
    rw [eval_documents, ← groupSolutions_of_tests htests]
    simp only [elements, unfiltered, List.append_nil, Spec.graph_of_compile h, List.append_assoc, c]
  rw [roots, Set.mem_ofPred_eq, hsolutions]
  constructor
  · rintro ⟨κ, hκ, hx⟩
    obtain ⟨μ, hμ, hκ⟩ := mem_extendAll_append.mp hκ
    obtain ⟨y, hat, -⟩ := hf.document μ hμ
    have hroot : μ rootVariable = some y := (Context.value?_eq rfl _ _).symm.trans hat.root
    have hy := apply_of_mem_extendAll_of_some hroot hf.root hκ
    exact ⟨μ, hμ, hroot.trans (hy.symm.trans hx)⟩
  · rintro ⟨μ, hμ, hx⟩
    obtain ⟨κ, hκ⟩ := exists_mem_extendAll hrest μ
    exact ⟨κ, mem_extendAll_append.mpr ⟨μ, hμ, hκ⟩, apply_of_mem_extendAll_of_some hx hf.root hκ⟩

/-- A query matches the documents of its required elements that its filter asks for. -/
theorem mem_roots_iff (hs : s.WellFormed) (h : q.compile s options model = .ok sel)
    (hfilter : q.filter = some cond) (hf : q.filterScope s options model = .ok f) :
    x ∈ sel.roots store data ↔ x ∈ sel.unfiltered.roots store data ∧
      cond.Holds (f.Answers store (data.graph options.graph) f.isInlined · x) false := by
  classical
  have hroot : Solution.ofDocument x rootVariable = some x := Solution.set_self _ _ _
  have hcount := Spec.count_documents hs h hfilter hf (List.mem_singleton_self rootVariable)
    (fun v hv => .inl (List.mem_singleton.mp hv)) store data (Solution.ofDocument x)
  rw [hroot, Option.elim_some] at hcount
  rw [mem_roots, mem_roots, ← FilterScope.ways_weight_ne_zero_iff, ← Multiset.count_ne_zero,
    ← Multiset.count_ne_zero, hcount, Nat.mul_ne_zero_iff, and_comm]

end Selection

/-! ## Scalar fields -/

/-- The scalar fields that a query asks for. -/
def Spec.askedScalars (q : Spec) (s : Schema) (model : String) : Outcome (Dict FieldPath) := do
  return scalarFields (← normalizedFields s model q.fields)

/-- The identifier of a document has no hops. -/
theorem PathPrefix.hops_identity (hs : s.WellFormed) {fields : Dict FieldPath}
    (hfields : ∀ e ∈ fields, e.2 = .ofText idKey) {ts : List FieldTarget}
    (hts : fields.mapM (fun e => do
      return FieldTarget.mk e.2 (← s.resolve model e.2.path)) = .ok ts)
    {es : List Element} (h : hops s (Projection.requiredHops ts) = .ok es) : es = [] := by
  obtain ⟨ess, hess, rfl⟩ := hops_eq_ok h
  refine List.flatten_eq_nil_iff.mpr fun es hes => ?_
  obtain ⟨p, hp, hhop⟩ := exists_left_of_mem hess hes
  obtain ⟨t, ht, hp⟩ := List.mem_flatMap.mp (mem_of_mem_firstByKey hp)
  obtain ⟨m, -, hm, rfl⟩ := mem_ofPath.mp (List.mem_of_mem_filter hp)
  obtain ⟨e, he, htarget⟩ := exists_left_of_mem (Outcome.mapM_eq_ok.mp hts) ht
  obtain ⟨r, hr, htarget⟩ := Outcome.bind_eq_ok.mp htarget
  obtain rfl := Except.ok.inj htarget
  have hkey : isFieldSegment idKey = true := rfl
  have hpath : e.2.path = ⟨[idKey]⟩ := by
    rw [hfields e he, FieldPath.ofText_of_isFieldSegment hkey]
    rfl
  obtain ⟨hroot, -⟩ := Schema.resolve_eq_ok.mp hr
  have hidentity := Schema.resolve_of_lastTarget? hroot hkey rfl
  rw [Path.ofText_of_isFieldSegment hkey, ← hpath, hr] at hidentity
  have hnode : nodeAt e.2.path r 1 = .ok rootNode := by
    rw [Except.ok.inj hidentity]
    rfl
  have hlength : e.2.path.length = 1 := by
    rw [hpath]
    rfl
  exact hop_eq_nil hs hr hnode (fun v hv => (Sparql.Node.var.inj hv).symm) hlength.ge
    (hm.trans hlength.le) hhop

/-- The required elements of a query are those of the scalar fields that it asks for. -/
theorem Spec.exists_required (hs : s.WellFormed) (h : q.compile s options model = .ok sel) :
    ∃ classUri fields ts required, s.classUri model = .ok classUri ∧
      q.askedScalars s model = .ok fields ∧
      fields.mapM (fun e => do return FieldTarget.mk e.2 (← s.resolve model e.2.path)) = .ok ts ∧
      PathPrefix.hops s (Projection.requiredHops ts) = .ok required ∧
      sel.required = .statement rootNode rdfType (.term (.iri classUri)) :: required := by
  obtain ⟨q', classUri, p, filters, orderBy, -, hnormal, hclass, hp, -, rfl⟩ := compile_eq_ok h
  obtain ⟨ts, compiled, hts, hrequired, -⟩ := Projection.compile_eq_ok hp
  have htargets := Projection.targets_eq_ok hts
  obtain ⟨fields, hfields, hnormal⟩ := Outcome.bind_eq_ok.mp hnormal
  obtain rfl := Except.ok.inj hnormal
  by_cases hempty : (q.fields.isEmpty && q.aggregates.isEmpty) = true
  · rw [if_pos hempty] at hfields
    rw [Bool.and_eq_true, List.isEmpty_iff, List.isEmpty_iff] at hempty
    have hasked : q.askedScalars s model = .ok [] := by
      rw [askedScalars, hempty.1]
      rfl
    have hidentity : ∀ e ∈ scalarFields fields, e.2 = .ofText idKey := by
      intro e he
      obtain ⟨⟨name, selector⟩, hselector, he⟩ := List.mem_filterMap.mp he
      obtain ⟨e', he', hnormal⟩ := exists_left_of_mem (Outcome.mapM_eq_ok.mp hfields) hselector
      rw [List.mem_singleton.mp he'] at hnormal
      obtain ⟨selector', hselector', hnormal⟩ := Outcome.bind_eq_ok.mp hnormal
      obtain ⟨rfl, rfl⟩ := Prod.mk.inj (Except.ok.inj hnormal)
      obtain ⟨r, -, hselector'⟩ := Outcome.bind_eq_ok.mp hselector'
      obtain rfl := Except.ok.inj hselector'
      split at he
      · cases he
      · rw [← Option.some.inj he]
    refine ⟨classUri, [], [], [], hclass, hasked, rfl, rfl, ?_⟩
    rw [PathPrefix.hops_identity hs hidentity htargets hrequired]
  · rw [if_neg hempty] at hfields
    refine ⟨classUri, _, ts, p.required, hclass, ?_, htargets, hrequired, rfl⟩
    rw [askedScalars, hfields]
    rfl

/-- Queries that ask for the same scalar fields have the same required elements. -/
theorem Spec.required_congr (hs : s.WellFormed) (h : q.compile s options model = .ok sel)
    (h' : q'.compile s options model = .ok sel')
    (hsame : q'.askedScalars s model = q.askedScalars s model) : sel'.required = sel.required := by
  obtain ⟨classUri, fields, ts, required, hclass, hfields, hts, hrequired, heq⟩ :=
    exists_required hs h
  obtain ⟨classUri', fields', ts', required', hclass', hfields', hts', hrequired', heq'⟩ :=
    exists_required hs h'
  obtain rfl := Except.ok.inj (hclass.symm.trans hclass')
  obtain rfl := Except.ok.inj (hfields.symm.trans (hsame.symm.trans hfields'))
  obtain rfl := Except.ok.inj (hts.symm.trans hts')
  obtain rfl := Except.ok.inj (hrequired.symm.trans hrequired')
  rw [heq, heq']

/-! ## Filters -/

namespace FilterScope

/-- What a comparison asks for does not depend on what is a column, unless it is an equality
that is one of terms here and one of values there. -/
theorem answers_congr (hschema : f'.schema = f.schema) (hmodel : f'.model = f.model)
    (hsearch : f'.fullText = f.fullText) {g : Graph} {c : Comparison}
    (h : f.isInlined c ≠ f'.isInlined c →
      (f.Finds store g true c .eq x ↔ f.Finds store g false c .eq x)) :
    f'.Answers store g f'.isInlined c x ↔ f.Answers store g f.isInlined c x := by
  obtain ⟨schema, model, projected, fullText⟩ := f
  obtain ⟨schema', model', projected', fullText'⟩ := f'
  obtain rfl : schema' = schema := hschema
  obtain rfl : model' = model := hmodel
  obtain rfl : fullText' = fullText := hsearch
  have hexact {exact exact' : Comparison → Bool} (he : exact c = exact' c) :
      Answers ⟨schema', model', projected', fullText'⟩ store g exact c x ↔
        Answers ⟨schema', model', projected, fullText'⟩ store g exact' c x := by
    unfold Answers Satisfies
    rw [he]
    exact Iff.rfl
  by_cases hinlined : isInlined ⟨schema', model', projected, fullText'⟩ c =
      isInlined ⟨schema', model', projected', fullText'⟩ c
  · exact hexact hinlined.symm
  · have heq : c.operator = .eq := by_contra fun hne =>
      hinlined (by rw [isInlined_of_ne hne, isInlined_of_ne hne])
    have hfinds := h hinlined
    rw [answers_of_eq heq, answers_of_eq heq]
    cases hhere : isInlined ⟨schema', model', projected, fullText'⟩ c with
    | false =>
      cases hthere : isInlined ⟨schema', model', projected', fullText'⟩ c with
      | false => exact absurd (hhere.trans hthere.symm) hinlined
      | true => exact hfinds
    | true =>
      cases hthere : isInlined ⟨schema', model', projected', fullText'⟩ c with
      | false => exact hfinds.symm
      | true => exact absurd (hhere.trans hthere.symm) hinlined

end FilterScope

theorem Spec.filterScope_eq_ok (hf : q.filterScope s options model = .ok f) :
    f.schema = s ∧ f.model = model ∧ f.fullText = options.fullText := by
  obtain ⟨q', -, hf⟩ := Outcome.bind_eq_ok.mp hf
  obtain ⟨p, -, hf⟩ := Outcome.bind_eq_ok.mp hf
  obtain rfl := Except.ok.inj hf
  exact ⟨rfl, rfl, rfl⟩

namespace Selection

/-- Two queries that ask for the same scalar fields under the same condition match the same
documents, but for those that an equality finds as a term and not as a value, or as a value
and not as a term, while its path is a column of one of the queries only. -/
theorem roots_of_other_columns {d : SchemaDefinition} (hd : d.build = .ok s)
    (h : q.compile s options model = .ok sel) (h' : q'.compile s options model = .ok sel')
    (hfilter : q.filter = some cond) (hfilter' : q'.filter = some cond)
    (hsame : q'.askedScalars s model = q.askedScalars s model) (store : Store) (data : Dataset) :
    ∃ f f', q.filterScope s options model = .ok f ∧ q'.filterScope s options model = .ok f' ∧
      sel'.unfiltered.roots store data = sel.unfiltered.roots store data ∧
      (∀ x, x ∈ sel.roots store data ↔ x ∈ sel.unfiltered.roots store data ∧
        cond.Holds (f.Answers store (data.graph options.graph) f.isInlined · x) false) ∧
      ∀ x, (∀ c ∈ cond.comparisons false, f.isInlined c ≠ f'.isInlined c →
          (f.Finds store (data.graph options.graph) true c .eq x ↔
            f.Finds store (data.graph options.graph) false c .eq x)) →
        (x ∈ sel'.roots store data ↔ x ∈ sel.roots store data) := by
  have hs := SchemaDefinition.build_wellFormed hd
  obtain ⟨f, hf⟩ := Spec.exists_filterScope h
  obtain ⟨f', hf'⟩ := Spec.exists_filterScope h'
  have hroots : sel'.unfiltered.roots store data = sel.unfiltered.roots store data := by
    ext x
    rw [mem_roots_unfiltered hs h, mem_roots_unfiltered hs h', Spec.required_congr hs h h' hsame]
  refine ⟨f, f', hf, hf', hroots, fun x => mem_roots_iff hs h hfilter hf, fun x hx => ?_⟩
  obtain ⟨hschema, hmodel, hsearch⟩ := Spec.filterScope_eq_ok hf
  obtain ⟨hschema', hmodel', hsearch'⟩ := Spec.filterScope_eq_ok hf'
  rw [mem_roots_iff hs h hfilter hf, mem_roots_iff hs h' hfilter' hf', hroots]
  refine and_congr_right fun _ => Condition.holds_congr fun c hc => ?_
  exact FilterScope.answers_congr (hschema'.trans hschema.symm) (hmodel'.trans hmodel.symm)
    (hsearch'.trans hsearch.symm) (hx c hc)

/-! ## People of an age -/

/-- The documents of a query of people by their type. -/
theorem mem_roots_people {sel : Selection} (meaning : Term → Prop) {r : Term}
    (hgraph : sel.graph = none)
    (h : ∀ ctx : Context, ctx.given = .empty → ctx.store = .numeric → ctx.statements = fives →
      ∀ κ, κ ∈ groupSolutions ctx sel.elements ↔
        ∃ y, ⟨y, rdfType, .iri person.classUri⟩ ∈ fives ∧ meaning y ∧ κ = ofPerson y) :
    r ∈ sel.roots .numeric (fives.dataset none) ↔
      ⟨r, rdfType, .iri person.classUri⟩ ∈ fives ∧ meaning r := by
  have hsolutions := h { store := .numeric, data := fives.dataset none } rfl rfl
    (fives.graph_dataset none)
  rw [roots, Set.mem_ofPred_eq, eval_documents, hgraph]
  simp only [hsolutions]
  constructor
  · rintro ⟨_, ⟨y, hy, hmeaning, rfl⟩, hroot⟩
    rw [ofPerson_root] at hroot
    rw [← Option.some.inj hroot]
    exact ⟨hy, hmeaning⟩
  · rintro ⟨hr, hmeaning⟩
    exact ⟨_, ⟨r, hr, hmeaning, rfl⟩, ofPerson_root r⟩

/-- The age of Alice is the number 5, as a term and as a value. -/
theorem finds_alice {projected : List Path} (exact : Bool) :
    FilterScope.Finds ⟨peopleSchema, "Person", projected, .standard⟩ .numeric fives exact
      ⟨.ofText "age", .eq, .num (.integer ⟨5, by decide, by decide⟩)⟩ .eq alice := by
  obtain ⟨r, hr, hreaches⟩ := FilterScope.exists_resolve_age
  have hage : (⟨alice, agePredicate, .literal (.ofInt 5)⟩ : Rdf.Statement) ∈ fives := by decide
  refine ⟨r, hr, ?_⟩
  rw [if_neg (by decide)]
  refine ⟨.literal (.ofInt 5), hreaches.mpr hage, ?_⟩
  cases exact with
  | true => exact rfl
  | false => exact ⟨_, rfl, Store.numeric.compare_int .equal 5 5⟩

/-- Alice is found whether or not the age is a column. -/
theorem roots_of_other_columns_alice :
    ∃ sel sel', people.build = .ok peopleSchema ∧
      (ofFive []).compile peopleSchema {} "Person" = .ok sel ∧
      (ofFive [("oldest", ⟨.max, some (.ofText "age"), [], false⟩)]).compile peopleSchema {}
        "Person" = .ok sel' ∧
      (ofFive [("oldest", ⟨.max, some (.ofText "age"), [], false⟩)]).askedScalars peopleSchema
        "Person" = (ofFive []).askedScalars peopleSchema "Person" ∧
      (alice ∈ sel'.roots .numeric (fives.dataset none) ↔
        alice ∈ sel.roots .numeric (fives.dataset none)) := by
  obtain ⟨sel, hsel, -⟩ := compile_ofFive
  obtain ⟨sel', v, hsel', -⟩ := compile_ofFive_oldest
  obtain ⟨f, f', hf, -, -, -, hroots⟩ := roots_of_other_columns people_build hsel hsel' rfl rfl rfl
    .numeric (fives.dataset none)
  refine ⟨sel, sel', people_build, hsel, hsel', rfl, hroots alice fun c hc _ => ?_⟩
  obtain rfl := Except.ok.inj hf
  rw [List.mem_singleton.mp hc,
    show (fives.dataset none).graph _ = fives from fives.graph_dataset none]
  exact iff_of_true (finds_alice true) (finds_alice false)

/-- Whether Bob, whose age is the double 5, is found depends on whether the age is a column. -/
theorem not_roots_eq :
    ¬∀ (d : SchemaDefinition) (s : Schema) (model : String) (options : CompileOptions) (q q' : Spec)
      (sel sel' : Selection) (store : Store) (data : Dataset), d.build = .ok s → q.IsOrdered →
      q'.IsOrdered → q.compile s options model = .ok sel → q'.compile s options model = .ok sel' →
      q'.fields = q.fields → q'.filter = q.filter →
        sel'.roots store data = sel.roots store data := by
  intro h
  obtain ⟨sel, hsel, -, -, -, -, hgraph, helements, -⟩ := compile_ofFive
  obtain ⟨sel', v, hsel', hroot, hkind, -, hgraph', helements', -⟩ := compile_ofFive_oldest
  have hordered' : (ofFive [("oldest", ⟨.max, some (.ofText "age"), [], false⟩)]).IsOrdered := by
    constructor <;> unfold Dict.IsSorted <;> decide
  have hsame := h people peopleSchema "Person" {} _ _ sel sel' .numeric (fives.dataset none)
    people_build isOrdered_ofFive hordered' hsel hsel' rfl rfl
  have hbob := Set.ext_iff.mp hsame bob
  rw [mem_roots_people (fun y => ⟨y, agePredicate, .literal (.ofInt 5)⟩ ∈ fives) hgraph
      fun ctx hctx _ hdata κ => by rw [helements, mem_groupSolutions_triple hctx, hdata],
    mem_roots_people (fun y => ∃ t, ⟨y, agePredicate, t⟩ ∈ fives ∧
        Store.numeric.related .equal t (.literal (.ofInt 5)) = some true) hgraph'
      fun ctx hctx hstore hdata κ => by
        rw [helements', mem_groupSolutions_comparison hctx hroot hkind, hdata, hstore]] at hbob
  have htype : (⟨bob, rdfType, .iri person.classUri⟩ : Rdf.Statement) ∈ fives := by decide
  exact absurd (hbob.mp ⟨htype, exists_five (.inr rfl)⟩).2 (by decide)

end Selection

end DocGraph
