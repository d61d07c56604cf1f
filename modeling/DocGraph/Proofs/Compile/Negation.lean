import DocGraph.Proofs.Compile.Checks
import DocGraph.Proofs.Compile.Filters

/-!
# Negated filters

The negation of a condition asks for the inverses of its comparisons, so it selects the
other documents if every comparison splits the documents with its inverse
(`FilterScope.selects_not_iff`). Most comparisons do. An order comparison and its inverse
both ask for a value, and so split just the documents that have a value for exactly one of
them: neither selects a document without values. An equality that is inlined is one of terms,
and its inverse one of values.
-/

namespace DocGraph

open Rdf (Dataset Graph Iri Term)
open Sparql (Store)

namespace FilterScope

variable {f : FilterScope} {store : Store} {g : Graph} {c : Comparison} {x : Term}

/-- Whether a document is one that either a comparison or its inverse asks for. The order
comparisons both ask for a value, and an equality that is inlined is one of terms, but its
inverse is not. -/
def Splits (f : FilterScope) (store : Store) (g : Graph) (c : Comparison) (x : Term) : Prop :=
  match c.operator with
  | .gt | .gte | .lt | .lte =>
    f.Finds store g false c c.operator.inverse x ↔ ¬f.Finds store g false c c.operator x
  | .eq | .ne =>
    f.isInlined { c with operator := .eq } = true →
      (f.Finds store g true c .eq x ↔ f.Finds store g false c .eq x)
  | _ => True

/-- A comparison and its inverse are complements at just the documents that they split. -/
theorem satisfies_inverse_iff (hsearch : c.operator ≠ .search ∧ c.operator ≠ .notSearch) :
    (f.Satisfies store g f.isInlined c.inverse x ↔ ¬f.Satisfies store g f.isInlined c x) ↔
      f.Splits store g c x := by
  obtain ⟨path, operator, operand⟩ := c
  have hne : f.isInlined ⟨path, .ne, operand⟩ = false := isInlined_of_ne (nofun : Operator.ne ≠ .eq)
  cases operator with
  | search => exact absurd rfl hsearch.1
  | notSearch => exact absurd rfl hsearch.2
  | eq =>
    show (¬f.Finds store g (f.isInlined ⟨path, .ne, operand⟩) ⟨path, .eq, operand⟩ .eq x ↔
      ¬f.Finds store g (f.isInlined ⟨path, .eq, operand⟩) ⟨path, .eq, operand⟩ .eq x) ↔
        (f.isInlined ⟨path, .eq, operand⟩ = true →
          (f.Finds store g true ⟨path, .eq, operand⟩ .eq x ↔
            f.Finds store g false ⟨path, .eq, operand⟩ .eq x))
    rw [hne, not_iff_not]
    cases f.isInlined ⟨path, .eq, operand⟩
    · exact iff_of_true Iff.rfl nofun
    · exact Iff.comm.trans (true_imp_iff.symm.trans (imp_congr_left (iff_of_true trivial rfl)))
  | ne =>
    show (f.Finds store g (f.isInlined ⟨path, .eq, operand⟩) ⟨path, .ne, operand⟩ .eq x ↔
      ¬¬f.Finds store g (f.isInlined ⟨path, .ne, operand⟩) ⟨path, .ne, operand⟩ .eq x) ↔
        (f.isInlined ⟨path, .eq, operand⟩ = true →
          (f.Finds store g true ⟨path, .ne, operand⟩ .eq x ↔
            f.Finds store g false ⟨path, .ne, operand⟩ .eq x))
    rw [hne, not_not]
    cases f.isInlined ⟨path, .eq, operand⟩
    · exact iff_of_true Iff.rfl nofun
    · exact true_imp_iff.symm.trans (imp_congr_left (iff_of_true trivial rfl))
  | gt | gte | lt | lte => exact Iff.rfl
  | oneOf | regex | iregex | strlen | present | all => exact iff_of_true Iff.rfl trivial
  | noneOf | notRegex | notIregex | notStrlen | absent | notAll =>
    exact iff_of_true not_not.symm trivial

/-- A document with one value is found if the value passes the test. -/
theorem finds_iff_of_unique_value {exact : Bool} {operator : Operator} {r : ResolvedPath} {t : Term}
    (hr : f.schema.resolve f.model c.path = .ok r)
    (h : ∀ v, Reaches f.schema g r.steps x v ↔ v = t) (hop : operator ≠ .all) :
    f.Finds store g exact c operator x ↔ f.Passes store exact c operator t := by
  simp only [finds_of_ne_all hr hop, h, exists_eq_left]

/-- An order comparison does not split the documents without a value: neither it nor its
inverse asks for them. -/
theorem not_splits_of_no_value (hop : c.operator ∈ [.gt, .gte, .lt, .lte])
    (h : ∀ r v, f.schema.resolve f.model c.path = .ok r → ¬Reaches f.schema g r.steps x v) :
    ¬f.Splits store g c x := by
  have hfinds (operator : Operator) (hne : operator ≠ .all) : ¬f.Finds store g false c operator x :=
    not_finds_of_no_value hne h
  obtain ⟨path, operator, operand⟩ := c
  simp only [List.mem_cons, List.not_mem_nil, or_false] at hop
  rcases hop with rfl | rfl | rfl | rfl
  · exact fun hsplits => hfinds .lte (by decide) (hsplits.mpr (hfinds .gt (by decide)))
  · exact fun hsplits => hfinds .lt (by decide) (hsplits.mpr (hfinds .gte (by decide)))
  · exact fun hsplits => hfinds .gte (by decide) (hsplits.mpr (hfinds .lt (by decide)))
  · exact fun hsplits => hfinds .gt (by decide) (hsplits.mpr (hfinds .lte (by decide)))

end FilterScope

/-! ## Negations are compiled -/

namespace FilterScope

variable {f : FilterScope} {c : Comparison} {store : Store} {data : Dataset} {graph : Option Iri}
  {x : Term} {es : List Element} {n : Nat} {anchor : Element}

/-- An operator and its inverse take the same operands. -/
theorem admits_inverse : f.Admits c.inverse ↔ f.Admits c := by
  obtain ⟨path, operator, operand⟩ := c
  cases operator <;> exact Iff.rfl

/-- A comparison is refused exactly if its inverse is. -/
theorem exists_comparison_inverse (hs : f.schema.WellFormed) (h : f.comparison n c = .ok es) :
    ∃ es', f.comparison n c.inverse = .ok es' := by
  obtain ⟨hpath, hadmits⟩ := (succeeds_comparison_iff hs).mp ⟨es, h⟩
  exact (succeeds_comparison_iff hs).mpr ⟨hpath, admits_inverse.mpr hadmits⟩

mutual

/-- A condition that is compiled is also compiled under a negation, with the same numbers. -/
theorem exists_compile_negated (hs : f.schema.WellFormed) {anchor : Element}
    (hanchor : f.anchor = .ok anchor) : ∀ (cond : Condition) (negated : Bool) (m n : Nat)
      (es : List Element), f.compile negated m cond = .ok (es, n) →
        ∃ es', f.compile (!negated) m cond = .ok (es', n)
  | .compare c, negated, m, n, es, h => by
    obtain ⟨hhere, rfl⟩ := compile_compare_eq_ok.mp h
    obtain ⟨es', hes'⟩ := exists_comparison_inverse hs hhere
    refine ⟨es', compile_compare_eq_ok.mpr ⟨?_, rfl⟩⟩
    cases negated
    · exact hes'
    · rw [if_pos rfl, Comparison.inverse_inverse] at hes'
      exact hes'
  | .and children, negated, m, n, es, h => by
    cases negated
    · obtain ⟨branches, hbranches⟩ := exists_branches_of_all hs hanchor children false m n es h
      exact ⟨_, union_eq_ok.mpr ⟨anchor, branches, hanchor, hbranches, rfl⟩⟩
    · obtain ⟨anchor', branches, hanchor', hbranches, -⟩ := union_eq_ok.mp h
      exact exists_all_of_branches hs hanchor' children true m n branches hbranches
  | .or children, negated, m, n, es, h => by
    cases negated
    · obtain ⟨anchor', branches, hanchor', hbranches, -⟩ := union_eq_ok.mp h
      exact exists_all_of_branches hs hanchor' children false m n branches hbranches
    · obtain ⟨branches, hbranches⟩ := exists_branches_of_all hs hanchor children true m n es h
      exact ⟨_, union_eq_ok.mpr ⟨anchor, branches, hanchor, hbranches, rfl⟩⟩
  | .not child, negated, m, n, es, h => exists_compile_negated hs hanchor child (!negated) m n es h

theorem exists_all_of_branches (hs : f.schema.WellFormed) {anchor : Element}
    (hanchor : f.anchor = .ok anchor) : ∀ (conds : List Condition) (negated : Bool) (m n : Nat)
      (branches : List (List Element)),
        f.compileBranches negated anchor m conds = .ok (branches, n) →
          ∃ es, f.compileAll (!negated) m conds = .ok (es, n)
  | [], negated, m, n, branches, h => by
    obtain ⟨-, rfl⟩ := Prod.mk.inj (Except.ok.inj h)
    exact ⟨[], rfl⟩
  | cond :: rest, negated, m, n, branches, h => by
    obtain ⟨here, k, others, hhere, hothers, -⟩ := compileBranches_cons_eq_ok.mp h
    obtain ⟨es, hes⟩ := exists_compile_negated hs hanchor cond negated m k here hhere
    obtain ⟨es', hes'⟩ := exists_all_of_branches hs hanchor rest negated k n others hothers
    exact ⟨_, compileAll_cons_eq_ok.mpr ⟨_, _, _, hes, hes', rfl⟩⟩

theorem exists_branches_of_all (hs : f.schema.WellFormed) {anchor : Element}
    (hanchor : f.anchor = .ok anchor) : ∀ (conds : List Condition) (negated : Bool) (m n : Nat)
      (es : List Element), f.compileAll negated m conds = .ok (es, n) →
        ∃ branches, f.compileBranches (!negated) anchor m conds = .ok (branches, n)
  | [], negated, m, n, es, h => by
    obtain ⟨-, rfl⟩ := Prod.mk.inj (Except.ok.inj h)
    exact ⟨[], rfl⟩
  | cond :: rest, negated, m, n, es, h => by
    obtain ⟨here, k, others, hhere, hothers, -⟩ := compileAll_cons_eq_ok.mp h
    obtain ⟨es, hes⟩ := exists_compile_negated hs hanchor cond negated m k here hhere
    obtain ⟨branches, hbranches⟩ :=
      exists_branches_of_all hs hanchor rest negated k n others hothers
    exact ⟨_, compileBranches_cons_eq_ok.mpr ⟨_, _, _, hes, hbranches, rfl⟩⟩

end

/-! ## The documents that negations select -/

/-- Whether the elements of a filter select a document. -/
def Selects (f : FilterScope) (store : Store) (data : Dataset) (graph : Option Iri)
    (es : List Element) (x : Term) : Prop :=
  ∃ anchor, f.anchor = .ok anchor ∧
    ∃ κ ∈ (groupPattern (anchor :: es)).eval { store := store, data := data, graph := graph },
      κ rootVariable = some x

theorem selects_iff (hs : f.schema.WellFormed) (cond : Condition)
    (hsearch : cond.isSearchFree = true)
    (hcompile : f.compile false 0 cond.eliminateNot = .ok (es, n))
    (hanchor : f.anchor = .ok anchor) :
    f.Selects store data graph es x ↔ f.IsInstance (data.graph graph) x ∧
      cond.Holds (f.Satisfies store (data.graph graph) f.isInlined · x) false := by
  rw [← mem_documents_iff hs hsearch hcompile hanchor]
  simp only [Selects, hanchor, Except.ok.injEq, exists_eq_left']

/-- The negation of a condition selects the documents for which the condition holds under
the inverses of its comparisons. -/
theorem selects_not (hs : f.schema.WellFormed) (cond : Condition)
    (hsearch : cond.isSearchFree = true)
    (hcompile : f.compile false 0 (Condition.not cond).eliminateNot = .ok (es, n))
    (hanchor : f.anchor = .ok anchor) (hx : f.IsInstance (data.graph graph) x) :
    f.Selects store data graph es x ↔
      cond.Holds (f.Satisfies store (data.graph graph) f.isInlined · x) true := by
  rw [selects_iff hs (.not cond) hsearch hcompile hanchor, and_iff_right hx]
  rfl

/-- A single comparison and its negation are complements at just the documents that it
splits. -/
theorem selects_not_compare_iff {c : Comparison} {es' : List Element} {n' : Nat}
    (hs : f.schema.WellFormed) (hsearch : (Condition.compare c).isSearchFree = true)
    (hcompile : f.compile false 0 (Condition.compare c).eliminateNot = .ok (es, n))
    (hcompile' : f.compile false 0 (Condition.not (.compare c)).eliminateNot = .ok (es', n'))
    (hanchor : f.anchor = .ok anchor) (hx : f.IsInstance (data.graph graph) x) :
    (f.Selects store data graph es' x ↔ ¬f.Selects store data graph es x) ↔
      f.Splits store (data.graph graph) c x := by
  rw [selects_not hs (.compare c) hsearch hcompile' hanchor hx,
    selects_iff hs (.compare c) hsearch hcompile hanchor, and_iff_right hx]
  exact satisfies_inverse_iff (of_decide_eq_true hsearch)

/-- The negation of a condition is compiled if the condition is, and it selects just the
other documents of the model if every comparison splits these with its inverse. A single
comparison and its negation are complements nowhere else. -/
theorem selects_not_iff (hbuilt : ∃ d : SchemaDefinition, d.build = .ok f.schema)
    (cond : Condition) (hsearch : cond.isSearchFree = true)
    (hcompile : f.compile false 0 cond.eliminateNot = .ok (es, n)) (hanchor : f.anchor = .ok anchor)
    (store : Store) (data : Dataset) (graph : Option Iri) :
    ∃ es', f.compile false 0 (Condition.not cond).eliminateNot = .ok (es', n) ∧
      ∀ x, f.IsInstance (data.graph graph) x →
        ((∀ c ∈ cond.comparisons false, f.Splits store (data.graph graph) c x) →
          (f.Selects store data graph es' x ↔ ¬f.Selects store data graph es x)) ∧
        ∀ c, cond = .compare c →
          ((f.Selects store data graph es' x ↔ ¬f.Selects store data graph es x) ↔
            f.Splits store (data.graph graph) c x) := by
  obtain ⟨d, hd⟩ := hbuilt
  have hs := SchemaDefinition.build_wellFormed hd
  obtain ⟨es', hes'⟩ :
      ∃ es', f.compile false 0 (Condition.not cond).eliminateNot = .ok (es', n) := by
    rw [Condition.eliminateNot, compile_negate]
    rw [compile_eliminateNot] at hcompile
    exact exists_compile_negated hs hanchor cond false 0 n es hcompile
  refine ⟨es', hes', fun x hx => ?_⟩
  constructor
  · intro hsplits
    rw [selects_not hs cond hsearch hes' hanchor hx, selects_iff hs cond hsearch hcompile hanchor,
      and_iff_right hx]
    show Condition.Holds _ (!false) cond ↔ _
    refine Condition.holds_not_iff fun c hc => ?_
    have hnotSearch := Condition.not_search_of_mem_comparisons false cond hsearch hc
    exact (satisfies_inverse_iff hnotSearch).mpr (hsplits c hc)
  · rintro c rfl
    exact selects_not_compare_iff hs hsearch hcompile hes' hanchor hx

/-! ## People of an age -/

/-- The comparison of an age with 5 splits a person whose only age is 5. -/
theorem splits_aliceIsFive : ofPeople.Splits .numeric aliceIsFive
    ⟨.ofText "age", .gt, .num (.integer ⟨5, by decide, by decide⟩)⟩ alice := by
  obtain ⟨r, hr, hreaches⟩ := exists_resolve_age
  have hage (v : Term) :
      (⟨alice, ⟨"http://example.org/properties/Person/age"⟩, v⟩ : Rdf.Statement) ∈ aliceIsFive ↔
        v = .literal (.typed "5" (Rdf.xsd "double")) := by
    have hne : (⟨"http://example.org/properties/Person/age"⟩ : Iri) ≠ Rdf.rdfType := by decide
    simp [aliceIsFive, hne]
  have hfinds (operator : Operator) (hop : operator ≠ .all) :
      ofPeople.Finds .numeric aliceIsFive false
          ⟨.ofText "age", .gt, .num (.integer ⟨5, by decide, by decide⟩)⟩ operator alice ↔
        ofPeople.Passes .numeric false
          ⟨.ofText "age", .gt, .num (.integer ⟨5, by decide, by decide⟩)⟩ operator
          (.literal (.typed "5" (Rdf.xsd "double"))) :=
    finds_iff_of_unique_value hr (fun v => hreaches.trans (hage v)) hop
  have hconstant : ofPeople.constant (.ofText "age") (.num (.integer ⟨5, by decide, by decide⟩)) =
      .ok (.literal (.ofInt 5)) := rfl
  have hgreater : Store.numeric.related .greater (.literal (.typed "5" (Rdf.xsd "double")))
      (.literal (.ofInt 5)) ≠ some true := by
    rw [Store.related, Store.compare_numeric]
    decide +kernel
  have hless : Store.numeric.related .lessOrEqual (.literal (.typed "5" (Rdf.xsd "double")))
      (.literal (.ofInt 5)) = some true := by
    rw [Store.related, Store.compare_numeric]
    decide +kernel
  refine iff_of_true ((hfinds .lte (by decide)).mpr ⟨_, hconstant, hless⟩) fun h => ?_
  obtain ⟨t, ht, h⟩ := (hfinds .gt (by decide)).mp h
  obtain rfl := Except.ok.inj (ht.symm.trans hconstant)
  exact hgreater h

/-- Alice, whose age is 5, is found by the negation of the comparison that does not find
her. -/
theorem selects_not_iff_alice :
    ∃ es n es', people.build = .ok peopleSchema ∧ (ageOfFive .gt).isSearchFree = true ∧
      ofPeople.compile false 0 (ageOfFive .gt).eliminateNot = .ok (es, n) ∧
      (∃ anchor, ofPeople.anchor = .ok anchor) ∧
      ofPeople.compile false 0 (Condition.not (ageOfFive .gt)).eliminateNot = .ok (es', n) ∧
      (ofPeople.Selects .numeric (aliceIsFive.dataset none) none es' alice ↔
        ¬ofPeople.Selects .numeric (aliceIsFive.dataset none) none es alice) := by
  obtain ⟨es, n, hes⟩ : ∃ es n,
      ofPeople.compile false 0 (ageOfFive .gt).eliminateNot = .ok (es, n) := ⟨_, _, rfl⟩
  obtain ⟨es', hes', h⟩ := selects_not_iff ⟨people, people_build⟩ (ageOfFive .gt) rfl hes rfl
    .numeric (aliceIsFive.dataset none) none
  refine ⟨es, n, es', people_build, rfl, hes, ⟨_, rfl⟩, hes', (h alice ?_).1 fun c hc => ?_⟩
  · rw [Graph.graph_dataset]
    exact ⟨_, rfl, by decide⟩
  · rw [List.mem_singleton.mp hc, Graph.graph_dataset]
    exact splits_aliceIsFive

/-! ## People without an age -/

/-- A person without an age is neither older than 5 nor not older. -/
theorem not_selects_not_iff :
    ¬∀ (f : FilterScope) (cond : Condition) (es es' : List Element) (n n' : Nat) (store : Store)
      (data : Dataset) (graph : Option Iri), (∃ d : SchemaDefinition, d.build = .ok f.schema) →
      cond.isSearchFree = true → f.compile false 0 cond.eliminateNot = .ok (es, n) →
      f.compile false 0 (Condition.not cond).eliminateNot = .ok (es', n') →
      ∀ x, f.IsInstance (data.graph graph) x →
        (f.Selects store data graph es' x ↔ ¬f.Selects store data graph es x) := by
  intro h
  have hs : ofPeople.schema.WellFormed := SchemaDefinition.build_wellFormed people_build
  obtain ⟨es, n, hes⟩ : ∃ es n,
      ofPeople.compile false 0 (ageOfFive .gt).eliminateNot = .ok (es, n) := ⟨_, _, rfl⟩
  obtain ⟨es', n', hes'⟩ : ∃ es n,
      ofPeople.compile false 0 (Condition.not (ageOfFive .gt)).eliminateNot = .ok (es, n) :=
    ⟨_, _, rfl⟩
  have halice : ofPeople.IsInstance ((ageless.dataset none).graph none) alice := by
    rw [Graph.graph_dataset]
    exact isInstance_ageless
  have hiff := h ofPeople (ageOfFive .gt) es es' n n' .numeric (ageless.dataset none) none
    ⟨people, people_build⟩ rfl hes hes' alice halice
  have hsplits := (selects_not_compare_iff hs rfl hes hes' rfl halice).mp hiff
  rw [Graph.graph_dataset] at hsplits
  exact not_splits_of_no_value List.mem_cons_self (fun r v hr => not_reaches_ageless hr) hsplits

end FilterScope

end DocGraph
