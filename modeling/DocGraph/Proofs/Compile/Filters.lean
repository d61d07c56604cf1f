import DocGraph.Proofs.Compile.Ways

/-!
# Filters mean what they say

The elements of a filter match just the documents of the model for which its condition
holds (`FilterScope.documents_of_filter`), since these are the ones for which it has a way
(`counted_compile`). `Condition.Holds` reads the connectives as usual, but for a negation:
under one a comparison is read as its inverse, and conjunctions and disjunctions are
exchanged. An equality is the identity of terms only where it is inlined. Where its path
is a column, and under `$ne` everywhere, it is the equality of values that a test of the
store has.

Neither of the two can be left out. With equalities of terms, or with negations that are
complements, the filters would select other documents
(`FilterScope.not_selectBy_usual_reading`).
-/

namespace DocGraph

open Rdf (Graph Term)
open Sparql (Context Solution Store)

namespace FilterScope

variable {f : FilterScope} {condition : Condition} {es : List Element} {n : Nat} {anchor : Element}
  {store : Store} {g : Graph} {x : Term}

/-- A condition without full-text search holds where its comparisons are satisfied. -/
theorem holds_answers_iff {exact : Comparison → Bool} {negated : Bool}
    (hsearch : condition.isSearchFree = true) :
    condition.Holds (f.Answers store g exact · x) negated ↔
      condition.Holds (f.Satisfies store g exact · x) negated :=
  Condition.holds_congr fun _ hcmp => answers_of_ne_search
    (Operator.positive_ne_search (Condition.not_search_of_mem_comparisons negated condition hsearch
      hcmp))

/-- A document is found by a filter exactly if it is one of the model and the condition holds
for it. -/
theorem mem_documents_iff (hs : f.schema.WellFormed) (hsearch : condition.isSearchFree = true)
    (hcompile : f.compile false 0 condition.eliminateNot = .ok (es, n))
    (hanchor : f.anchor = .ok anchor) {data : Rdf.Dataset} {graph : Option Rdf.Iri} :
    (∃ κ ∈ (groupPattern (anchor :: es)).eval { store := store, data := data, graph := graph },
        κ rootVariable = some x) ↔
      f.IsInstance (data.graph graph) x ∧
        condition.Holds (f.Satisfies store (data.graph graph) f.isInlined · x) false := by
  obtain ⟨classUri, hclass, h⟩ := Outcome.bind_eq_ok.mp hanchor
  obtain rfl := Except.ok.inj h
  set c : Context := { store := store, data := data, graph := graph }
  have hset : Setting f c classUri := ⟨hs, hclass, rfl⟩
  have hfaithful := (counted_compile hset _ false 0 n es hcompile).counted.faithful
  have hroot := not_ownsBetween_root 0 n
  have hinstance : f.IsInstance (data.graph graph) x ↔ IsInstanceOf c classUri x := by
    simp only [IsInstance, hclass, Except.ok.injEq, exists_eq_left']
    exact Iff.rfl
  have hholds {y : Term} :
      condition.Holds (f.Satisfies store (data.graph graph) f.isInlined · y) false ↔
        condition.eliminateNot.ways (f.weight c.store c.statements y) false ≠ 0 := by
    rw [Condition.ways, Condition.fold_eliminateNot, ← holds_answers_iff hsearch]
    exact ways_weight_ne_zero_iff.symm
  rw [eval_groupPattern, hinstance, hholds]
  constructor
  · rintro ⟨κ, hκ, hx⟩
    obtain ⟨y, hy, hinst, hm, -⟩ := hfaithful.sound_anchored rfl hroot hκ
    obtain rfl : y = x := Option.some.inj (hy.symm.trans hx)
    exact ⟨hinst, hm⟩
  · rintro ⟨hinst, hm⟩
    exact hfaithful.complete_anchored rfl hroot hinst hm

/-- A filter selects the documents of the model for which its condition holds. -/
theorem documents_of_filter (hbuilt : ∃ d : SchemaDefinition, d.build = .ok f.schema)
    (condition : Condition) (hsearch : condition.isSearchFree = true) {es : List Element} {n : Nat}
    (hcompile : f.compile false 0 condition.eliminateNot = .ok (es, n)) {anchor : Element}
    (hanchor : f.anchor = .ok anchor) (store : Store) (data : Rdf.Dataset)
    (graph : Option Rdf.Iri) :
    {x | ∃ κ ∈ (groupPattern (anchor :: es)).eval { store := store, data := data, graph := graph },
      κ rootVariable = some x} =
    {x | f.IsInstance (data.graph graph) x ∧
      condition.Holds (f.Satisfies store (data.graph graph) f.isInlined · x) false} := by
  obtain ⟨d, hd⟩ := hbuilt
  have hs := SchemaDefinition.build_wellFormed hd
  ext x
  exact mem_documents_iff hs hsearch hcompile hanchor

/-- The people who are not 5 years old, but have an age of at most 5. -/
theorem documents_of_filter_people :
    ∃ es n anchor,
      ofPeople.compile false 0 (Condition.not (.or [ageOfFive .eq, ageOfFive .gt])).eliminateNot =
          .ok (es, n) ∧
        ofPeople.anchor = .ok anchor ∧
        {x | ∃ κ ∈ (groupPattern (anchor :: es)).eval
            { store := .numeric, data := aliceIsFive.dataset none, graph := none },
          κ rootVariable = some x} =
        {x | ofPeople.IsInstance ((aliceIsFive.dataset none).graph none) x ∧
          (Condition.not (.or [ageOfFive .eq, ageOfFive .gt])).Holds
            (ofPeople.Satisfies .numeric ((aliceIsFive.dataset none).graph none) ofPeople.isInlined
              · x) false} :=
  ⟨_, _, _, rfl, rfl, documents_of_filter ⟨people, people_build⟩ _ rfl rfl rfl _ _ _⟩

/-! ## The usual reading of conditions -/

/-- Whether filters select the documents for which a reading of their conditions holds. -/
def SelectBy (reading : FilterScope → Store → Graph → Term → Condition → Prop) : Prop :=
  ∀ (f : FilterScope) (condition : Condition) (es : List Element) (n : Nat) (anchor : Element)
    (store : Store) (data : Rdf.Dataset) (graph : Option Rdf.Iri),
    (∃ d : SchemaDefinition, d.build = .ok f.schema) → condition.isSearchFree = true →
    f.compile false 0 condition.eliminateNot = .ok (es, n) → f.anchor = .ok anchor →
    {x | ∃ κ ∈ (groupPattern (anchor :: es)).eval
        { store := store, data := data, graph := graph }, κ rootVariable = some x} =
    {x | f.IsInstance (data.graph graph) x ∧ reading f store (data.graph graph) x condition}

theorem SelectBy.iff_holds {reading : FilterScope → Store → Graph → Term → Condition → Prop}
    (h : SelectBy reading) (condition : Condition) (hsearch : condition.isSearchFree = true)
    (hcompile : ∃ es n, ofPeople.compile false 0 condition.eliminateNot = .ok (es, n))
    (hx : ofPeople.IsInstance g x) :
    reading ofPeople .numeric g x condition ↔
      condition.Holds (ofPeople.Satisfies .numeric g ofPeople.isInlined · x) false := by
  obtain ⟨es, n, hcompile⟩ := hcompile
  obtain ⟨anchor, hanchor⟩ : ∃ anchor, ofPeople.anchor = .ok anchor := ⟨_, rfl⟩
  have hs : ofPeople.schema.WellFormed := SchemaDefinition.build_wellFormed people_build
  have hwhole := Set.ext_iff.mp (h ofPeople condition es n anchor .numeric (g.dataset none) none
    ⟨people, people_build⟩ hsearch hcompile hanchor) x
  rw [Set.mem_ofPred_eq, Set.mem_ofPred_eq, mem_documents_iff hs hsearch hcompile hanchor,
    Graph.graph_dataset, and_iff_right hx, and_iff_right hx] at hwhole
  exact hwhole.symm

theorem satisfies_equality {cmp : Comparison} {exact : Comparison → Bool} {r : ResolvedPath}
    (heq : cmp.operator = .eq) (hr : f.schema.resolve f.model cmp.path = .ok r) :
    f.Satisfies store g exact cmp x ↔
      ∃ v, Reaches f.schema g r.steps x v ∧ f.Passes store (exact cmp) cmp .eq v := by
  rw [Satisfies, heq]
  simp only [Operator.polarity, Finds, hr, Except.ok.injEq, exists_eq_left', reduceCtorEq, if_false]

/-- Equalities of terms would not find the person whose age is the double 5: it is not the term
that the number 5 is stored as, but the column is compared by value. -/
theorem not_selectBy_equal_terms :
    ¬SelectBy (fun f store g x condition => f.Meets store g (fun _ => true) x condition) := by
  intro h
  obtain ⟨r, hr, hreaches⟩ := exists_resolve_age
  have hconstant : ofPeople.constant (.ofText "age")
      (.num (.integer ⟨5, by decide, by decide⟩)) = .ok (.literal (.ofInt 5)) := rfl
  have hequal : Store.numeric.related .equal (.literal (.typed "5" (Rdf.xsd "double")))
      (.literal (.ofInt 5)) = some true := by
    rw [Store.related, Store.compare_numeric]
    decide +kernel
  have hinlined : ofPeople.isInlined
      ⟨.ofText "age", .eq, .num (.integer ⟨5, by decide, by decide⟩)⟩ = false := by
    decide
  have hfive : (⟨alice, ⟨"http://example.org/properties/Person/age"⟩,
      .literal (.typed "5" (Rdf.xsd "double"))⟩ : Rdf.Statement) ∈ aliceIsFive := by
    decide
  have hconstantFive : (⟨alice, ⟨"http://example.org/properties/Person/age"⟩,
      .literal (.ofInt 5)⟩ : Rdf.Statement) ∉ aliceIsFive := by
    decide
  have halice : ofPeople.Satisfies .numeric aliceIsFive (fun _ => true)
        ⟨.ofText "age", .eq, .num (.integer ⟨5, by decide, by decide⟩)⟩ alice ↔
      ofPeople.Satisfies .numeric aliceIsFive ofPeople.isInlined
        ⟨.ofText "age", .eq, .num (.integer ⟨5, by decide, by decide⟩)⟩ alice :=
    h.iff_holds (ageOfFive .eq) rfl ⟨_, _, rfl⟩ ⟨_, rfl, by decide⟩
  rw [satisfies_equality rfl hr, satisfies_equality rfl hr] at halice
  simp only [hinlined, Passes, hconstant, Bool.false_eq_true, if_false, if_true,
    Except.ok.injEq, exists_eq_left'] at halice
  -- the column is compared by value, but the double is not the constant
  obtain ⟨y, hy, rfl⟩ := halice.mpr ⟨_, hreaches.mpr hfive, hequal⟩
  exact hconstantFive (hreaches.mp hy)

/-- Negations that are complements would find the person without an age. -/
theorem not_selectBy_complements :
    ¬SelectBy (fun f store g x condition => f.Meets store g f.isInlined x condition) := by
  intro h
  have hfinds (operator : Operator) (hop : operator ≠ .all) (cmp : Comparison)
      (hpath : cmp.path = .ofText "age") :
      ¬ofPeople.Finds .numeric ageless (ofPeople.isInlined cmp) cmp operator alice :=
    not_finds_of_no_value hop fun r v hr => not_reaches_ageless (hpath ▸ hr)
  have halice := h.iff_holds (.not (ageOfFive .gt)) rfl ⟨_, _, rfl⟩ isInstance_ageless
  -- without an age neither the comparison nor its inverse is satisfied
  exact hfinds .lte (by decide) _ rfl (halice.mp (hfinds .gt (by decide) _ rfl))

/-- Filters do not select by equalities of terms and negations that are complements, and not
by such negations alone. -/
theorem not_selectBy_usual_reading :
    ¬SelectBy (fun f store g x condition => f.Meets store g (fun _ => true) x condition) ∧
      ¬SelectBy (fun f store g x condition => f.Meets store g f.isInlined x condition) :=
  ⟨not_selectBy_equal_terms, not_selectBy_complements⟩

end FilterScope

end DocGraph
