import DocGraph.Proofs.Compile.ChainBags
import Mathlib.Algebra.Ring.Nat

/-!
# Elements that ask a number of times

Faithful elements have a solution for just the documents with a meaning. How many they
have is told by `Counted`: for every document a number of ways, each of them one solution
that their tests accept. Elements that own different variables multiply their ways
(`Counted.append`), the branches of a union add them (`Counted.union`), and tests have one
way or none (`Counted.ofTests`).
-/

namespace DocGraph

open Rdf (Term Variable)
open Sparql (Context Expr Node Solution Solutions)
open Sparql.Solutions (extensions join pair passing)

/-- In how many ways elements match for each document of a scope. Their tests look at
nothing but the document and the variables that they own. -/
structure Counted (c : Context) (scope : Term → Prop) (owned : Variable → Prop)
    (es : List Element) (ways : Term → Nat) : Prop where
  frame : ∀ {μ κ x}, AtDocument c owned μ x → κ ∈ extendAll c es {μ} → ∀ v, ¬owned v → κ v = μ v
  tests : ∀ {μ κ κ' x}, AtDocument c owned μ x → scope x → κ ∈ extendAll c es {μ} →
    Agree c owned κ κ' →
      ((∀ e ∈ filtersOf es, e.Holds c κ') ↔ ∀ e ∈ filtersOf es, e.Holds c κ)
  card : ∀ {μ x}, AtDocument c owned μ x → scope x →
    ((extendAll c es {μ}).passing c (filtersOf es)).card = ways x

variable {c : Context} {scope : Term → Prop} {owned owned' : Variable → Prop} {es fs : List Element}
  {meaning : Term → Prop} {ways ways' : Term → Nat} {μ κ κ' : Solution} {x : Term}

theorem passing_append (ss : Solutions) (es fs : List Expr) :
    ss.passing c (es ++ fs) = (ss.passing c es).passing c fs := by
  classical
  simp only [passing, List.forall_mem_append, Multiset.filter_filter]
  exact Multiset.filter_congr fun _ _ => and_comm

theorem passing_bind (ss : Solutions) (f : Solution → Solutions) (es : List Expr) :
    passing (ss.bind f) c es = ss.bind fun μ => (f μ).passing c es := by
  classical
  simp only [passing, Multiset.filter_bind]

theorem passing_of_holds {ss : Solutions} {tests : List Expr}
    (h : ∀ κ ∈ ss, ∀ e ∈ tests, e.Holds c κ) : ss.passing c tests = ss := by
  classical
  exact Multiset.filter_eq_self.mpr h

theorem passing_of_not_holds {ss : Solutions} {tests : List Expr}
    (h : ∀ κ ∈ ss, ¬∀ e ∈ tests, e.Holds c κ) : ss.passing c tests = 0 := by
  classical
  exact Multiset.filter_eq_nil.mpr h

/-- Tests that what comes after a solution does not change can be made before it. -/
theorem passing_bind_of_same {ss : Solutions} {f : Solution → Solutions} {tests : List Expr}
    (h : ∀ ν ∈ ss, ∀ κ ∈ f ν, (∀ e ∈ tests, e.Holds c κ) ↔ ∀ e ∈ tests, e.Holds c ν) :
    passing (ss.bind f) c tests = (ss.passing c tests).bind f := by
  classical
  rw [passing_bind, passing, Multiset.bind_filter]
  refine Multiset.bind_congr fun ν hν => ?_
  split
  · next hf => exact passing_of_holds fun κ hκ => (h ν hν κ hκ).mpr hf
  · next hf => exact passing_of_not_holds fun κ hκ => mt (h ν hν κ hκ).mp hf

/-- Elements that are all tests leave a solution as it is. -/
theorem extendAll_of_tests (h : ∀ e ∈ es, e.filter?.isSome = true) (ss : Solutions) :
    extendAll c es ss = ss := by
  induction es with
  | nil => rfl
  | cons e rest ih =>
    rw [List.forall_mem_cons] at h
    cases e with
    | filter e =>
      rw [extendAll, Element.extend]
      exact ih h.2
    | _ => exact absurd h.1 Bool.false_ne_true

namespace Counted

theorem congr (h : Counted c scope owned es ways) (hw : ∀ x, scope x → ways x = ways' x) :
    Counted c scope owned es ways' where
  frame := h.frame
  tests := h.tests
  card hμ hx := (h.card hμ hx).trans (hw _ hx)

theorem mono (h : Counted c scope owned es ways) (ho : ∀ v, owned v → owned' v) :
    Counted c scope owned' es ways where
  frame hμ hκ v hv := h.frame (hμ.mono ho) hκ v fun hv' => hv (ho v hv')
  tests hμ hx hκ ha := h.tests (hμ.mono ho) hx hκ (ha.mono ho)
  card hμ hx := h.card (hμ.mono ho) hx

/-- Elements have a solution for just the documents for which they have a way. -/
theorem faithful (h : Counted c scope owned es ways) :
    Faithful c scope owned es fun x => ways x ≠ 0 where
  frame := h.frame
  sound {μ κ κ' x} hμ hx hκ ha hf := by
    have hmem : κ ∈ (extendAll c es {μ}).passing c (filtersOf es) :=
      mem_passing.mpr ⟨hκ, (h.tests hμ hx hκ ha).mp hf⟩
    rw [← h.card hμ hx, Ne, Multiset.card_eq_zero]
    exact fun he => Multiset.notMem_zero κ (he ▸ hmem)
  complete {μ x} hμ hx hw := by
    rw [← h.card hμ hx, Ne, Multiset.card_eq_zero] at hw
    obtain ⟨κ, hκ⟩ := Multiset.exists_mem_of_ne_zero hw
    obtain ⟨hκ, hf⟩ := mem_passing.mp hκ
    exact ⟨κ, hκ, fun κ' ha => (h.tests hμ hx hκ ha).mpr hf⟩

open scoped Classical in
/-- Tests have one way for the documents with their meaning. -/
theorem ofTests (h : Faithful c scope owned es meaning)
    (hes : ∀ e ∈ es, e.filter?.isSome = true) :
    Counted c scope owned es fun x => if meaning x then 1 else 0 := by
  have hholds {μ κ : Solution} {x : Term} (hμ : AtDocument c owned μ x) (hx : scope x)
      (ha : Agree c owned μ κ) : (∀ e ∈ filtersOf es, e.Holds c κ) ↔ meaning x := by
    have hmem : μ ∈ extendAll c es {μ} := by
      rw [extendAll_of_tests hes]
      exact Multiset.mem_singleton_self μ
    constructor
    · exact fun hf => h.sound hμ hx hmem ha hf
    · intro hm
      obtain ⟨κ', hκ', hall⟩ := h.complete hμ hx hm
      rw [extendAll_of_tests hes, Multiset.mem_singleton] at hκ'
      subst hκ'
      exact hall κ ha
  refine ⟨h.frame, fun {μ κ κ' x} hμ hx hκ ha => ?_, fun {μ x} hμ hx => ?_⟩
  · rw [extendAll_of_tests hes, Multiset.mem_singleton] at hκ
    subst hκ
    rw [hholds hμ hx ha, hholds hμ hx (Agree.refl c owned κ)]
  · have hself := hholds hμ hx (Agree.refl c owned μ)
    rw [extendAll_of_tests hes, passing, Multiset.filter_singleton]
    simp only [hself]
    split <;> rfl

/-- Elements without tests have a way for each solution. -/
theorem ofSolutions (h : Faithful c scope owned es meaning) (hes : filtersOf es = [])
    (hcard : ∀ {μ x}, AtDocument c owned μ x → (extendAll c es {μ}).card = ways x) :
    Counted c scope owned es ways where
  frame := h.frame
  tests _ _ _ _ := by
    rw [hes]
    exact iff_of_true nofun nofun
  card hμ _ := by rw [hes, passing_nil, hcard hμ]

theorem nil : Counted c scope owned [] fun _ => 1 :=
  ofSolutions Faithful.nil rfl fun _ => Multiset.card_singleton _

/-- Elements that own different variables multiply their ways. -/
theorem append (h : Counted c scope owned es ways) (h' : Counted c scope owned' fs ways')
    (hdisjoint : ∀ v, owned v → ¬owned' v) :
    Counted c scope (fun v => owned v ∨ owned' v) (es ++ fs) fun x => ways x * ways' x := by
  have hnext {μ ν : Solution} {x : Term} (hμ : AtDocument c (fun v => owned v ∨ owned' v) μ x)
      (hν : ν ∈ extendAll c es {μ}) := h.faithful.atDocument hdisjoint hμ hν
  -- what `fs` binds is nothing that `es` looks at
  have hback {ν κ : Solution} {x : Term} (hν : AtDocument c owned' ν x)
      (hκ : κ ∈ extendAll c fs {ν}) : Agree c owned ν κ :=
    h'.faithful.agree (fun v hv ho => hdisjoint v ho hv) hν hκ
  refine ⟨(h.faithful.append h'.faithful hdisjoint).frame, fun {μ κ κ' x} hμ hx hκ ha => ?_,
    fun {μ x} hμ hx => ?_⟩
  · obtain ⟨ν, hν, hκ⟩ := mem_extendAll_append.mp hκ
    have hμ' : AtDocument c owned μ x := hμ.mono fun v => .inl
    have hagree := hback (hnext hμ hν) hκ
    have hagree' : Agree c owned ν κ' := hagree.trans (ha.mono fun v => .inl)
    rw [filtersOf_append, List.forall_mem_append, List.forall_mem_append,
      h.tests hμ' hx hν hagree', h.tests hμ' hx hν hagree,
      h'.tests (hnext hμ hν) hx hκ (ha.mono fun v => .inr)]
  · have hμ' : AtDocument c owned μ x := hμ.mono fun v => .inl
    have hsplit : (extendAll c (es ++ fs) {μ}).passing c (filtersOf (es ++ fs)) =
        ((extendAll c es {μ}).passing c (filtersOf es)).bind fun ν =>
          (extendAll c fs {ν}).passing c (filtersOf fs) := by
      rw [extendAll_append, extendAll_eq_bind fs, filtersOf_append, passing_append,
        passing_bind_of_same fun ν hν κ hκ => h.tests hμ' hx hν (hback (hnext hμ hν) hκ),
        passing_bind]
    rw [hsplit, Multiset.card_bind, ← h.card hμ' hx]
    have hconst : ((extendAll c es {μ}).passing c (filtersOf es)).map
        (Multiset.card ∘ fun ν => (extendAll c fs {ν}).passing c (filtersOf fs)) =
          ((extendAll c es {μ}).passing c (filtersOf es)).map fun _ => ways' x :=
      Multiset.map_congr rfl fun ν hν => h'.card (hnext hμ (mem_passing.mp hν).1) hx
    rw [hconst, Multiset.map_const', Multiset.sum_replicate, Nat.nsmul_eq_mul]

end Counted

/-! ## Unions -/

section Anchored

variable {classUri : Rdf.Iri} (hc : c.given = .empty) (hroot : ¬owned rootVariable)
include hc hroot

/-- An anchored group extends a solution for a document by its ways for this document. -/
theorem Counted.card_extensions_anchored
    (h : Counted c (IsInstanceOf c classUri) owned es ways) (hμ : AtDocument c owned μ x)
    (hx : IsInstanceOf c classUri x) :
    (extensions μ (groupSolutions c (anchored classUri es))).card = ways x := by
  have hvalue (v : Variable) : c.value? μ v = μ v := Context.value?_eq hc μ v
  set f : Solution → Solutions := fun ν => (extendAll c es {ν}).passing c (filtersOf es)
  set start : Solutions := (Element.statement rootNode Rdf.rdfType
    (.term (.iri classUri))).extend c {.empty}
  have hgroup : groupSolutions c (anchored classUri es) = start.bind f := by
    have hfilters : filtersOf (anchored classUri es) = filtersOf es := rfl
    rw [groupSolutions, hfilters, anchored, extendAll, extendAll_eq_bind, passing_bind]
  have hframe {y : Term} {κ : Solution} (hκ : κ ∈ f (Solution.empty.set rootVariable y)) :
      κ rootVariable = some y ∧ ∀ v, ¬owned v → v ≠ rootVariable → κ v = none := by
    have hat := atDocument_anchor hc hroot y
    refine ⟨?_, fun v hv hne => ?_⟩
    · rw [h.frame hat (mem_passing.mp hκ).1 _ hroot, Solution.set_self]
    · rw [h.frame hat (mem_passing.mp hκ).1 v hv, Solution.set_of_ne _ hne, Solution.empty_apply]
  -- the branch of the document itself is compatible in full
  have hself : (extensions μ (f (Solution.empty.set rootVariable x))).card = ways x := by
    have hpair : ∀ κ ∈ f (Solution.empty.set rootVariable x), pair μ κ = {μ.merge κ} := by
      intro κ hκ
      obtain ⟨hκx, hκfree⟩ := hframe hκ
      refine Solutions.pair_of_compatible fun v t u ht hu => ?_
      rw [← hvalue v] at ht
      by_cases hv : owned v
      · rw [hμ.free v hv] at ht
        cases ht
      · by_cases hne : v = rootVariable
        · subst hne
          rw [hκx] at hu
          exact Option.some.inj (ht.symm.trans (hμ.root.trans hu))
        · rw [hκfree v hv hne] at hu
          cases hu
    rw [extensions, Multiset.bind_congr hpair, Multiset.bind_singleton, Multiset.card_map]
    exact h.card (atDocument_anchor hc hroot x) hx
  have hother {y : Term} (hne : y ≠ x) :
      extensions μ (f (Solution.empty.set rootVariable y)) = 0 := by
    have hpair : ∀ κ ∈ f (Solution.empty.set rootVariable y), pair μ κ = 0 := by
      intro κ hκ
      refine Solutions.pair_of_not_compatible fun hcompatible => hne ?_
      refine (hcompatible rootVariable x y ?_ (hframe hκ).1).symm
      rw [← hvalue rootVariable, hμ.root]
    rw [extensions, Multiset.bind_congr hpair, Multiset.bind_zero]
  have hnodup : start.Nodup := by
    have hone : start = extendAll c [.statement rootNode Rdf.rdfType (.term (.iri classUri))]
        {.empty} := rfl
    rw [hone, extendAll_statement]
    exact Sparql.nodup_extensions_solutions
  obtain ⟨rest, hrest⟩ := Multiset.exists_cons_of_mem ((mem_extend_anchor hc).mpr ⟨x, hx, rfl⟩)
  have hrest : start = Solution.empty.set rootVariable x ::ₘ rest := hrest
  have hzero : rest.bind (fun ν => extensions μ (f ν)) = 0 := by
    have hnone : ∀ ν ∈ rest, extensions μ (f ν) = 0 := by
      intro ν hν
      have hmem : ν ∈ start := hrest ▸ Multiset.mem_cons_of_mem hν
      obtain ⟨y, -, rfl⟩ := (mem_extend_anchor hc).mp hmem
      refine hother fun he => ?_
      rw [hrest, ← he] at hnodup
      exact (Multiset.nodup_cons.mp hnodup).1 hν
    rw [Multiset.bind_congr hnone, Multiset.bind_zero]
  have hswap : extensions μ (start.bind f) = start.bind fun ν => extensions μ (f ν) :=
    Multiset.bind_assoc
  rw [hgroup, hswap, hrest, Multiset.cons_bind, hzero, add_zero, hself]

/-- The anchored branches of a union add their ways. They may own the same variables. -/
theorem Counted.union {branches : List (List Element)} {weights : List (Term → Nat)}
    (h : List.Forall₂ (Counted c (IsInstanceOf c classUri) owned) branches weights) :
    Counted c (IsInstanceOf c classUri) owned [.union (branches.map (anchored classUri))]
      fun x => (weights.map (· x)).sum := by
  have hfaithful : List.Forall₂ (Faithful c (IsInstanceOf c classUri) owned) branches
      (weights.map fun ways x => ways x ≠ 0) := by
    rw [List.forall₂_map_right_iff]
    exact h.imp fun _ _ hb => hb.faithful
  refine ⟨(Faithful.union hc hroot hfaithful).frame, fun _ _ _ _ => iff_of_true nofun nofun,
    fun {μ x} hμ hx => ?_⟩
  have hfilters : filtersOf [.union (branches.map (anchored classUri))] = [] := rfl
  rw [hfilters, passing_nil, extendAll, extendAll, Element.extend, Solutions.singleton_join]
  clear hfaithful hfilters
  induction h with
  | nil => rfl
  | @cons es ways branches weights hes _ ih =>
    have hcard := hes.card_extensions_anchored hc hroot hμ hx
    rw [List.map_cons, List.map_cons, List.sum_cons, branchSolutions, Solutions.extensions_add,
      Multiset.card_add]
    exact congrArg₂ _ hcard ih

end Anchored

end DocGraph
