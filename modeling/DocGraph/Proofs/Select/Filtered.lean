import DocGraph.Proofs.Compile.Counted
import DocGraph.Proofs.Select.Members
import Mathlib.Algebra.BigOperators.Ring.Multiset
import Mathlib.Algebra.Ring.Nat

/-!
# Rows of filtered groups

Counted elements between the required elements of a group and the rest of it repeat every
row as often as they have ways for its document, and change nothing else in it
(`count_filtered`): what they bind is read by no other element (`extendAll_merge`).
-/

namespace DocGraph

open Rdf (Term Variable)
open Sparql (Context Expr Solution Solutions)
open Sparql.Solutions (extensions join leftJoin)

variable {c : Context} {es : List Element} {key μ κ : Solution} {v : Variable} {t : Term}

/-- The variable that an element assigns a value to. -/
def Element.assigned? : Element → Option Variable
  | .bind v _ => some v
  | _ => none

/-- The variables that elements assign values to. -/
def assigned (es : List Element) : List Variable :=
  es.filterMap Element.assigned?

/-- A join does not change a binding. -/
theorem apply_of_mem_join_of_some {B : Solutions} (hμ : μ v = some t) (h : κ ∈ join {μ} B) :
    κ v = some t := by
  obtain ⟨μ', hμ', ν, -, -, rfl⟩ := Solutions.mem_join.mp h
  rw [Multiset.mem_singleton.mp hμ', Solution.merge, hμ, Option.some_or]

/-- Elements change no binding but those that they assign. -/
theorem apply_of_mem_extendAll_of_some (hμ : μ v = some t) (hv : v ∉ assigned es)
    (h : κ ∈ extendAll c es {μ}) : κ v = some t := by
  induction es generalizing μ with
  | nil => rwa [mem_extendAll_nil.mp h]
  | cons e rest ih =>
    obtain ⟨ν, hν, h⟩ := mem_extendAll_cons.mp h
    have hrest : v ∉ assigned rest := fun hmem => hv (by
      rw [assigned, List.filterMap_cons]
      split
      · exact hmem
      · exact List.mem_cons_of_mem _ hmem)
    refine ih ?_ hrest h
    cases e with
    | triple | inverse | union =>
      rw [Element.extend] at hν
      exact apply_of_mem_join_of_some hμ hν
    | filter e =>
      rw [Element.extend] at hν
      rwa [Multiset.mem_singleton.mp hν]
    | optional es =>
      rw [Element.extend] at hν
      rcases Solutions.mem_leftJoin.mp hν with hν | ⟨hν, -⟩
      · exact apply_of_mem_join_of_some hμ hν
      · rwa [Multiset.mem_singleton.mp hν]
    | bind w e =>
      rw [Element.extend, Multiset.map_singleton] at hν
      have hne : v ≠ w := by
        rintro rfl
        exact hv List.mem_cons_self
      rw [Multiset.mem_singleton.mp hν, Solution.extended]
      cases e.eval c μ with
      | none => exact hμ
      | some u => exact (Solution.set_of_ne μ hne u).trans hμ

/-! ## Bindings that are not read -/

/-- Whether no element binds or reads what a solution binds. -/
structure Ignores (c : Context) (key : Solution) (es : List Element) : Prop where
  unbound : ∀ v ∈ elementVariables es, key v = none
  unread : ∀ v e, .bind v e ∈ es → ∀ μ : Solution, e.eval c (key.merge μ) = e.eval c μ

theorem Sparql.Solutions.join_merge {A B : Solutions}
    (h : ∀ ν ∈ B, ∀ v, key v ≠ none → ν v = none) :
    join (A.map key.merge) B = (join A B).map key.merge := by
  rw [join, join, Multiset.bind_map, Multiset.map_bind]
  exact Multiset.bind_congr fun μ _ => Solutions.extensions_merge h

theorem Element.extend_merge {e : Element} (h : Ignores c key [e]) (ss : Solutions) :
    e.extend c (ss.map key.merge) = (e.extend c ss).map key.merge := by
  have hvariables {v : Variable} (hv : v ∈ e.variables) : key v = none :=
    h.unbound v (List.mem_append_left _ hv)
  have hnone {v : Variable} (hv : key v ≠ none) : v ∉ e.variables := fun hmem =>
    hv (hvariables hmem)
  cases e with
  | triple t =>
    simp only [extend]
    refine Solutions.join_merge fun ν hν v hv => ?_
    rw [← Solutions.empty_extensions (t.solutions c)] at hν
    exact Sparql.Triple.apply_of_mem_extensions hν (hnone hv)
  | inverse s p o =>
    simp only [extend]
    refine Solutions.join_merge fun ν hν v hv => ?_
    rw [← Solutions.empty_extensions (Sparql.Triple.solutions c ⟨o, .iri p, s⟩)] at hν
    exact Sparql.Triple.apply_of_mem_extensions hν (hnone hv)
  | filter e => rw [extend, extend]
  | optional es =>
    simp only [extend]
    exact Solutions.leftJoin_merge fun ν hν v hv => apply_of_mem_groupSolutions (hnone hv) hν
  | union branches =>
    simp only [extend]
    exact Solutions.join_merge fun ν hν v hv =>
      apply_of_mem_branchSolutions branches ν (hnone hv) hν
  | bind w e =>
    simp only [extend, Multiset.map_map]
    refine Multiset.map_congr rfl fun μ _ => ?_
    simp only [Function.comp_apply, Solution.extended,
      h.unread w e (List.mem_singleton_self _) μ]
    cases e.eval c μ with
    | none => rfl
    | some u => exact (Solution.merge_set_of_none (hvariables (List.mem_singleton_self w))).symm

/-- Bindings that elements do not read can be added before or after them. -/
theorem extendAll_merge (h : Ignores c key es) (ss : Solutions) :
    extendAll c es (ss.map key.merge) = (extendAll c es ss).map key.merge := by
  induction es generalizing ss with
  | nil => rfl
  | cons e rest ih =>
    have hfirst : Ignores c key [e] :=
      ⟨fun v hv => h.unbound v (by
        rw [elementVariables, elementVariables, List.append_nil] at hv
        exact List.mem_append_left _ hv),
        fun v e' he => h.unread v e' (List.mem_singleton.mp he ▸ List.mem_cons_self)⟩
    have hrest : Ignores c key rest :=
      ⟨fun v hv => h.unbound v (List.mem_append_right _ hv),
        fun v e' he => h.unread v e' (List.mem_cons_of_mem _ he)⟩
    rw [extendAll, extendAll, Element.extend_merge hfirst, ih hrest]

/-! ## Rows -/

/-- What lets counted elements stand between required elements and the rest of a group: the
required ones bind a document of their scope, and the rest neither binds nor reads what
they own. -/
structure Filterable (c : Context) (scope : Term → Prop) (owned : Variable → Prop)
    (required rest : List Element) : Prop where
  given_eq : c.given = .empty
  document : ∀ μ ∈ extendAll c required {.empty}, ∃ x, AtDocument c owned μ x ∧ scope x
  tests : filtersOf required = [] ∧ filtersOf rest = []
  ignores : ∀ key : Solution, (∀ v, key v ≠ none → owned v) → Ignores c key rest
  root : rootVariable ∉ assigned rest

variable {scope : Term → Prop} {owned : Variable → Prop} {ways : Term → Nat}
  {required filters rest : List Element} {vs : List Variable}

/-- The solution of a group with the bindings of some variables only. -/
noncomputable def rowsOf (c : Context) (es : List Element) (vs : List Variable)
    (ss : Solutions) : Solutions :=
  (extendAll c es ss).map (·.restrict vs)

/-- What counted elements bind is lost on the rows of the rest. -/
theorem rowsOf_counted (h : Filterable c scope owned required rest)
    (hvs : ∀ v ∈ vs, ¬owned v) {x : Term} (hμ : AtDocument c owned μ x)
    (hκ : ∀ v, ¬owned v → κ v = μ v) : rowsOf c rest vs {κ} = rowsOf c rest vs {μ} := by
  classical
  set key : Solution := fun v => if owned v then κ v else none
  have howned : ∀ v, key v ≠ none → owned v := fun v hv => by_contra fun hno => hv (if_neg hno)
  have hmerge : κ = key.merge μ := by
    funext v
    rw [Solution.merge]
    by_cases hv : owned v
    · have hμv : μ v = none := (Context.value?_eq h.given_eq μ v).symm.trans (hμ.free v hv)
      rw [show key v = κ v from if_pos hv, hμv, Option.or_none]
    · rw [show key v = none from if_neg hv, Option.none_or, hκ v hv]
  have hsingle : ({κ} : Solutions) = ({μ} : Solutions).map key.merge := by
    rw [Multiset.map_singleton, hmerge]
  rw [rowsOf, rowsOf, hsingle, extendAll_merge (h.ignores key howned), Multiset.map_map]
  refine Multiset.map_congr rfl fun ν _ => funext fun v => ?_
  rw [Function.comp_apply]
  by_cases hv : v ∈ vs
  · rw [Solution.restrict_of_mem hv, Solution.restrict_of_mem hv, Solution.merge,
      show key v = none from if_neg (hvs v hv), Option.none_or]
  · rw [Solution.restrict_of_notMem hv, Solution.restrict_of_notMem hv]

/-- The rest of a group keeps the document, and the variables that it does not own. -/
theorem Filterable.agree (h : Filterable c scope owned required rest) {x : Term}
    (hμ : μ rootVariable = some x) (hκ : κ ∈ extendAll c rest {μ}) : Agree c owned μ κ := by
  have hroot : κ rootVariable = some x := apply_of_mem_extendAll_of_some hμ h.root hκ
  refine ⟨Context.value?_congr (hroot.trans hμ.symm), fun v hv => Context.value?_congr ?_⟩
  refine apply_of_mem_extendAll rest μ κ (fun hmem => ?_) hκ
  have hkey : ∀ w, Solution.empty.set v x w ≠ none → owned w := fun w hw => by
    by_cases hne : w = v
    · rwa [hne]
    · exact absurd (Solution.set_of_ne _ hne x) hw
  have hnone := (h.ignores _ hkey).unbound v hmem
  rw [Solution.set_self] at hnone
  cases hnone

theorem groupSolutions_of_tests (h : filtersOf es = []) :
    groupSolutions c es = extendAll c es {.empty} := by
  rw [groupSolutions, h, passing_nil]

open scoped Classical in
/-- Counted elements repeat every row as often as they have ways for its document. -/
theorem count_filtered (h : Filterable c scope owned required rest)
    (hcounted : Counted c scope owned filters ways) (hvs : ∀ v ∈ vs, ¬owned v)
    (hroot : rootVariable ∈ vs) (row : Solution) :
    ((groupSolutions c (required ++ filters ++ rest)).map (·.restrict vs)).count row =
      (row rootVariable).elim 0 ways *
        ((groupSolutions c (required ++ rest)).map (·.restrict vs)).count row := by
  have hall : (groupSolutions c (required ++ rest)).map (·.restrict vs) =
      (extendAll c required {.empty}).bind fun μ => rowsOf c rest vs {μ} := by
    rw [groupSolutions_of_tests (by rw [filtersOf_append, h.tests.1, h.tests.2]; rfl),
      extendAll_append, extendAll_eq_bind, Multiset.map_bind]
    rfl
  have hfiltered : (groupSolutions c (required ++ filters ++ rest)).map (·.restrict vs) =
      (extendAll c required {.empty}).bind fun μ =>
        ((extendAll c filters {μ}).passing c (filtersOf filters)).bind fun _ =>
          rowsOf c rest vs {μ} := by
    have hfilters : filtersOf (required ++ filters ++ rest) = filtersOf filters := by
      rw [filtersOf_append, filtersOf_append, h.tests.1, h.tests.2, List.nil_append,
        List.append_nil]
    rw [groupSolutions, hfilters, List.append_assoc, extendAll_append, extendAll_eq_bind,
      passing_bind, Multiset.map_bind]
    refine Multiset.bind_congr fun μ hμ => ?_
    obtain ⟨x, hat, hx⟩ := h.document μ hμ
    have hrootκ {κ : Solution} (hκ : κ ∈ extendAll c filters {μ}) : κ rootVariable = some x := by
      rw [hcounted.frame hat hκ _ hat.not_owned_root, ← hat.root, Context.value?_eq h.given_eq]
    rw [extendAll_append, extendAll_eq_bind rest,
      passing_bind_of_same fun κ hκ κ' hκ' => hcounted.tests hat hx hκ (h.agree (hrootκ hκ) hκ'),
      Multiset.map_bind]
    exact Multiset.bind_congr fun κ hκ =>
      rowsOf_counted h hvs hat (hcounted.frame hat (mem_passing.mp hκ).1)
  rw [hall, hfiltered, Multiset.count_bind, Multiset.count_bind, ← Multiset.sum_map_mul_left]
  refine congrArg _ (Multiset.map_congr rfl fun μ hμ => ?_)
  obtain ⟨x, hat, hx⟩ := h.document μ hμ
  have hways : (((extendAll c filters {μ}).passing c (filtersOf filters)).bind fun _ =>
      rowsOf c rest vs {μ}).count row = ways x * (rowsOf c rest vs {μ}).count row := by
    rw [Multiset.count_bind, Multiset.map_const', Multiset.sum_replicate, Nat.nsmul_eq_mul,
      hcounted.card hat hx]
  rw [hways]
  by_cases hrow : row ∈ rowsOf c rest vs {μ}
  · have hdocument : row rootVariable = some x := by
      obtain ⟨κ, hκ, rfl⟩ := Multiset.mem_map.mp hrow
      have hμx : μ rootVariable = some x := (Context.value?_eq h.given_eq _ _).symm.trans hat.root
      rw [Solution.restrict_of_mem hroot]
      exact apply_of_mem_extendAll_of_some hμx h.root hκ
    rw [hdocument, Option.elim_some]
  · rw [Multiset.count_eq_zero_of_notMem hrow, Nat.mul_zero, Nat.mul_zero]

end DocGraph
