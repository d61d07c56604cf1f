import DocGraph.Proofs.Select.Group
import DocGraph.Proofs.Sparql.Matching

/-!
# Extending one solution at a time

The elements of a group extend every solution on its own: the extensions of a
bag are those of its solutions (`extendAll_eq_bind`). So what the elements of a
group match can be followed from one solution on (`mem_extendAll_append`).
-/

namespace DocGraph

open Rdf (Iri)
open Sparql (Context Expr Node Solution Solutions Triple)
open Sparql.Solutions (extensions join leftJoin)

variable {c : Context} {es fs : List Element} {ss : Solutions} {μ κ : Solution}

theorem Sparql.Solutions.join_eq_bind (A B : Solutions) : join A B = A.bind fun μ => join {μ} B :=
  Multiset.bind_congr fun μ _ => (Solutions.singleton_join μ B).symm

theorem Sparql.Solutions.leftJoin_eq_bind (A B : Solutions) :
    leftJoin A B = A.bind fun μ => leftJoin {μ} B := by
  rw [leftJoin]
  exact Multiset.bind_congr fun μ _ => by rw [leftJoin, Multiset.singleton_bind]

theorem Element.extend_eq_bind (e : Element) (ss : Solutions) :
    e.extend c ss = ss.bind fun μ => e.extend c {μ} := by
  cases e with
  | triple t => exact Solutions.join_eq_bind ss _
  | inverse s p o => exact Solutions.join_eq_bind ss _
  | filter e => exact ((Multiset.bind_singleton ss id).trans (Multiset.map_id ss)).symm
  | optional es =>
    simp only [extend]
    exact Solutions.leftJoin_eq_bind ss _
  | union branches =>
    simp only [extend]
    exact Solutions.join_eq_bind ss _
  | bind v e => exact (Multiset.bind_singleton ss _).symm

theorem extendAll_append (es fs : List Element) (ss : Solutions) :
    extendAll c (es ++ fs) ss = extendAll c fs (extendAll c es ss) := by
  induction es generalizing ss with
  | nil => rfl
  | cons e es ih => rw [List.cons_append, extendAll, extendAll, ih]

theorem extendAll_eq_bind (es : List Element) (ss : Solutions) :
    extendAll c es ss = ss.bind fun μ => extendAll c es {μ} := by
  induction es generalizing ss with
  | nil => exact ((Multiset.bind_singleton ss id).trans (Multiset.map_id ss)).symm
  | cons e es ih =>
    simp only [extendAll]
    rw [e.extend_eq_bind ss, ih, Multiset.bind_assoc]
    exact Multiset.bind_congr fun μ _ => (ih _).symm

/-- The extensions of a bag are those of its solutions. -/
theorem mem_extendAll : κ ∈ extendAll c es ss ↔ ∃ μ ∈ ss, κ ∈ extendAll c es {μ} := by
  rw [extendAll_eq_bind, Multiset.mem_bind]

theorem mem_extendAll_append :
    κ ∈ extendAll c (es ++ fs) ss ↔ ∃ ν ∈ extendAll c es ss, κ ∈ extendAll c fs {ν} := by
  rw [extendAll_append, mem_extendAll]

theorem mem_extendAll_cons {e : Element} :
    κ ∈ extendAll c (e :: es) ss ↔ ∃ ν ∈ e.extend c ss, κ ∈ extendAll c es {ν} := by
  rw [extendAll, mem_extendAll]

theorem mem_extendAll_nil : κ ∈ extendAll c [] {μ} ↔ κ = μ :=
  Multiset.mem_singleton

theorem mem_extend_triple {t : Triple} :
    κ ∈ (Element.triple t).extend c {μ} ↔ κ ∈ extensions μ (t.solutions c) := by
  rw [Element.extend, Solutions.singleton_join]

theorem mem_extend_inverse {s o : Node} {p : Iri} :
    κ ∈ (Element.inverse s p o).extend c {μ} ↔
      κ ∈ extensions μ (Triple.solutions c ⟨o, .iri p, s⟩) := by
  rw [Element.extend, Solutions.singleton_join]

theorem mem_extendAll_statement {a b : Node} {p : Iri} :
    κ ∈ extendAll c [.statement a p b] {μ} ↔
      κ ∈ extensions μ (Triple.solutions c ⟨a, .iri p, b⟩) := by
  rw [mem_extendAll_cons]
  simp only [mem_extendAll_nil, exists_eq_right', Element.statement, mem_extend_triple]

theorem mem_extendAll_inverse {a b : Node} {p : Iri} :
    κ ∈ extendAll c [.inverse a p b] {μ} ↔
      κ ∈ extensions μ (Triple.solutions c ⟨b, .iri p, a⟩) := by
  rw [mem_extendAll_cons]
  simp only [mem_extendAll_nil, exists_eq_right', mem_extend_inverse]

/-- The elements of a list extend the solutions one after the other. -/
theorem extendAll_flatMap {α : Type} (f : α → List Element) (as : List α) (ss : Solutions) :
    extendAll c (as.flatMap f) ss = as.foldl (fun ss a => extendAll c (f a) ss) ss := by
  induction as generalizing ss with
  | nil => rfl
  | cons a as ih => rw [List.flatMap_cons, extendAll_append, ih, List.foldl_cons]

theorem filtersOf_append (es fs : List Element) :
    filtersOf (es ++ fs) = filtersOf es ++ filtersOf fs :=
  List.filterMap_append

theorem filtersOf_flatMap {α : Type} {f : α → List Element} {as : List α}
    (h : ∀ a ∈ as, filtersOf (f a) = []) : filtersOf (as.flatMap f) = [] := by
  rw [filtersOf, List.filterMap_flatMap]
  exact List.flatMap_eq_nil_iff.mpr h

theorem mem_groupSolutions :
    κ ∈ groupSolutions c es ↔
      κ ∈ extendAll c es {.empty} ∧ ∀ e ∈ filtersOf es, e.Holds c κ :=
  mem_passing

theorem mem_branchSolutions {branches : List (List Element)} :
    κ ∈ branchSolutions c branches ↔ ∃ es ∈ branches, κ ∈ groupSolutions c es := by
  induction branches with
  | nil => simp [branchSolutions]
  | cons es rest ih =>
    rw [branchSolutions, Multiset.mem_add, ih, List.exists_mem_cons_iff, groupSolutions]

end DocGraph
