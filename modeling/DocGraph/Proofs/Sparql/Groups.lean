import DocGraph.Proofs.Sparql.Bindings

/-!
# Joining groups on their keys

The rows of two group patterns with the same keys join key by key, if all keys are bound
in all of them: rows of different keys differ in one that both bind (`join_map`). So
columns that are reduced on their own each add one binding to the row of a key
(`foldl_join_keyed`).
-/

namespace DocGraph.Sparql

open Rdf (Term Variable)
open Solutions (extensions join pair)

namespace Solution

/-- The solution with a variable bound, if there is a value for it. -/
def assign (μ : Solution) (v : Variable) (value : Option Term) : Solution :=
  value.elim μ (μ.set v)

/-- The solution with those of several variables bound that there are values for. -/
def assignAll (μ : Solution) (bindings : List (Variable × Option Term)) : Solution :=
  bindings.foldl (fun μ b => μ.assign b.1 b.2) μ

variable {μ ν key other : Solution} {v w : Variable} {value : Option Term} {keys : List Variable}
  {bindings : List (Variable × Option Term)}

theorem assign_of_ne (h : w ≠ v) : μ.assign v value w = μ w := by
  cases value with
  | none => rfl
  | some t => exact set_of_ne μ h t

theorem assign_self (h : μ v = none) : μ.assign v value v = value := by
  cases value with
  | none => exact h
  | some t => exact set_self μ v t

theorem assignAll_of_notMem (h : v ∉ bindings.map Prod.fst) : μ.assignAll bindings v = μ v := by
  induction bindings generalizing μ with
  | nil => rfl
  | cons b rest ih =>
    rw [List.map_cons, List.mem_cons, not_or] at h
    rw [assignAll, List.foldl_cons]
    exact (ih h.2).trans (assign_of_ne h.1)

theorem assignAll_of_mem (hdistinct : (bindings.map Prod.fst).Nodup) (h : (v, value) ∈ bindings)
    (hμ : μ v = none) : μ.assignAll bindings v = value := by
  induction bindings generalizing μ with
  | nil => cases h
  | cons b rest ih =>
    rw [List.map_cons, List.nodup_cons] at hdistinct
    rw [assignAll, List.foldl_cons]
    rcases List.mem_cons.mp h with rfl | h
    · exact (assignAll_of_notMem hdistinct.1).trans (assign_self hμ)
    · have hmem : v ∈ rest.map Prod.fst := List.mem_map_of_mem h
      refine ih hdistinct.2 h ?_
      rw [assign_of_ne, hμ]
      rintro rfl
      exact hdistinct.1 hmem

/-- Whether a solution binds the variables of a list, and no others. -/
structure IsKey (keys : List Variable) (key : Solution) : Prop where
  bound : ∀ v ∈ keys, ∃ t, key v = some t
  unbound : ∀ v ∉ keys, key v = none

/-- The row of a group: it has the key of the group. -/
def HasKey (keys : List Variable) (key row : Solution) : Prop :=
  ∀ v ∈ keys, row v = key v

theorem HasKey.restrict_eq (h : HasKey keys key μ) (hkey : IsKey keys key) :
    μ.restrict keys = key := by
  funext v
  by_cases hv : v ∈ keys
  · rw [restrict_of_mem hv, h v hv]
  · rw [restrict_of_notMem hv, hkey.unbound v hv]

theorem HasKey.assign (h : HasKey keys key μ) (hv : v ∉ keys) :
    HasKey keys key (μ.assign v value) := fun w hw => by
  have hne : w ≠ v := fun he => hv (he ▸ hw)
  rw [assign_of_ne hne, h w hw]

/-- Rows of different keys are not compatible. -/
theorem not_compatible_of_ne (hμ : HasKey keys key μ) (hν : HasKey keys other ν)
    (hkey : IsKey keys key) (hother : IsKey keys other) (hne : key ≠ other) :
    ¬μ.Compatible ν := by
  intro hcompatible
  refine hne (funext fun v => ?_)
  by_cases hv : v ∈ keys
  · obtain ⟨t, ht⟩ := hkey.bound v hv
    obtain ⟨u, hu⟩ := hother.bound v hv
    rw [ht, hu, hcompatible v t u ((hμ v hv).trans ht) ((hν v hv).trans hu)]
  · rw [hkey.unbound v hv, hother.unbound v hv]

/-- The row of a group with one more variable has nothing but this to add to another row of
the group. -/
theorem compatible_assign (hμ : HasKey keys key μ) (hkey : IsKey keys key) (hv : μ v = none) :
    μ.Compatible (key.assign v value) := by
  intro w t u ht hu
  have hne : w ≠ v := fun he => by
    rw [he, hv] at ht
    cases ht
  rw [assign_of_ne hne] at hu
  by_cases hw : w ∈ keys
  · rw [hμ w hw, hu] at ht
    exact (Option.some.inj ht).symm
  · rw [hkey.unbound w hw] at hu
    cases hu

theorem merge_assign (hμ : HasKey keys key μ) (hkey : IsKey keys key) (hv : μ v = none) :
    μ.merge (key.assign v value) = μ.assign v value := by
  have hother {w : Variable} (hw : w ≠ v) : μ.merge (key.assign v value) w = μ w := by
    rw [merge, assign_of_ne hw]
    by_cases hmem : w ∈ keys
    · rw [hμ w hmem, Option.or_self]
    · rw [hkey.unbound w hmem, Option.or_none]
  funext w
  by_cases hw : w = v
  · subst hw
    have hkeyw : key w = none := by
      by_cases hmem : w ∈ keys
      · rw [← hμ w hmem, hv]
      · exact hkey.unbound w hmem
    rw [merge, hv, Option.none_or, assign_self hkeyw, assign_self hv]
  · rw [hother hw, assign_of_ne hw]

end Solution

namespace Solutions

open Solution (HasKey IsKey)

variable {K : Multiset Solution} {keys : List Variable}

/-- Rows of two lists of groups join key by key. -/
theorem join_map {f g : Solution → Solution} (hK : K.Nodup)
    (hsame : ∀ k ∈ K, (f k).Compatible (g k))
    (hcross : ∀ k ∈ K, ∀ k' ∈ K, k ≠ k' → ¬(f k).Compatible (g k')) :
    join (K.map f) (K.map g) = K.map fun k => (f k).merge (g k) := by
  have hone : ∀ k ∈ K, extensions (f k) (K.map g) = {(f k).merge (g k)} := by
    intro k hk
    obtain ⟨rest, rfl⟩ := Multiset.exists_cons_of_mem hk
    have hnot : k ∉ rest := (Multiset.nodup_cons.mp hK).1
    have hrest : rest.bind (fun k' => pair (f k) (g k')) = 0 := by
      rw [Multiset.bind_congr fun k' hk' => pair_of_not_compatible
        (hcross k hk k' (Multiset.mem_cons_of_mem hk') fun he => hnot (he ▸ hk')),
        Multiset.bind_zero]
    rw [extensions, Multiset.bind_map, Multiset.cons_bind, hrest, add_zero,
      pair_of_compatible (hsame k hk)]
  rw [join, Multiset.bind_map, Multiset.bind_congr hone, Multiset.bind_singleton]

/-- Columns that are reduced on their own each add one binding to the row of a key. -/
theorem foldl_join_keyed {α : Type} {result : α → Variable} {value : α → Solution → Option Term}
    {f : Solution → Solution} {as : List α} (hK : K.Nodup) (hkeys : ∀ k ∈ K, IsKey keys k)
    (hdistinct : (as.map result).Nodup) (houtside : ∀ a ∈ as, result a ∉ keys)
    (hf : ∀ k ∈ K, HasKey keys k (f k)) (hfree : ∀ k ∈ K, ∀ a ∈ as, f k (result a) = none) :
    as.foldl (fun ss a => join ss (K.map fun k => k.assign (result a) (value a k))) (K.map f) =
      K.map fun k => (f k).assignAll (as.map fun a => (result a, value a k)) := by
  induction as generalizing f with
  | nil => rfl
  | cons a rest ih =>
    rw [List.map_cons, List.nodup_cons] at hdistinct
    rw [List.forall_mem_cons] at houtside
    have hself : ∀ k : Solution, HasKey keys k k := fun k v _ => rfl
    have hstep : join (K.map f) (K.map fun k => k.assign (result a) (value a k)) =
        K.map fun k => (f k).assign (result a) (value a k) := by
      rw [join_map hK]
      · exact Multiset.map_congr rfl fun k hk =>
          Solution.merge_assign (hf k hk) (hkeys k hk) (hfree k hk a List.mem_cons_self)
      · exact fun k hk =>
          Solution.compatible_assign (hf k hk) (hkeys k hk) (hfree k hk a List.mem_cons_self)
      · exact fun k hk k' hk' hne => Solution.not_compatible_of_ne (hf k hk)
          ((hself k').assign houtside.1) (hkeys k hk) (hkeys k' hk') hne
    rw [List.foldl_cons, hstep]
    refine ih hdistinct.2 houtside.2 (fun k hk => (hf k hk).assign houtside.1) fun k hk a' ha' => ?_
    rw [Solution.assign_of_ne, hfree k hk a' (List.mem_cons_of_mem a ha')]
    exact fun he => hdistinct.1 (he ▸ List.mem_map_of_mem ha')

end Solutions

/-! ## Values of groups -/

namespace Aggregate

variable {c : Context} {key : Solution} {ss : Solutions} {v : Variable} {a : Aggregate}
  {aggregates : List (Variable × Aggregate)}

theorem bindAll_cons (v : Variable) (a : Aggregate) (rest : List (Variable × Aggregate)) :
    bindAll ((v, a) :: rest) c key ss = (bindAll rest c key ss).assign v (a.eval c v key ss) := by
  rw [bindAll]
  cases a.eval c v key ss <;> rfl

theorem bindAll_of_notMem (h : v ∉ aggregates.map Prod.fst) :
    bindAll aggregates c key ss v = key v := by
  induction aggregates with
  | nil => rw [bindAll]
  | cons b rest ih =>
    rw [List.map_cons, List.mem_cons, not_or] at h
    rw [bindAll_cons, Solution.assign_of_ne h.1, ih h.2]

/-- A group binds the values of its aggregates. -/
theorem bindAll_of_mem (hdistinct : (aggregates.map Prod.fst).Nodup) (h : (v, a) ∈ aggregates)
    (hkey : key v = none) : bindAll aggregates c key ss v = a.eval c v key ss := by
  induction aggregates with
  | nil => cases h
  | cons b rest ih =>
    rw [List.map_cons, List.nodup_cons] at hdistinct
    rcases List.mem_cons.mp h with rfl | h
    · rw [bindAll_cons, Solution.assign_self]
      rw [bindAll_of_notMem hdistinct.1, hkey]
    · have hmem : v ∈ rest.map Prod.fst := List.mem_map_of_mem h
      rw [bindAll_cons, Solution.assign_of_ne, ih hdistinct.2 h]
      rintro rfl
      exact hdistinct.1 hmem

/-- A reduction depends on the values of its expression only. -/
theorem eval_reduce_congr {r : Reduction} {e : Expr} {distinct : Bool} {c' : Context}
    {ss' : Solutions} (hstore : c.store = c'.store)
    (h : ss.filterMap (e.eval c) = ss'.filterMap (e.eval c')) :
    (Aggregate.reduce r e distinct).eval c v key ss =
      (Aggregate.reduce r e distinct).eval c' v key ss' := by
  rw [eval, eval, h, hstore]

end Aggregate

end DocGraph.Sparql
