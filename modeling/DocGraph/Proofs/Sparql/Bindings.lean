import DocGraph.Proofs.Sparql.Matching
import Mathlib.Data.List.Nodup
import Mathlib.Data.Multiset.Dedup

/-!
# Binding several variables

A sequence of steps that each bind variables which are new to the one solution there is
binds all of them (`foldl_eq_setAll`). A group pattern whose solutions agree on the keys
has one group (`eval_group_of_restrict`).
-/

namespace DocGraph.Sparql

open Rdf (Term Variable)
open Solutions (extensions join leftJoin)

namespace Solution

/-- The solution with several variables bound. -/
def setAll (μ : Solution) (bindings : List (Variable × Term)) : Solution :=
  bindings.foldl (fun μ b => μ.set b.1 b.2) μ

variable {μ ν κ : Solution} {v : Variable} {t : Term} {bindings : List (Variable × Term)}

theorem setAll_append (μ : Solution) (bindings others : List (Variable × Term)) :
    μ.setAll (bindings ++ others) = (μ.setAll bindings).setAll others :=
  List.foldl_append

theorem setAll_of_notMem (h : v ∉ bindings.map Prod.fst) : μ.setAll bindings v = μ v := by
  induction bindings generalizing μ with
  | nil => rfl
  | cons b rest ih =>
    rw [List.map_cons, List.mem_cons, not_or] at h
    rw [setAll, List.foldl_cons]
    exact (ih h.2).trans (set_of_ne μ h.1 b.2)

theorem setAll_of_mem (hdistinct : (bindings.map Prod.fst).Nodup) (h : (v, t) ∈ bindings) :
    μ.setAll bindings v = some t := by
  induction bindings generalizing μ with
  | nil => cases h
  | cons b rest ih =>
    rw [List.map_cons, List.nodup_cons] at hdistinct
    rcases List.mem_cons.mp h with rfl | h
    · exact (setAll_of_notMem hdistinct.1).trans (set_self μ v t)
    · exact ih hdistinct.2 h

theorem restrict_of_mem {vs : List Variable} (h : v ∈ vs) : μ.restrict vs v = μ v :=
  if_pos h

theorem restrict_of_notMem {vs : List Variable} (h : v ∉ vs) : μ.restrict vs v = none :=
  if_neg h

/-- Whether a solution has all bindings of another one. -/
def Extends (ν κ : Solution) : Prop :=
  ∀ v t, κ v = some t → ν v = some t

theorem Extends.compatible (h : ν.Extends κ) : ν.Compatible κ := by
  intro v t u ht hu
  rw [h v u hu, Option.some.injEq] at ht
  exact ht.symm

theorem Extends.merge_eq (h : ν.Extends κ) : ν.merge κ = ν := by
  funext v
  cases hκ : κ v with
  | none => rw [merge, hκ, Option.or_none]
  | some t => rw [merge, hκ, h v t hκ, Option.some_or]

end Solution

namespace Solutions

/-- Joining a solution that has one more binding adds this binding. -/
theorem join_set {ν κ : Solution} {v : Variable} {t : Term} (h : ν.Extends κ) (hv : ν v = none) :
    join {ν} {κ.set v t} = {ν.set v t} := by
  have hκ : κ v = none := by
    cases hκ : κ v with
    | none => rfl
    | some u => rw [h v u hκ] at hv; cases hv
  have hcompatible : ν.Compatible (κ.set v t) :=
    (Solution.compatible_set hκ).mpr ⟨h.compatible, fun u hu => by rw [hv] at hu; cases hu⟩
  rw [singleton_join, extensions, Multiset.singleton_bind, pair_of_compatible hcompatible,
    Solution.merge_set_of_none hv, h.merge_eq]

theorem leftJoin_ne_zero {μ : Solution} (B : Solutions) : leftJoin {μ} B ≠ 0 := by
  rw [leftJoin, Multiset.singleton_bind]
  split
  · exact Multiset.singleton_ne_zero μ
  · assumption

/-- Steps that each bind variables which no step before has bound do so for all of them. -/
theorem foldl_eq_setAll {α : Type} {F : Solutions → α → Solutions}
    {bindings : α → List (Variable × Term)} {μ : Solution} {as : List α}
    (hdistinct : ((as.flatMap bindings).map Prod.fst).Nodup)
    (hfree : ∀ v ∈ (as.flatMap bindings).map Prod.fst, μ v = none)
    (hstep : ∀ a ∈ as, ∀ ν : Solution,
      (∀ v ∉ (as.flatMap bindings).map Prod.fst, ν v = μ v) →
      (∀ v ∈ (bindings a).map Prod.fst, ν v = none) → F {ν} a = {ν.setAll (bindings a)}) :
    as.foldl F {μ} = {μ.setAll (as.flatMap bindings)} := by
  induction as generalizing μ with
  | nil => rfl
  | cons a rest ih =>
    rw [List.flatMap_cons, List.map_append] at hdistinct hfree hstep
    obtain ⟨-, hrest, hdisjoint⟩ := List.nodup_append'.mp hdistinct
    have hhere : ∀ v ∈ (bindings a).map Prod.fst, μ v = none := fun v hv =>
      hfree v (List.mem_append_left _ hv)
    rw [List.foldl_cons, hstep a List.mem_cons_self μ (fun v _ => rfl) hhere,
      List.flatMap_cons, Solution.setAll_append]
    refine ih hrest (fun v hv => ?_) fun a' ha' ν hν hfree' => ?_
    · rw [Solution.setAll_of_notMem fun hv' => hdisjoint hv' hv]
      exact hfree v (List.mem_append_right _ hv)
    · refine hstep a' (List.mem_cons_of_mem a ha') ν (fun v hv => ?_) hfree'
      rw [List.mem_append, not_or] at hv
      rw [hν v hv.2, Solution.setAll_of_notMem hv.1]

/-- Steps that bind one new variable each bind all of them. -/
theorem foldl_eq_setAll_map {α : Type} {F : Solutions → α → Solutions}
    {binding : α → Variable × Term} {μ : Solution} {as : List α}
    (hdistinct : (as.map fun a => (binding a).1).Nodup)
    (hfree : ∀ a ∈ as, μ (binding a).1 = none)
    (hstep : ∀ a ∈ as, ∀ ν : Solution, (∀ v ∉ as.map fun a => (binding a).1, ν v = μ v) →
      ν (binding a).1 = none → F {ν} a = {ν.set (binding a).1 (binding a).2}) :
    as.foldl F {μ} = {μ.setAll (as.map binding)} := by
  have hvars : (as.flatMap fun a => [binding a]).map Prod.fst = as.map fun a => (binding a).1 := by
    rw [← List.map_eq_flatMap, List.map_map]
    rfl
  rw [List.map_eq_flatMap (f := binding)]
  refine foldl_eq_setAll (hvars ▸ hdistinct) (fun v hv => ?_) fun a ha ν hν hfree' => ?_
  · rw [hvars] at hv
    obtain ⟨a, ha, rfl⟩ := List.mem_map.mp hv
    exact hfree a ha
  · rw [hvars] at hν
    exact hstep a ha ν hν (hfree' _ (List.mem_singleton_self _))

end Solutions

/-! ## One group -/

theorem dedup_map_eq_singleton {α β : Type} [DecidableEq β] {f : α → β} {b : β} {as : Multiset α}
    (hne : as ≠ 0) (h : ∀ a ∈ as, f a = b) : (as.map f).dedup = {b} := by
  obtain ⟨a, ha⟩ := Multiset.exists_mem_of_ne_zero hne
  refine (Multiset.Nodup.ext (Multiset.nodup_dedup _) (Multiset.nodup_singleton b)).mpr fun b' => ?_
  rw [Multiset.mem_dedup, Multiset.mem_map, Multiset.mem_singleton]
  constructor
  · rintro ⟨a', ha', rfl⟩
    exact h a' ha'
  · rintro rfl
    exact ⟨a, ha, h a ha⟩

/-- The solutions of a group pattern whose solutions agree on its keys. -/
theorem Pattern.eval_group_of_restrict {p : Pattern} {keys : List Variable}
    {aggregates : List (Variable × Aggregate)} {c : Context} {key : Solution} (hkeys : keys ≠ [])
    (hne : p.eval c ≠ 0) (h : ∀ μ ∈ p.eval c, μ.restrict keys = key) :
    (Pattern.group p keys aggregates).eval c =
      {Aggregate.bindAll aggregates c key (p.eval c)} := by
  classical
  rw [eval, groupKeys, if_neg hkeys, dedup_map_eq_singleton hne h, Multiset.map_singleton,
    Multiset.filter_eq_self.mpr h]

/-- A group with one aggregate has its value. -/
theorem Aggregate.bindAll_singleton {a : Aggregate} {c : Context} {v : Variable} {key : Solution}
    {ss : Solutions} {t : Term} (h : a.eval c v key ss = some t) :
    Aggregate.bindAll [(v, a)] c key ss = key.set v t := by
  rw [bindAll, h]
  rfl

end DocGraph.Sparql
