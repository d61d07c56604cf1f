import DocGraph.Sparql.Algebra
import Mathlib.Data.Multiset.Bind
import Mathlib.Data.Multiset.Filter

/-!
# Solutions of graph patterns

A solution is a partial function from variables to terms, and the solutions of a
pattern are a bag of them. Two solutions are compatible if they agree where both
are defined, and then have one common extension. The join of two bags holds one
extension for every compatible pair; the left join also keeps the solutions that
have no compatible partner.

* `join_comm`, `join_assoc`, `join_unit`: bags are a commutative monoid under
  the join;
* `mem_join`, `mem_leftJoin`: what a join holds.
-/

namespace DocGraph.Sparql

open Rdf (Term Variable)

/-- A partial function from variables to terms. -/
abbrev Solution := Variable → Option Term

/-- A bag of solutions. -/
abbrev Solutions := Multiset Solution

namespace Solution

/-- The solution that binds nothing. -/
def empty : Solution := fun _ => none

/-- The solution with a variable bound to a term. -/
def set (μ : Solution) (v : Variable) (t : Term) : Solution :=
  fun w => if w = v then some t else μ w

/-- The bindings of `μ`, and those of `ν` where `μ` has none. -/
def merge (μ ν : Solution) : Solution :=
  fun v => (μ v).or (ν v)

/-- The bindings of some variables. -/
def restrict (μ : Solution) (vs : List Variable) : Solution :=
  fun v => if v ∈ vs then μ v else none

/-- Whether two solutions agree where both are defined. -/
def Compatible (μ ν : Solution) : Prop :=
  ∀ v t u, μ v = some t → ν v = some u → t = u

/-- The bindings of some variables, in the order of the list. -/
def row (μ : Solution) (vs : List Variable) : List (Variable × Term) :=
  vs.filterMap fun v => (μ v).map fun t => (v, t)

@[simp] theorem empty_apply (v : Variable) : empty v = none := rfl

@[simp] theorem set_self (μ : Solution) (v : Variable) (t : Term) : μ.set v t v = some t := by
  simp [set]

theorem set_of_ne (μ : Solution) {v w : Variable} (h : w ≠ v) (t : Term) : μ.set v t w = μ w := by
  simp [set, h]

@[simp] theorem merge_empty (μ : Solution) : μ.merge empty = μ := by
  funext v
  simp [merge]

theorem merge_assoc (μ ν κ : Solution) : (μ.merge ν).merge κ = μ.merge (ν.merge κ) := by
  funext v
  simp [merge, Option.or_assoc]

theorem compatible_empty_left (μ : Solution) : empty.Compatible μ := by
  intro v t u h
  simp at h

theorem compatible_empty_right (μ : Solution) : μ.Compatible empty := by
  intro v t u _ h
  simp at h

theorem Compatible.symm {μ ν : Solution} (h : μ.Compatible ν) : ν.Compatible μ :=
  fun v t u ht hu => (h v u t hu ht).symm

theorem compatible_comm {μ ν : Solution} : μ.Compatible ν ↔ ν.Compatible μ :=
  ⟨Compatible.symm, Compatible.symm⟩

theorem Compatible.merge_comm {μ ν : Solution} (h : μ.Compatible ν) : μ.merge ν = ν.merge μ := by
  funext v
  cases hμ : μ v with
  | none => simp [merge, hμ]
  | some t =>
    cases hν : ν v with
    | none => simp [merge, hμ, hν]
    | some u => simp [merge, hμ, hν, h v t u hμ hν]

/-- A merge is compatible with a solution as soon as both of its parts are. The
left part takes precedence, so the parts have to be compatible for the
converse. -/
theorem compatible_merge_right {μ ν κ : Solution} (h : ν.Compatible κ) :
    μ.Compatible (ν.merge κ) ↔ μ.Compatible ν ∧ μ.Compatible κ := by
  constructor
  · intro hm
    refine ⟨fun v t u ht hu => hm v t u ht (by simp [merge, hu]), fun v t u ht hu => ?_⟩
    cases hν : ν v with
    | none => exact hm v t u ht (by simp [merge, hν, hu])
    | some u' =>
      have htu : t = u' := hm v t u' ht (by simp [merge, hν])
      rw [htu, h v u' u hν hu]
  · rintro ⟨hν, hκ⟩ v t u ht hu
    cases hv : ν v with
    | none => exact hκ v t u ht (by simpa [merge, hv] using hu)
    | some u' =>
      have huu : u' = u := by simpa [merge, hv] using hu
      exact hν v t u ht (huu ▸ hv)

theorem compatible_merge_left {μ ν κ : Solution} (h : μ.Compatible ν) :
    (μ.merge ν).Compatible κ ↔ μ.Compatible κ ∧ ν.Compatible κ := by
  rw [compatible_comm, compatible_merge_right h, compatible_comm, compatible_comm (μ := ν)]

/-- Three solutions can be merged from either side. -/
theorem compatible_assoc {μ ν κ : Solution} :
    (μ.Compatible ν ∧ (μ.merge ν).Compatible κ) ↔ (ν.Compatible κ ∧ μ.Compatible (ν.merge κ)) := by
  constructor
  · rintro ⟨h, hm⟩
    obtain ⟨hμκ, hνκ⟩ := (compatible_merge_left h).mp hm
    exact ⟨hνκ, (compatible_merge_right hνκ).mpr ⟨h, hμκ⟩⟩
  · rintro ⟨h, hm⟩
    obtain ⟨hμν, hμκ⟩ := (compatible_merge_right h).mp hm
    exact ⟨hμν, (compatible_merge_left hμν).mpr ⟨hμκ, h⟩⟩

end Solution

namespace Solutions

open scoped Classical in
/-- The common extension of two solutions, if they are compatible. -/
noncomputable def pair (μ ν : Solution) : Solutions :=
  if μ.Compatible ν then {μ.merge ν} else 0

/-- The extensions of a solution by the compatible ones of a bag. -/
noncomputable def extensions (μ : Solution) (B : Solutions) : Solutions :=
  B.bind (pair μ)

/-- One extension for every compatible pair. -/
noncomputable def join (A B : Solutions) : Solutions :=
  A.bind fun μ => extensions μ B

open scoped Classical in
/-- The join, and the solutions of the first bag that are compatible with none
of the second. -/
noncomputable def leftJoin (A B : Solutions) : Solutions :=
  A.bind fun μ => if extensions μ B = 0 then {μ} else extensions μ B

theorem pair_of_compatible {μ ν : Solution} (h : μ.Compatible ν) : pair μ ν = {μ.merge ν} :=
  if_pos h

theorem pair_of_not_compatible {μ ν : Solution} (h : ¬μ.Compatible ν) : pair μ ν = 0 :=
  if_neg h

theorem pair_comm (μ ν : Solution) : pair μ ν = pair ν μ := by
  by_cases h : μ.Compatible ν
  · rw [pair_of_compatible h, pair_of_compatible h.symm, h.merge_comm]
  · rw [pair_of_not_compatible h, pair_of_not_compatible (mt Solution.Compatible.symm h)]

/-- Both sides hold one merge of the three solutions if they agree pairwise. -/
theorem pair_assoc (μ ν κ : Solution) :
    ((pair μ ν).bind fun x => pair x κ) = (pair ν κ).bind (pair μ) := by
  have hassoc := Solution.compatible_assoc (μ := μ) (ν := ν) (κ := κ)
  by_cases hl : μ.Compatible ν ∧ (μ.merge ν).Compatible κ
  · have hr := hassoc.mp hl
    rw [pair_of_compatible hl.1, pair_of_compatible hr.1, Multiset.singleton_bind,
      Multiset.singleton_bind, pair_of_compatible hl.2, pair_of_compatible hr.2,
      Solution.merge_assoc]
  · have hr := mt hassoc.mpr hl
    have hleft : ((pair μ ν).bind fun x => pair x κ) = 0 := by
      by_cases h : μ.Compatible ν
      · rw [pair_of_compatible h, Multiset.singleton_bind,
          pair_of_not_compatible fun h' => hl ⟨h, h'⟩]
      · rw [pair_of_not_compatible h, Multiset.zero_bind]
    have hright : (pair ν κ).bind (pair μ) = 0 := by
      by_cases h : ν.Compatible κ
      · rw [pair_of_compatible h, Multiset.singleton_bind,
          pair_of_not_compatible fun h' => hr ⟨h, h'⟩]
      · rw [pair_of_not_compatible h, Multiset.zero_bind]
    rw [hleft, hright]

theorem mem_pair {μ ν κ : Solution} : κ ∈ pair μ ν ↔ μ.Compatible ν ∧ κ = μ.merge ν := by
  by_cases h : μ.Compatible ν
  · simp [pair_of_compatible h, h]
  · simp [pair_of_not_compatible h, h]

theorem mem_extensions {μ κ : Solution} {B : Solutions} :
    κ ∈ extensions μ B ↔ ∃ ν ∈ B, μ.Compatible ν ∧ κ = μ.merge ν := by
  simp only [extensions, Multiset.mem_bind, mem_pair]

theorem mem_join {A B : Solutions} {κ : Solution} :
    κ ∈ join A B ↔ ∃ μ ∈ A, ∃ ν ∈ B, μ.Compatible ν ∧ κ = μ.merge ν := by
  simp only [join, Multiset.mem_bind, mem_extensions]

theorem mem_leftJoin {A B : Solutions} {κ : Solution} :
    κ ∈ leftJoin A B ↔ κ ∈ join A B ∨ κ ∈ A ∧ extensions κ B = 0 := by
  simp only [leftJoin, join, Multiset.mem_bind]
  constructor
  · rintro ⟨μ, hμ, hκ⟩
    by_cases h : extensions μ B = 0
    · rw [if_pos h, Multiset.mem_singleton] at hκ
      exact .inr ⟨hκ ▸ hμ, hκ ▸ h⟩
    · rw [if_neg h] at hκ
      exact .inl ⟨μ, hμ, hκ⟩
  · rintro (⟨μ, hμ, hκ⟩ | ⟨hκ, h⟩)
    · have hne : extensions μ B ≠ 0 := fun h => by simp [h] at hκ
      exact ⟨μ, hμ, by rwa [if_neg hne]⟩
    · exact ⟨κ, hκ, by rw [if_pos h]; exact Multiset.mem_singleton_self κ⟩

@[simp] theorem empty_extensions (B : Solutions) : extensions .empty B = B := by
  have h : ∀ ν ∈ B, pair .empty ν = {ν} := fun ν _ =>
    pair_of_compatible (Solution.compatible_empty_left ν)
  rw [extensions, Multiset.bind_congr h]
  exact (Multiset.bind_singleton B id).trans (Multiset.map_id B)

@[simp] theorem extensions_unit (μ : Solution) : extensions μ {.empty} = {μ} := by
  rw [extensions, Multiset.singleton_bind, pair_of_compatible (Solution.compatible_empty_right μ),
    Solution.merge_empty]

theorem extensions_add (μ : Solution) (A B : Solutions) :
    extensions μ (A + B) = extensions μ A + extensions μ B :=
  Multiset.add_bind A B (pair μ)

theorem singleton_join (μ : Solution) (B : Solutions) : join {μ} B = extensions μ B :=
  Multiset.singleton_bind _ _

theorem join_comm (A B : Solutions) : join A B = join B A := by
  simp only [join, extensions]
  rw [Multiset.bind_bind]
  exact Multiset.bind_congr fun ν _ => Multiset.bind_congr fun μ _ => pair_comm μ ν

@[simp] theorem unit_join (B : Solutions) : join {.empty} B = B := by
  rw [singleton_join, empty_extensions]

@[simp] theorem join_unit (A : Solutions) : join A {.empty} = A := by
  rw [join_comm, unit_join]

theorem join_assoc (A B C : Solutions) : join (join A B) C = join A (join B C) := by
  simp only [join, extensions, Multiset.bind_assoc]
  refine Multiset.bind_congr fun μ _ => Multiset.bind_congr fun ν _ => ?_
  calc ((pair μ ν).bind fun x => C.bind (pair x))
      = C.bind fun κ => (pair μ ν).bind fun x => pair x κ := Multiset.bind_bind _ _
    _ = C.bind fun κ => (pair ν κ).bind (pair μ) := by simp only [pair_assoc]

end Solutions

end DocGraph.Sparql
