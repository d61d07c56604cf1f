import DocGraph.Proofs.Json.Texts
import DocGraph.Results.Decoder
import Mathlib.Data.Prod.Lex
import Mathlib.Data.String.Basic

/-!
# The order of values

The comparison that arrays are sorted by is that of a key in a linear order (`notAfter_iff`): texts
come first, then numbers, then all other values, and each of these by rules of its own. The ranks
go with the first characters of the JSON texts, by which values of different rank are compared
(`text_lt_of_rank_lt`). So the comparison is total and transitive, and of two values each may
stand in front of the other only if they are the same, or numbers that are the same in binary64
(`eq_or_of_notAfter`).

Sorting keeps the values and puts them in order (`sortValues_perm`, `pairwise_sortValues`). Numbers
that are the same in binary64 stay in the order in which they come, and nothing else does
(`eq_of_sortValues_swap`, `sortValues_eq_of_perm`).
-/

namespace DocGraph

open Json (Value)

/-! ## The order of values -/

namespace Json.Value

variable {v w : Value}

/-- Texts come first, then numbers, then all other values. -/
def rank : Value → Nat
  | .str _ => 0
  | .num _ => 1
  | _ => 2

/-- Values in order by their rank, and of one rank by their characters, their size or their JSON
text. -/
def sortKey : Value → ℕ ×ₗ ℤ ×ₗ String
  | .str s => toLex (0, toLex (0, s))
  | .num n => toLex (1, toLex (n.toBinary64.orderKey, ""))
  | v => toLex (2, toLex (0, v.text))

theorem rank_eq_of_begins {c : Char} (h : v.Begins c) :
    v.rank = if c.toNat < 45 then 0 else if c.toNat < 58 then 1 else 2 := by
  revert h
  fun_cases Begins v c
  case case4 =>
    rintro ⟨hlow, hhigh⟩
    rw [if_neg (by omega), if_pos hhigh]
    rfl
  all_goals
    rintro rfl
    rfl

/-- The first characters of texts are in the order of the ranks. -/
theorem text_lt_of_rank_lt (h : v.rank < w.rank) : v.text < w.text := by
  obtain ⟨c, rest, hv, hc⟩ := v.exists_begins
  obtain ⟨d, rest', hw, hd⟩ := w.exists_begins
  rw [rank_eq_of_begins hc, rank_eq_of_begins hd] at h
  have hlt : c.toNat < d.toNat := by
    split_ifs at h <;> omega
  rw [String.lt_iff_toList_lt, hv, hw]
  exact List.Lex.rel (UInt32.lt_iff_toNat_lt.mpr hlt)

theorem sortKey_lt_of_rank_lt (h : v.rank < w.rank) : v.sortKey < w.sortKey := by
  have hkey (v : Value) : ∃ p, v.sortKey = toLex (v.rank, p) := by
    cases v <;> exact ⟨_, rfl⟩
  obtain ⟨p, hp⟩ := hkey v
  obtain ⟨q, hq⟩ := hkey w
  rw [hp, hq]
  exact Prod.Lex.toLex_lt_toLex.mpr (.inl h)

theorem sortKey_of_rank_eq_two (h : v.rank = 2) : v.sortKey = toLex (2, toLex (0, v.text)) := by
  cases v with
  | num n => cases h
  | str s => cases h
  | _ => rfl

end Json.Value

open Json.Value

theorem notAfter_of_rank_ne {v w : Value} (h : v.rank ≠ w.rank) :
    notAfter v w = decide (v.text ≤ w.text) := by
  fun_cases notAfter v w
  · exact absurd rfl h
  · exact absurd rfl h
  · rfl

theorem notAfter_iff_of_rank_eq {v w : Value} (h : v.rank = w.rank) :
    notAfter v w = true ↔ v.sortKey ≤ w.sortKey := by
  fun_cases notAfter v w
  · simp [sortKey, Prod.Lex.toLex_le_toLex, Int.le_iff_lt_or_eq]
  · simp [sortKey, Prod.Lex.toLex_le_toLex]
  · next hnum hstr =>
    have hv : v.rank = 2 := by cases v <;> cases w <;> simp_all [rank]
    rw [sortKey_of_rank_eq_two hv, sortKey_of_rank_eq_two (h ▸ hv)]
    simp [Prod.Lex.toLex_le_toLex]

/-- One value may stand in front of another one exactly if its key is not greater. -/
theorem notAfter_iff {v w : Value} : notAfter v w = true ↔ v.sortKey ≤ w.sortKey := by
  rcases lt_trichotomy v.rank w.rank with h | h | h
  · rw [notAfter_of_rank_ne h.ne, decide_eq_true_iff]
    exact iff_of_true (text_lt_of_rank_lt h).le (sortKey_lt_of_rank_lt h).le
  · exact notAfter_iff_of_rank_eq h
  · rw [notAfter_of_rank_ne h.ne', decide_eq_true_iff]
    exact iff_of_false (text_lt_of_rank_lt h).not_ge (sortKey_lt_of_rank_lt h).not_ge

theorem notAfter_total (v w : Value) : (notAfter v w || notAfter w v) = true := by
  rw [Bool.or_eq_true, notAfter_iff, notAfter_iff]
  exact le_total _ _

theorem notAfter_trans (u v w : Value) (huv : notAfter u v = true) (hvw : notAfter v w = true) :
    notAfter u w = true :=
  notAfter_iff.mpr ((notAfter_iff.mp huv).trans (notAfter_iff.mp hvw))

/-- Two values of which each may stand in front of the other are the same, or numbers that are
the same in binary64. -/
theorem eq_or_of_notAfter {v w : Value} (hvw : notAfter v w = true) (hwv : notAfter w v = true) :
    v = w ∨ ∃ m n, v = .num m ∧ w = .num n ∧ m.toBinary64 = n.toBinary64 := by
  have hkey := le_antisymm (notAfter_iff.mp hvw) (notAfter_iff.mp hwv)
  have hrank : v.rank = w.rank := by
    by_contra hne
    rcases lt_or_gt_of_ne hne with h | h
    · exact (sortKey_lt_of_rank_lt h).ne hkey
    · exact (sortKey_lt_of_rank_lt h).ne' hkey
  by_cases htwo : v.rank = 2
  · rw [sortKey_of_rank_eq_two htwo, sortKey_of_rank_eq_two (hrank ▸ htwo)] at hkey
    simp only [toLex_inj, Prod.mk.injEq, true_and] at hkey
    exact .inl (text_injective hkey)
  · cases v with
    | num m =>
      obtain ⟨n, rfl⟩ : ∃ n, w = .num n := by cases w <;> simp_all [rank]
      simp only [sortKey, toLex_inj, Prod.mk.injEq, true_and, and_true] at hkey
      exact .inr ⟨m, n, rfl, rfl, Number.Binary64.orderKey_inj hkey⟩
    | str s =>
      obtain ⟨t, rfl⟩ : ∃ t, w = .str t := by cases w <;> simp_all [rank]
      simp only [sortKey, toLex_inj, Prod.mk.injEq, true_and] at hkey
      exact .inl (congrArg Value.str hkey)
    | _ => exact absurd rfl htwo

/-! ## Sorted values -/

/-- Whether a value may stand in front of another one in a direction. -/
def Direction.InFront : Direction → Value → Value → Prop
  | .ascending, v, w => notAfter v w = true
  | .descending, v, w => notAfter w v = true

variable {direction : Direction} {values values' : List Value}

/-- Two values of which each may stand in front of the other are the same, or numbers that are
the same in binary64, in either direction. -/
theorem eq_or_of_inFront {v w : Value} (hvw : direction.InFront v w)
    (hwv : direction.InFront w v) :
    v = w ∨ ∃ m n, v = .num m ∧ w = .num n ∧ m.toBinary64 = n.toBinary64 := by
  cases direction with
  | ascending => exact eq_or_of_notAfter hvw hwv
  | descending => exact eq_or_of_notAfter hwv hvw

/-- Sorting keeps the values. -/
theorem sortValues_perm (direction : Direction) (values : List Value) :
    (sortValues direction values).Perm values := by
  have hsorted := List.mergeSort_perm values notAfter
  cases direction with
  | ascending => exact hsorted
  | descending => exact (List.reverse_perm _).trans hsorted

/-- Sorted values are in order. -/
theorem pairwise_sortValues (direction : Direction) (values : List Value) :
    (sortValues direction values).Pairwise direction.InFront := by
  have hsorted := List.pairwise_mergeSort notAfter_trans notAfter_total values
  cases direction with
  | ascending => exact hsorted
  | descending => exact List.pairwise_reverse.mpr hsorted

/-- In which order values come does not count, unless two of them are different numbers that are
the same in binary64. -/
theorem sortValues_eq_of_perm (h : values.Perm values')
    (hties : ∀ m n, Value.num m ∈ values → Value.num n ∈ values →
      m.toBinary64 = n.toBinary64 → m = n) :
    sortValues direction values = sortValues direction values' := by
  refine List.Perm.eq_of_pairwise (fun v w hv hw hvw hwv => ?_)
    (pairwise_sortValues direction values) (pairwise_sortValues direction values')
    ((sortValues_perm direction values).trans (h.trans (sortValues_perm direction values').symm))
  have hmem : v ∈ values := (sortValues_perm direction values).mem_iff.mp hv
  have hmem' : w ∈ values := h.mem_iff.mpr ((sortValues_perm direction values').mem_iff.mp hw)
  rcases eq_or_of_inFront hvw hwv with heq | ⟨m, n, rfl, rfl, hmn⟩
  · exact heq
  · rw [hties m n hmem hmem' hmn]

/-- Values of which any may stand in front of any other keep their order. -/
theorem filter_mergeSort {p : Value → Bool} (hp : ∀ v w, p v = true → p w = true →
    notAfter v w = true) (values : List Value) :
    (values.mergeSort notAfter).filter p = values.filter p := by
  have hpairwise : (values.filter p).Pairwise fun v w => notAfter v w = true :=
    List.pairwise_of_forall_mem_list fun v hv w hw =>
      hp v w (List.of_mem_filter hv) (List.of_mem_filter hw)
  have hsublist : ((values.filter p).filter p).Sublist ((values.mergeSort notAfter).filter p) :=
    (List.sublist_mergeSort notAfter_trans notAfter_total hpairwise List.filter_sublist).filter p
  rw [List.filter_filter, funext fun v => Bool.and_self (p v)] at hsublist
  exact (hsublist.eq_of_length ((List.mergeSort_perm values notAfter).filter p).length_eq.symm).symm

/-- Two numbers that are the same in binary64 stay in the order in which they come. -/
theorem eq_of_sortValues_swap {m n : Json.Number} (hmn : m.toBinary64 = n.toBinary64)
    (h : sortValues direction (.num m :: .num n :: values) =
      sortValues direction (.num n :: .num m :: values)) : m = n := by
  have hsorted : (Value.num m :: .num n :: values).mergeSort notAfter =
      (Value.num n :: .num m :: values).mergeSort notAfter := by
    cases direction with
    | ascending => exact h
    | descending => exact List.reverse_injective h
  have hself : notAfter (.num n) (.num n) = true := notAfter_iff.mpr le_rfl
  have hm : notAfter (.num m) (.num n) = true ∧ notAfter (.num n) (.num m) = true := by
    simp [notAfter, hmn]
  let p (v : Value) : Bool := notAfter v (.num n) && notAfter (.num n) v
  have hp : ∀ v w, p v = true → p w = true → notAfter v w = true := fun v w hv hw =>
    notAfter_trans v (.num n) w (Bool.and_eq_true_iff.mp hv).1 (Bool.and_eq_true_iff.mp hw).2
  have hpm : p (.num m) = true := Bool.and_eq_true_iff.mpr hm
  have hpn : p (.num n) = true := Bool.and_eq_true_iff.mpr ⟨hself, hself⟩
  have hfilter := congrArg (List.filter p) hsorted
  simp only [filter_mergeSort hp, List.filter_cons_of_pos hpm, List.filter_cons_of_pos hpn]
    at hfilter
  exact Value.num.inj (List.cons.inj hfilter).1

end DocGraph
