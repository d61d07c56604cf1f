import Mathlib.Data.List.TakeWhile
import DocGraph.Number.Layout
import DocGraph.Number.Lexical
import DocGraph.Text.Blank
import DocGraph.Proofs.Number.ShortestRounds

/-!
# Reading numbers that were written

Digits read back as the number they were written for (`natural?_toDigits`), and
so does an integer with a sign (`integer?_toString`). A decimal that rounds to a
binary64 number is read as that number (`ofDecimal?_of_roundsTo`).
-/

namespace DocGraph.Number

/-! ## Digits -/

theorem ofDigits_eq (cs : List Char) : ofDigits cs = Nat.ofDigitChars 10 cs 0 :=
  Nat.ofDigitChars_eq_foldl.symm

theorem isDigit_eq (c : Char) : isDigit c = c.isDigit := by
  rw [Bool.eq_iff_iff, Char.isDigit_iff_toNat]
  simp only [isDigit, Bool.and_eq_true, decide_eq_true_eq, Char.le_def, UInt32.le_iff_toNat_le]
  rfl

theorem isDigit_of_mem_toDigits {n : Nat} {c : Char} (h : c ∈ Nat.toDigits 10 n) :
    isDigit c = true := by
  rw [isDigit_eq]
  exact Nat.isDigit_of_mem_toDigits (by decide) (by decide) h

theorem ofDigits_toDigits (n : Nat) : ofDigits (Nat.toDigits 10 n) = n := by
  rw [ofDigits_eq, Nat.ofDigitChars_ten_toDigits]

theorem ofDigits_append_zeros (cs : List Char) (n : Nat) :
    ofDigits (cs ++ List.replicate n '0') = ofDigits cs * 10 ^ n := by
  rw [ofDigits_eq, ofDigits_eq, Nat.ofDigitChars_append, Nat.ofDigitChars_replicate_zero,
    Nat.mul_comm]

theorem ofDigits_zeros_append (n : Nat) (cs : List Char) :
    ofDigits (List.replicate n '0' ++ cs) = ofDigits cs := by
  rw [ofDigits_eq, ofDigits_eq, Nat.ofDigitChars_append, Nat.ofDigitChars_replicate_zero,
    Nat.mul_zero]

theorem natural?_of_isDigit {cs : List Char} (hne : cs ≠ []) (h : ∀ c ∈ cs, isDigit c = true) :
    natural? cs = some (ofDigits cs) :=
  if_pos ⟨hne, List.all_eq_true.mpr h⟩

theorem natural?_toDigits (n : Nat) : natural? (Nat.toDigits 10 n) = some n := by
  rw [natural?_of_isDigit Nat.toDigits_ne_nil fun _ h => isDigit_of_mem_toDigits h,
    ofDigits_toDigits]

/-- What begins with a digit has no sign. -/
theorem takeSign_of_isDigit {c : Char} {cs : List Char} (h : isDigit c = true) :
    takeSign (c :: cs) = (false, c :: cs) := by
  have h₁ : c ≠ '+' := by rintro rfl; revert h; decide
  have h₂ : c ≠ '-' := by rintro rfl; revert h; decide
  unfold takeSign
  split
  · next heq => exact absurd (List.cons.inj heq).1 h₁
  · next heq => exact absurd (List.cons.inj heq).1 h₂
  · rfl

theorem exists_toDigits_cons (n : Nat) :
    ∃ c cs, Nat.toDigits 10 n = c :: cs ∧ isDigit c = true := by
  cases h : Nat.toDigits 10 n with
  | nil => exact absurd h Nat.toDigits_ne_nil
  | cons c cs =>
    refine ⟨c, cs, rfl, isDigit_of_mem_toDigits (n := n) ?_⟩
    rw [h]
    exact List.mem_cons_self

theorem integer?_toDigits (n : Nat) : integer? (Nat.toDigits 10 n) = some (n : Int) := by
  obtain ⟨c, cs, hcs, hc⟩ := exists_toDigits_cons n
  unfold integer?
  rw [hcs, takeSign_of_isDigit hc, ← hcs]
  simp only [natural?_toDigits, Bool.false_eq_true, if_false]
  rfl

theorem integer?_neg_toDigits (n : Nat) :
    integer? ('-' :: Nat.toDigits 10 n) = some (-(n : Int)) := by
  unfold integer? takeSign
  simp only [natural?_toDigits, if_true]
  rfl

theorem toList_toString (i : Int) :
    (toString i).toList =
      if 0 ≤ i then Nat.toDigits 10 i.toNat else '-' :: Nat.toDigits 10 (-i).toNat := by
  rw [Int.toString_eq_repr, Int.repr_eq_if]
  split
  · exact Nat.toList_repr
  · rw [String.toList_append, Nat.toList_repr]
    rfl

/-- An integer reads back. -/
theorem integer?_toString (i : Int) : integer? (toString i).toList = some i := by
  rw [toList_toString]
  split
  · rw [integer?_toDigits, Int.toNat_of_nonneg ‹_›]
  · rw [integer?_neg_toDigits, Int.toNat_of_nonneg (by omega), Int.neg_neg]

/-! ## Blank characters -/

theorem isBlank_of_isDigit {c : Char} (h : isDigit c = true) : Text.isBlank c = false := by
  rw [isDigit_eq, Char.isDigit_iff_toNat] at h
  have h₀ : '0'.toNat = 48 := rfl
  have h₉ : '9'.toNat = 57 := rfl
  rw [h₀, h₉] at h
  unfold Text.isBlank
  generalize c.toNat = n at h
  simp only [Bool.or_eq_false_iff, Bool.and_eq_false_iff, decide_eq_false_iff_not,
    beq_eq_false_iff_ne]
  omega

theorem trimmed_of_not_isBlank {s : String} (h : ∀ c ∈ s.toList, Text.isBlank c = false) :
    Text.trimmed s = s.toList := by
  have hdrop (cs : List Char) (hcs : ∀ c ∈ cs, Text.isBlank c = false) :
      cs.dropWhile Text.isBlank = cs := by
    cases cs with
    | nil => rfl
    | cons c cs => rw [List.dropWhile_cons_of_neg (by simp [hcs c List.mem_cons_self])]
  unfold Text.trimmed
  rw [hdrop _ h, hdrop _ fun c hc => h c (List.mem_reverse.mp hc), List.reverse_reverse]

theorem not_isBlank_of_mem_toString {i : Int} {c : Char} (h : c ∈ (toString i).toList) :
    Text.isBlank c = false := by
  rw [toList_toString] at h
  split at h
  · exact isBlank_of_isDigit (isDigit_of_mem_toDigits h)
  · rcases List.mem_cons.mp h with rfl | h
    · decide
    · exact isBlank_of_isDigit (isDigit_of_mem_toDigits h)

/-! ## Decimals -/

/-- A text with a minus sign if it is a negative number. -/
def signed (negative : Bool) (cs : List Char) : List Char :=
  if negative then '-' :: cs else cs

/-- Whether a text begins with a digit. -/
def BeginsWithDigit (cs : List Char) : Prop :=
  ∃ c rest, cs = c :: rest ∧ isDigit c = true

theorem takeSign_signed {negative : Bool} {cs : List Char} (h : BeginsWithDigit cs) :
    takeSign (signed negative cs) = (negative, cs) := by
  obtain ⟨c, rest, rfl, hc⟩ := h
  cases negative with
  | true => rfl
  | false => exact takeSign_of_isDigit hc

theorem beginsWithDigit_append {cs : List Char} (hne : cs ≠ [])
    (h : ∀ c ∈ cs, isDigit c = true) (rest : List Char) : BeginsWithDigit (cs ++ rest) := by
  cases cs with
  | nil => exact absurd rfl hne
  | cons c cs => exact ⟨c, cs ++ rest, rfl, h c List.mem_cons_self⟩

/-! ## The size of a decimal -/

theorem two_pow_le_ten_pow_of_le {n k : Nat} (h : n ≤ 3 * k) : 2 ^ n ≤ 10 ^ k :=
  calc 2 ^ n ≤ 2 ^ (3 * k) := Nat.pow_le_pow_right (by decide) h
    _ = (2 ^ 3) ^ k := Nat.pow_mul _ _ _
    _ ≤ 10 ^ k := Nat.pow_le_pow_left (by decide) k

theorem lt_ten_pow_length (n : Nat) : n < 10 ^ (Nat.toDigits 10 n).length :=
  (Nat.length_toDigits_le_iff (by decide) Nat.length_toDigits_pos).mp le_rfl

theorem ten_pow_length_le {n : Nat} (hn : n ≠ 0) :
    10 ^ ((Nat.toDigits 10 n).length - 1) ≤ n := by
  by_contra hlt
  rcases Nat.eq_zero_or_pos ((Nat.toDigits 10 n).length - 1) with hzero | hpos
  · rw [hzero, Nat.pow_zero] at hlt
    omega
  · have := (Nat.length_toDigits_le_iff (by decide) hpos).mpr (Nat.lt_of_not_le hlt)
    have := Nat.length_toDigits_pos (b := 10) (n := n)
    omega

variable {x : Binary64}

/-- A decimal that rounds to a number is not too small to be read. -/
theorem le_size_of_rounds (hx : x.magnitude ≠ 0) {digits e d p a : Nat} (hp : p ≤ 3 * a)
    (h : x.Rounds (digits * 10 ^ e * 2 ^ p) (10 ^ d)) :
    d ≤ (Nat.toDigits 10 digits).length + e + a + 1 := by
  have hsub : 1 ≤ 4 * x.significand - x.below := by
    have := below_lt hx
    omega
  have hle : 10 ^ d ≤ 10 ^ ((Nat.toDigits 10 digits).length + e + a + 1) :=
    calc 10 ^ d ≤ 10 ^ d * 2 ^ x.scale := Nat.le_mul_of_pos_right _ (Nat.two_pow_pos _)
      _ ≤ (4 * x.significand - x.below) * (10 ^ d * 2 ^ x.scale) := Nat.le_mul_of_pos_left _ hsub
      _ ≤ 4 * (digits * 10 ^ e * 2 ^ p) := h.low
      _ ≤ 10 * (10 ^ (Nat.toDigits 10 digits).length * 10 ^ e * 10 ^ a) := by
        refine Nat.mul_le_mul (by decide) (Nat.mul_le_mul ?_ (two_pow_le_ten_pow_of_le hp))
        exact Nat.mul_le_mul_right _ (lt_ten_pow_length digits).le
      _ = 10 ^ ((Nat.toDigits 10 digits).length + e + a + 1) := by
        rw [← Nat.pow_add, ← Nat.pow_add, Nat.pow_succ, Nat.mul_comm]
  exact (Nat.pow_le_pow_iff_right (by decide)).mp hle

/-- A decimal that rounds to a number is not too large to be read. -/
theorem size_le_of_rounds {digits e d p b a : Nat} (hp : 2101 ≤ p + b) (hb : b ≤ 3 * a)
    (hdigits : digits ≠ 0) (h : x.Rounds (digits * 10 ^ e * 2 ^ p) (10 ^ d)) :
    (Nat.toDigits 10 digits).length + e ≤ d + a + 1 := by
  have hm : 4 * x.significand + 2 ≤ 2 ^ 56 := by
    have := x.significand_lt
    have hf : fractions = 4503599627370496 := rfl
    omega
  have hs := scale_le x
  have hle : 2 ^ p * 10 ^ ((Nat.toDigits 10 digits).length - 1 + e) ≤ 2 ^ p * 10 ^ (d + a) :=
    calc 2 ^ p * 10 ^ ((Nat.toDigits 10 digits).length - 1 + e)
        = 10 ^ ((Nat.toDigits 10 digits).length - 1) * 10 ^ e * 2 ^ p := by
          rw [Nat.pow_add, Nat.mul_comm]
      _ ≤ digits * 10 ^ e * 2 ^ p :=
          Nat.mul_le_mul_right _ (Nat.mul_le_mul_right _ (ten_pow_length_le hdigits))
      _ ≤ 4 * (digits * 10 ^ e * 2 ^ p) := Nat.le_mul_of_pos_left _ (by decide)
      _ ≤ (4 * x.significand + 2) * (10 ^ d * 2 ^ x.scale) := h.high
      _ ≤ 2 ^ 56 * (10 ^ d * 2 ^ x.scale) := Nat.mul_le_mul_right _ hm
      _ = 10 ^ d * 2 ^ (56 + x.scale) := by
          rw [Nat.pow_add]
          exact Nat.mul_left_comm _ _ _
      _ ≤ 10 ^ d * 2 ^ (p + b) :=
          Nat.mul_le_mul_left _ (Nat.pow_le_pow_right (by decide) (by omega))
      _ = 2 ^ p * (10 ^ d * 2 ^ b) := by
          rw [Nat.pow_add]
          exact Nat.mul_left_comm _ _ _
      _ ≤ 2 ^ p * (10 ^ d * 10 ^ a) :=
          Nat.mul_le_mul_left _ (Nat.mul_le_mul_left _ (two_pow_le_ten_pow_of_le hb))
      _ = 2 ^ p * 10 ^ (d + a) := by rw [Nat.pow_add]
  have := (Nat.pow_le_pow_iff_right (by decide)).mp
    (Nat.le_of_mul_le_mul_left hle (Nat.two_pow_pos p))
  omega

/-- A decimal that rounds to a number is read as that number. -/
theorem ofDecimal?_of_roundsTo (hx : x.magnitude ≠ 0) {d : Decimal} (h : d.RoundsTo x) :
    ofDecimal? x.negative d.digits d.exponent = some x := by
  have hlow := le_size_of_rounds (a := 358) hx (by decide) h.rounds
  have hhigh := size_le_of_rounds (b := 1027) (a := 343) (by decide) (by decide) h.ne_zero h.rounds
  unfold ofDecimal?
  rw [if_neg, if_neg]
  · exact Binary64.ofRatio?_of_rounds (Nat.pow_pos (by decide)) hx h.rounds
  · omega
  · have := h.ne_zero
    omega

end DocGraph.Number
