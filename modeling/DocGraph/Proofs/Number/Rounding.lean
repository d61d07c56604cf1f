import DocGraph.Number.Shortest
import Mathlib.Tactic.Ring

/-!
# Rounding to a number

A fraction in the interval of a number rounds to it (`Binary64.ofRatio?_of_rounds`). The
interval reaches half a unit of the number's own grid to either side, and only a
quarter of one below the least number with its exponent, where the grid below is
twice as fine.
-/

namespace DocGraph.Number

/-- A half goes to the even neighbour, so it only rounds to an even number. -/
theorem roundDiv_eq {num den m : Nat} (hden : 0 < den) (hlow : 2 * m * den ≤ 2 * num + den)
    (hhigh : 2 * num ≤ 2 * m * den + den)
    (hodd : m % 2 = 1 → 2 * m * den < 2 * num + den ∧ 2 * num < 2 * m * den + den) :
    roundDiv num den = m := by
  have hdiv : den * (num / den) + num % den = num := Nat.div_add_mod num den
  have hrest : num % den < den := Nat.mod_lt num hden
  unfold roundDiv
  generalize num / den = q at hdiv ⊢
  generalize num % den = r at hdiv hrest ⊢
  subst hdiv
  -- the quotient is `m` or one less
  have hq : q ≤ m := by
    by_contra h
    have hmul : (m + 1) * den ≤ q * den := Nat.mul_le_mul_right den (by omega)
    have hlin : (m + 1) * den = m * den + den := by ring
    have hcomm : den * q = q * den := Nat.mul_comm den q
    have hassoc : 2 * m * den = 2 * (m * den) := by ring
    omega
  have hm : m ≤ q + 1 := by
    by_contra h
    have hmul : (q + 2) * den ≤ m * den := Nat.mul_le_mul_right den (by omega)
    have hlin : (q + 2) * den = q * den + 2 * den := by ring
    have hcomm : den * q = q * den := Nat.mul_comm den q
    have hassoc : 2 * m * den = 2 * (m * den) := by ring
    omega
  have hcomm : den * q = q * den := Nat.mul_comm den q
  dsimp only
  rcases Nat.lt_or_ge q m with hlt | hge
  · obtain rfl : m = q + 1 := by omega
    have hlin : 2 * (q + 1) * den = 2 * (q * den) + 2 * den := by ring
    rw [if_pos]
    by_cases hp : q % 2 = 1
    · omega
    · have := hodd (by omega)
      omega
  · obtain rfl : m = q := by omega
    have hlin : 2 * m * den = 2 * (m * den) := by ring
    rw [if_neg]
    rintro (h | ⟨h, hp⟩)
    · omega
    · have := hodd hp
      omega

namespace Binary64

variable {x : Binary64}

/-- The fields of a number are its exponent and its significand, whose leading
bit adds one to the exponent. -/
theorem magnitude_eq (x : Binary64) : x.magnitude = x.scale * fractions + x.significand := by
  have hf : 0 < fractions := by decide
  unfold scale significand
  split
  · next h =>
    have hdiv : x.magnitude / fractions < 2 := Nat.div_lt_of_lt_mul (by omega)
    have hscale : x.magnitude / fractions - 1 = 0 := by omega
    rw [hscale, Nat.zero_mul, Nat.zero_add]
  · next h =>
    have hdiv : 2 ≤ x.magnitude / fractions := (Nat.le_div_iff_mul_le hf).mpr (by omega)
    have heq : fractions * (x.magnitude / fractions) + x.magnitude % fractions = x.magnitude :=
      Nat.div_add_mod _ _
    obtain ⟨k, hk⟩ : ∃ k, x.magnitude / fractions = k + 1 :=
      ⟨_, (Nat.sub_add_cancel (by omega)).symm⟩
    have hlin : fractions * (k + 1) = k * fractions + fractions := by ring
    rw [hk] at heq
    rw [hk, Nat.add_sub_cancel]
    omega

theorem significand_lt (x : Binary64) : x.significand < 2 * fractions := by
  have hf : 0 < fractions := by decide
  unfold significand
  split
  · assumption
  · have := Nat.mod_lt x.magnitude hf
    omega

/-- A number with a scale has its leading bit. -/
theorem le_significand (h : 0 < x.scale) : fractions ≤ x.significand := by
  unfold scale at h
  unfold significand
  split
  · next hlt =>
    have hdiv : x.magnitude / fractions < 2 := Nat.div_lt_of_lt_mul (by omega)
    omega
  · omega

theorem significand_pos (h : x.magnitude ≠ 0) : 0 < x.significand := by
  have hf : 0 < fractions := by decide
  unfold significand
  split <;> omega

/-- The quarters of a unit that the interval of a number reaches below it. -/
def below (x : Binary64) : Nat :=
  if x.significand = fractions ∧ 0 < x.scale then 1 else 2

/-- Whether `num / den` lies in the interval of a number: between its value less
a quarter or a half of a unit and its value and half a unit. The ends are in it
if the significand is even. -/
structure Rounds (x : Binary64) (num den : Nat) : Prop where
  low : (4 * x.significand - x.below) * (den * 2 ^ x.scale) ≤ 4 * num
  high : 4 * num ≤ (4 * x.significand + 2) * (den * 2 ^ x.scale)
  odd : x.significand % 2 = 1 →
    (4 * x.significand - x.below) * (den * 2 ^ x.scale) < 4 * num ∧
      4 * num < (4 * x.significand + 2) * (den * 2 ^ x.scale)

theorem fractions_eq : fractions = 2 ^ 52 := by
  decide

/-- The exponent that is found for a fraction of units with `52 + e` bits in
front of the point. -/
theorem log2_sub {num den e : Nat} (hden : 0 < den) (hlow : 2 ^ (52 + e) * den ≤ num)
    (hhigh : num < 2 ^ (53 + e) * den) : (num / den).log2 - 52 = e := by
  have hle : 2 ^ (52 + e) ≤ num / den := (Nat.le_div_iff_mul_le hden).mpr hlow
  have hlt : num / den < 2 ^ (53 + e) := Nat.div_lt_of_lt_mul (by rwa [Nat.mul_comm] at hhigh)
  have hne : num / den ≠ 0 := by
    have := Nat.two_pow_pos (52 + e)
    omega
  have hlog : (num / den).log2 = 52 + e := by
    rw [Nat.log2_eq_iff hne]
    exact ⟨hle, by rwa [show 52 + e + 1 = 53 + e by omega]⟩
  omega

theorem log2_sub_eq_zero {num den : Nat} (hhigh : num < 2 ^ 53 * den) :
    (num / den).log2 - 52 = 0 := by
  have hlt : num / den < 2 ^ 53 := Nat.div_lt_of_lt_mul (by rwa [Nat.mul_comm] at hhigh)
  by_cases hne : num / den = 0
  · rw [hne]
    rfl
  · have := (Nat.log2_lt hne).mpr hlt
    omega

theorem below_le (x : Binary64) : x.below ≤ 2 := by
  unfold below
  split <;> omega

/-- The interval of a number in halves of a unit, to be rounded at its own
exponent. -/
theorem roundDiv_of_rounds {num den : Nat} (hden : 0 < den) (hx : 0 < x.significand)
    (h : x.Rounds num den) : roundDiv num (den * 2 ^ x.scale) = x.significand := by
  have hA : 0 < den * 2 ^ x.scale := Nat.mul_pos hden (Nat.two_pow_pos _)
  obtain ⟨hlow, hhigh, hodd⟩ := h
  have hbelow := x.below_le
  generalize den * 2 ^ x.scale = A at hA hlow hhigh hodd ⊢
  generalize x.significand = m at hx hlow hhigh hodd ⊢
  have hle : (4 * m - 2) * A ≤ (4 * m - x.below) * A := Nat.mul_le_mul_right A (by omega)
  have hsub : (4 * m - 2) * A = 4 * (m * A) - 2 * A := by rw [Nat.sub_mul, Nat.mul_assoc]
  have hadd : (4 * m + 2) * A = 4 * (m * A) + 2 * A := by ring
  have hmul : 2 * m * A = 2 * (m * A) := by ring
  have hMA : A ≤ m * A := Nat.le_mul_of_pos_left A hx
  refine roundDiv_eq hA ?_ ?_ fun hp => ?_
  · omega
  · omega
  · have := hodd hp
    omega

/-- Below the least number with an exponent the grid is twice as fine, and its
last half rounds up to that number. -/
theorem roundDiv_of_rounds_below {num den e : Nat} (hden : 0 < den) (hscale : x.scale = e + 1)
    (hm : x.significand = fractions) (h : x.Rounds num den)
    (hlt : num < 2 ^ (52 + x.scale) * den) : roundDiv num (den * 2 ^ e) = 2 * fractions := by
  have hA : 0 < den * 2 ^ e := Nat.mul_pos hden (Nat.two_pow_pos _)
  have hlow := h.low
  have hbelow : x.below = 1 := if_pos ⟨hm, by omega⟩
  have hpow : den * 2 ^ x.scale = 2 * (den * 2 ^ e) := by
    rw [hscale, Nat.pow_succ]
    ring
  have hpow' : 2 ^ (52 + x.scale) * den = 2 * fractions * (den * 2 ^ e) := by
    rw [hscale, fractions_eq, Nat.pow_add, Nat.pow_succ]
    ring
  rw [hm, hbelow, hpow] at hlow
  rw [hpow'] at hlt
  have hf : fractions = 4503599627370496 := rfl
  generalize den * 2 ^ e = A at hA hlow hlt ⊢
  rw [hf] at hlow hlt ⊢
  refine roundDiv_eq hA ?_ ?_ fun hp => ?_
  · omega
  · omega
  · omega

theorem two_pow_mul_eq (den e : Nat) : 2 ^ (52 + e) * den = fractions * (den * 2 ^ e) := by
  rw [fractions_eq, Nat.pow_add]
  ring

/-- The interval of a number ends before its exponent does. -/
theorem Rounds.lt_two_pow {num den : Nat} (hden : 0 < den) (h : x.Rounds num den) :
    num < 2 ^ (53 + x.scale) * den := by
  have hA : 0 < den * 2 ^ x.scale := Nat.mul_pos hden (Nat.two_pow_pos _)
  have hlt := x.significand_lt
  have hpow : 2 ^ (53 + x.scale) * den = 2 * (2 ^ (52 + x.scale) * den) := by
    rw [show 53 + x.scale = 52 + x.scale + 1 by omega, Nat.pow_succ]
    ring
  have hle : (4 * x.significand + 2) * (den * 2 ^ x.scale) ≤
      (8 * fractions - 2) * (den * 2 ^ x.scale) := Nat.mul_le_mul_right _ (by omega)
  have hsub : (8 * fractions - 2) * (den * 2 ^ x.scale) =
      8 * (fractions * (den * 2 ^ x.scale)) - 2 * (den * 2 ^ x.scale) := by
    rw [Nat.sub_mul, Nat.mul_assoc]
  have hfA : den * 2 ^ x.scale ≤ fractions * (den * 2 ^ x.scale) :=
    Nat.le_mul_of_pos_left _ (by decide)
  rw [hpow, two_pow_mul_eq]
  have := h.high
  omega

/-- Only the interval of the least number with an exponent begins before the exponent does. -/
theorem Rounds.significand_eq_of_lt {num den : Nat} (hden : 0 < den) (hscale : 0 < x.scale)
    (h : x.Rounds num den) (hlt : num < 2 ^ (52 + x.scale) * den) : x.significand = fractions := by
  have hA : 0 < den * 2 ^ x.scale := Nat.mul_pos hden (Nat.two_pow_pos _)
  have hle := le_significand hscale
  have hbelow := x.below_le
  rw [two_pow_mul_eq] at hlt
  by_contra hne
  have hle' : (4 * fractions + 2) * (den * 2 ^ x.scale) ≤
      (4 * x.significand - x.below) * (den * 2 ^ x.scale) :=
    Nat.mul_le_mul_right _ (by omega)
  have hadd : (4 * fractions + 2) * (den * 2 ^ x.scale) =
      4 * (fractions * (den * 2 ^ x.scale)) + 2 * (den * 2 ^ x.scale) := by ring
  have := h.low
  omega

/-- It begins in the exponent below. -/
theorem Rounds.two_pow_le {num den e : Nat} (h : x.Rounds num den) (hscale : x.scale = e + 1)
    (hm : x.significand = fractions) : 2 ^ (52 + e) * den ≤ num := by
  have hlow := h.low
  have hb : x.below = 1 := if_pos ⟨hm, by omega⟩
  have hpow : den * 2 ^ x.scale = 2 * (den * 2 ^ e) := by
    rw [hscale, Nat.pow_succ]
    ring
  have hf : fractions = 4503599627370496 := rfl
  rw [hm, hb, hpow] at hlow
  rw [two_pow_mul_eq]
  generalize den * 2 ^ e = A at hlow ⊢
  rw [hf] at hlow ⊢
  omega

/-- The exponent and the rounded significand of a fraction in the interval of a number. -/
theorem Rounds.magnitude_eq {num den : Nat} (hden : 0 < den) (hx : x.magnitude ≠ 0)
    (h : x.Rounds num den) :
    ((num / den).log2 - 52) * fractions +
      roundDiv num (den * Nat.pow 2 ((num / den).log2 - 52)) = x.magnitude := by
  have hm := significand_pos hx
  have hhigh := h.lt_two_pow hden
  rw [x.magnitude_eq]
  rcases Nat.lt_or_ge num (2 ^ (52 + x.scale) * den) with hbelow | habove
  · rcases Nat.eq_zero_or_pos x.scale with hscale | hscale
    · rw [hscale] at hhigh
      rw [log2_sub_eq_zero hhigh, ← roundDiv_of_rounds hden hm h, hscale]
      rfl
    · obtain ⟨e, he⟩ : ∃ e, x.scale = e + 1 := ⟨_, (Nat.sub_add_cancel hscale).symm⟩
      have hmf := h.significand_eq_of_lt hden hscale hbelow
      have hlog : (num / den).log2 - 52 = e := by
        refine log2_sub hden (h.two_pow_le he hmf) ?_
        rwa [show 53 + e = 52 + x.scale by omega]
      have hround := roundDiv_of_rounds_below hden he hmf h hbelow
      have hlin : (e + 1) * fractions = e * fractions + fractions := by ring
      rw [hlog, hmf, he]
      change e * fractions + roundDiv num (den * 2 ^ e) = _
      omega
  · rw [log2_sub hden habove hhigh]
    exact congrArg _ (roundDiv_of_rounds hden hm h)

/-- A fraction in the interval of a number rounds to it. -/
theorem ofRatio?_of_rounds {num den : Nat} (hden : 0 < den) (hx : x.magnitude ≠ 0)
    (h : x.Rounds (num * Nat.pow 2 1074) den) : ofRatio? x.negative num den = some x := by
  unfold ofRatio?
  simp only [h.magnitude_eq hden hx, x.magnitude_lt, dif_pos]

end Binary64

end DocGraph.Number
