import DocGraph.Proofs.Number.Rounding

/-!
# The shortest decimal rounds back

The decimal that `shortest` finds for a number lies in the interval of the number
(`roundsTo_shortest`). Every hit on a grid does. There is a hit, since the first
guess of the decimal exponent is close enough, and since on the grid of seventeen
digits one of the two neighbours of a number is nearer than the ends of its
interval.
-/

namespace DocGraph.Number

/-- Whether `10 ^ k ≤ num / den`. -/
def PowLe (k : Int) (num den : Nat) : Prop :=
  den * 10 ^ k.toNat ≤ num * 10 ^ (-k).toNat

theorem PowLe.mono {j k : Int} {num den : Nat} (h : PowLe k num den) (hjk : j ≤ k) :
    PowLe j num den := by
  have hpos : 0 < 10 ^ (-k).toNat := Nat.pow_pos (by decide)
  refine Nat.le_of_mul_le_mul_right ?_ hpos
  calc den * 10 ^ j.toNat * 10 ^ (-k).toNat
      = den * 10 ^ (j.toNat + (-k).toNat) := by rw [Nat.mul_assoc, ← Nat.pow_add]
    _ ≤ den * 10 ^ (k.toNat + (-j).toNat) :=
        Nat.mul_le_mul_left den (Nat.pow_le_pow_right (by decide) (by omega))
    _ = den * 10 ^ k.toNat * 10 ^ (-j).toNat := by rw [Nat.mul_assoc, ← Nat.pow_add]
    _ ≤ num * 10 ^ (-k).toNat * 10 ^ (-j).toNat := Nat.mul_le_mul_right _ h
    _ = num * 10 ^ (-j).toNat * 10 ^ (-k).toNat := Nat.mul_right_comm _ _ _

/-- A guess that is not too large by more than the fuel is lowered until its power
of ten is not above the fraction. -/
theorem powLe_decimalExponent {fuel num den : Nat} {k : Int} (h : PowLe (k - fuel) num den) :
    PowLe (decimalExponent fuel num den k) num den := by
  induction fuel generalizing k with
  | zero => simpa [decimalExponent] using h
  | succ fuel ih =>
    rw [decimalExponent]
    split
    · exact ih (h.mono (by omega))
    · next hnot =>
      split
      · next hle => exact ih (PowLe.mono (k := k + 1) hle (by omega))
      · exact Nat.le_of_not_lt hnot

/-! ## The first guess -/

theorem ten_pow_le_two_pow (j r : Nat) (hr : r < 3) : 10 ^ (3 * j + r) ≤ 2 ^ (10 * j + 7) := by
  have h₁ : (10 ^ 3) ^ j ≤ (2 ^ 10) ^ j := Nat.pow_le_pow_left (by decide) j
  have h₂ : 10 ^ r ≤ 2 ^ 7 := le_trans (Nat.pow_le_pow_right (by decide) (show r ≤ 2 by omega))
    (by decide)
  rw [Nat.pow_add, Nat.pow_add, Nat.pow_mul, Nat.pow_mul]
  exact Nat.mul_le_mul h₁ h₂

theorem two_pow_le_ten_pow (j r : Nat) : 2 ^ (93 * j + 3 * r) ≤ 10 ^ (28 * j + r) := by
  have h₁ : (2 ^ 93) ^ j ≤ (10 ^ 28) ^ j := Nat.pow_le_pow_left (by decide) j
  have h₂ : (2 ^ 3) ^ r ≤ 10 ^ r := Nat.pow_le_pow_left (by decide) r
  rw [Nat.pow_add, Nat.pow_add, Nat.pow_mul, Nat.pow_mul, Nat.pow_mul]
  exact Nat.mul_le_mul h₁ h₂

/-- The binary logarithm is off by less than one, and so is the decimal one that
is made of it. -/
theorem powLe_guessedExponent {num den b : Nat} (hnum : num ≠ 0) (hden : den = 2 ^ b)
    (hlow : b ≤ num.log2 + 1080) (hhigh : num.log2 ≤ b + 1030) :
    PowLe (guessedExponent num den - (4 : Nat)) num den := by
  have ha : 2 ^ num.log2 ≤ num := Nat.log2_self_le hnum
  have hb : den.log2 = b := by rw [hden, Nat.log2_two_pow]
  unfold PowLe guessedExponent
  rw [hb, hden]
  generalize num.log2 = a at ha hlow hhigh
  generalize hg : ((a : Int) - (b : Int)) * 30103 / 100000 - ((4 : Nat) : Int) = g
  rcases le_total 0 g with hg0 | hg0
  · -- a power of ten above one
    have hzero : (-g).toNat = 0 := by omega
    rw [hzero, Nat.pow_zero, Nat.mul_one]
    have hsplit : 3 * (g.toNat / 3) + g.toNat % 3 = g.toNat := Nat.div_add_mod _ _
    calc 2 ^ b * 10 ^ g.toNat
        = 2 ^ b * 10 ^ (3 * (g.toNat / 3) + g.toNat % 3) := by rw [hsplit]
      _ ≤ 2 ^ b * 2 ^ (10 * (g.toNat / 3) + 7) :=
          Nat.mul_le_mul_left _ (ten_pow_le_two_pow _ _ (Nat.mod_lt _ (by decide)))
      _ = 2 ^ (b + (10 * (g.toNat / 3) + 7)) := (Nat.pow_add _ _ _).symm
      _ ≤ 2 ^ a := Nat.pow_le_pow_right (by decide) (by omega)
      _ ≤ num := ha
  · have hzero : g.toNat = 0 := by omega
    rw [hzero, Nat.pow_zero, Nat.mul_one]
    rcases le_total b a with hba | hab
    · calc 2 ^ b ≤ 2 ^ a := Nat.pow_le_pow_right (by decide) hba
        _ ≤ num := ha
        _ ≤ num * 10 ^ (-g).toNat := Nat.le_mul_of_pos_right _ (Nat.pow_pos (by decide))
    · -- a power of ten below one
      have hsplit : 93 * ((b - a) / 93) + (b - a) % 93 = b - a := Nat.div_add_mod _ _
      have hmod : (b - a) % 93 < 93 := Nat.mod_lt _ (by decide)
      calc 2 ^ b = 2 ^ a * 2 ^ (b - a) := by rw [← Nat.pow_add, Nat.add_sub_cancel' hab]
        _ ≤ num * 2 ^ (93 * ((b - a) / 93) + 3 * (((b - a) % 93 + 2) / 3)) :=
            Nat.mul_le_mul ha (Nat.pow_le_pow_right (by decide) (by omega))
        _ ≤ num * 10 ^ (28 * ((b - a) / 93) + ((b - a) % 93 + 2) / 3) :=
            Nat.mul_le_mul_left _ (two_pow_le_ten_pow _ _)
        _ ≤ num * 10 ^ (-g).toNat :=
            Nat.mul_le_mul_left _ (Nat.pow_le_pow_right (by decide) (by omega))

/-! ## Hits -/

/-- Whether a decimal lies in the interval of a number and is not zero. -/
structure Decimal.RoundsTo (d : Decimal) (x : Binary64) : Prop where
  ne_zero : d.digits ≠ 0
  rounds : x.Rounds (d.digits * 10 ^ d.exponent.toNat * Nat.pow 2 1074) (10 ^ (-d.exponent).toNat)

theorem two_pow_add_two (n : Nat) : Nat.pow 2 (n + 2) = 4 * Nat.pow 2 n := by
  rw [Nat.pow_eq, Nat.pow_eq, Nat.pow_add]
  omega

variable {x : Binary64} {tie : Tie}

theorem below_lt (hx : x.magnitude ≠ 0) : x.below < 4 * x.significand := by
  have := x.below_le
  have := Binary64.significand_pos hx
  omega

namespace Interval

theorem covers_iff {i : Interval} {num : Nat} :
    i.covers num = true ↔
      i.low ≤ num ∧ num ≤ i.high ∧ (i.closed = false → i.low < num ∧ num < i.high) := by
  unfold covers
  cases i.closed with
  | false =>
    simp only [Bool.false_eq_true, if_false, Bool.and_eq_true, decide_eq_true_eq, forall_const]
    omega
  | true =>
    simp only [if_true, Bool.and_eq_true, decide_eq_true_eq, Bool.true_eq_false, false_implies,
      and_true]

theorem low_around (x : Binary64) :
    (around x).low = (4 * x.significand - x.below) * 2 ^ x.scale := rfl

theorem high_around (x : Binary64) : (around x).high = (4 * x.significand + 2) * 2 ^ x.scale := rfl

theorem value_around (x : Binary64) : (around x).value = 4 * x.significand * 2 ^ x.scale := rfl

theorem den_around (x : Binary64) : (around x).den = 4 * Nat.pow 2 1074 := by
  unfold around
  rw [← two_pow_add_two]

theorem closed_around (x : Binary64) : (around x).closed = decide (x.significand % 2 = 0) := rfl

theorem low_inUnits (i : Interval) (k : Int) : (i.inUnits k).low = i.low * 10 ^ (-k).toNat := rfl

theorem high_inUnits (i : Interval) (k : Int) : (i.inUnits k).high = i.high * 10 ^ (-k).toNat := rfl

theorem value_inUnits (i : Interval) (k : Int) :
    (i.inUnits k).value = i.value * 10 ^ (-k).toNat := rfl

theorem den_inUnits (i : Interval) (k : Int) : (i.inUnits k).den = i.den * 10 ^ k.toNat := rfl

theorem closed_inUnits (i : Interval) (k : Int) : (i.inUnits k).closed = i.closed := rfl

end Interval

open DocGraph.Number.Interval in
/-- What the interval around a number covers, on the grid of a power of ten,
rounds to the number. -/
theorem roundsTo_of_covers (hx : x.magnitude ≠ 0) {q : Nat} {k : Int}
    (h : ((around x).inUnits k).covers (q * ((around x).inUnits k).den) = true) :
    (Decimal.mk q k).RoundsTo x := by
  rw [covers_iff, low_inUnits, high_inUnits, den_inUnits, closed_inUnits, low_around, high_around,
    den_around, closed_around, decide_eq_false_iff_not] at h
  have hnum : q * (4 * Nat.pow 2 1074 * 10 ^ k.toNat) =
      4 * (q * 10 ^ k.toNat * Nat.pow 2 1074) := by
    generalize Nat.pow 2 1074 = p
    ring
  have hassoc (m : Nat) :
      m * 2 ^ x.scale * 10 ^ (-k).toNat = m * (10 ^ (-k).toNat * 2 ^ x.scale) := by
    rw [Nat.mul_assoc, Nat.mul_comm (2 ^ x.scale)]
  rw [hnum, hassoc, hassoc] at h
  clear hnum hassoc
  obtain ⟨hlow, hhigh, hodd⟩ := h
  refine ⟨?_, hlow, hhigh, fun hp => hodd (by omega)⟩
  rintro rfl
  have hpos : 0 < (4 * x.significand - x.below) * (10 ^ (-k).toNat * 2 ^ x.scale) :=
    Nat.mul_pos (Nat.sub_pos_of_lt (below_lt hx))
      (Nat.mul_pos (Nat.pow_pos (by decide)) (Nat.two_pow_pos _))
  rw [Nat.zero_mul, Nat.zero_mul, Nat.mul_zero] at hlow
  omega

theorem Interval.covers_of_neighbour? {i : Interval} {q : Nat} (h : i.neighbour? tie = some q) :
    i.covers (q * i.den) = true := by
  simp only [neighbour?] at h
  split at h
  · next hc =>
    obtain rfl := Option.some.inj h
    simp only [Bool.and_eq_true] at hc
    exact hc.1
  · split at h
    · next hc =>
      obtain rfl := Option.some.inj h
      exact hc
    · cases h

/-- The first hit is one, on the grid of its exponent. -/
theorem covers_of_firstHit {i : Interval} {k : Int} {fuel n : Nat} {d : Decimal}
    (h : firstHit i k tie fuel n = some d) :
    (i.inUnits d.exponent).covers (d.digits * (i.inUnits d.exponent).den) = true := by
  induction fuel generalizing n with
  | zero => cases h
  | succ fuel ih =>
    simp only [firstHit] at h
    split at h
    · next q hq =>
      obtain rfl := Option.some.inj h
      exact Interval.covers_of_neighbour? hq
    · exact ih h

/-- There is a first hit if there is one on the last grid. -/
theorem exists_firstHit {i : Interval} {k : Int} {fuel n : Nat}
    (h : ∃ q, (i.inUnits (k + 1 - ((n + fuel : Nat) : Int))).neighbour? tie = some q) :
    ∃ d, firstHit i k tie (fuel + 1) n = some d := by
  induction fuel generalizing n with
  | zero =>
    obtain ⟨q, hq⟩ := h
    rw [Nat.add_zero] at hq
    exact ⟨⟨q, k + 1 - (n : Int)⟩, by simp only [firstHit, hq]⟩
  | succ fuel ih =>
    rw [firstHit]
    split
    · exact ⟨_, rfl⟩
    · refine ih ?_
      rwa [show n + 1 + fuel = n + (fuel + 1) by omega]

/-- The nearer neighbour of the value is in an interval that reaches beyond half
the distance of two neighbours. -/
theorem Interval.exists_neighbour? {i : Interval} (hden : 0 < i.den)
    (hlow : 2 * i.low + i.den < 2 * i.value) (hhigh : 2 * i.value + i.den < 2 * i.high) :
    ∃ q, i.neighbour? tie = some q := by
  have hdiv : i.den * (i.value / i.den) + i.value % i.den = i.value := Nat.div_add_mod _ _
  have hrest : i.value % i.den < i.den := Nat.mod_lt _ hden
  have hcovers (n : Nat) (h₁ : i.low < n) (h₂ : n < i.high) : i.covers n = true :=
    covers_iff.mpr ⟨h₁.le, h₂.le, fun _ => ⟨h₁, h₂⟩⟩
  have hcomm : i.den * (i.value / i.den) = i.value / i.den * i.den := Nat.mul_comm _ _
  have hsucc : (i.value / i.den + 1) * i.den = i.value / i.den * i.den + i.den := by ring
  by_cases hhalf : 2 * (i.value % i.den) ≤ i.den
  · have hbelow : i.covers (i.value / i.den * i.den) = true := hcovers _ (by omega) (by omega)
    unfold neighbour?
    simp only [hbelow, if_true]
    split
    · exact ⟨_, rfl⟩
    · exact ⟨_, rfl⟩
  · have habove : i.covers ((i.value / i.den + 1) * i.den) = true :=
      hcovers _ (by omega) (by omega)
    have hprefers : i.den < 2 * (i.value % i.den) := by omega
    refine ⟨i.value / i.den + 1, ?_⟩
    simp [neighbour?, habove, hprefers]

/-! ## Seventeen digits -/

theorem scale_le (x : Binary64) : x.scale ≤ 2045 := by
  have hlt : x.magnitude < 2047 * fractions := x.magnitude_lt
  have hdiv : x.magnitude / fractions < 2047 :=
    Nat.div_lt_of_lt_mul (by rwa [Nat.mul_comm] at hlt)
  unfold Binary64.scale
  omega

/-- The distance of two neighbours with seventeen digits, against the value of the number. -/
theorem den_mul_le_value {k : Int}
    (hk : PowLe k (Interval.around x).value (Interval.around x).den) :
    (Interval.around x).den * 10 ^ (k - 16).toNat * 10 ^ 16 ≤
      4 * x.significand * (2 ^ x.scale * 10 ^ (-(k - 16)).toNat) := by
  have hpos : 0 < 10 ^ (-k).toNat := Nat.pow_pos (by decide)
  have hexp : (k - 16).toNat + 16 + (-k).toNat = k.toNat + (-(k - 16)).toNat := by omega
  refine Nat.le_of_mul_le_mul_right ?_ hpos
  calc (Interval.around x).den * 10 ^ (k - 16).toNat * 10 ^ 16 * 10 ^ (-k).toNat
      = (Interval.around x).den * 10 ^ (k.toNat + (-(k - 16)).toNat) := by
        rw [← hexp, Nat.pow_add, Nat.pow_add, Nat.mul_assoc, Nat.mul_assoc, Nat.mul_assoc]
    _ = (Interval.around x).den * 10 ^ k.toNat * 10 ^ (-(k - 16)).toNat := by
        rw [Nat.pow_add, Nat.mul_assoc]
    _ ≤ (Interval.around x).value * 10 ^ (-k).toNat * 10 ^ (-(k - 16)).toNat :=
        Nat.mul_le_mul_right _ hk
    _ = 4 * x.significand * (2 ^ x.scale * 10 ^ (-(k - 16)).toNat) * 10 ^ (-k).toNat := by
        rw [Interval.value_around]
        ring

theorem below_cases (x : Binary64) :
    x.below = 1 ∧ x.significand = fractions ∨ x.below = 2 := by
  unfold Binary64.below
  split
  · next h => exact Or.inl ⟨rfl, h.1⟩
  · exact Or.inr rfl

/-- The nearer of the two neighbours with seventeen digits is in the interval. -/
theorem exists_neighbour?_seventeen (hx : x.magnitude ≠ 0) {k : Int}
    (hk : PowLe k (Interval.around x).value (Interval.around x).den) :
    ∃ q, ((Interval.around x).inUnits (k - 16)).neighbour? tie = some q := by
  have hden : 0 < (Interval.around x).den := by
    rw [Interval.den_around]
    exact Nat.mul_pos (by decide) (Nat.two_pow_pos _)
  have hm := x.significand_lt
  have hsub := below_lt hx
  have hone := below_cases x
  have hscaled := den_mul_le_value hk
  have hg : 0 < 2 ^ x.scale * 10 ^ (-(k - 16)).toNat :=
    Nat.mul_pos (Nat.two_pow_pos _) (Nat.pow_pos (by decide))
  have hf : fractions = 4503599627370496 := rfl
  refine Interval.exists_neighbour? ?_ ?_ ?_
  · rw [Interval.den_inUnits]
    exact Nat.mul_pos hden (Nat.pow_pos (by decide))
  · rw [Interval.low_inUnits, Interval.den_inUnits, Interval.value_inUnits, Interval.low_around,
      Interval.value_around, Nat.mul_assoc _ (2 ^ x.scale), Nat.mul_assoc _ (2 ^ x.scale)]
    clear hk hden
    generalize (Interval.around x).den * 10 ^ (k - 16).toNat = d at hscaled ⊢
    generalize 2 ^ x.scale * 10 ^ (-(k - 16)).toNat = g at hscaled hg ⊢
    generalize x.significand = m at hscaled hm hsub hone ⊢
    rw [Nat.sub_mul, Nat.mul_assoc]
    rw [Nat.mul_assoc] at hscaled
    have hmg : m * g ≤ (2 * fractions - 1) * g := Nat.mul_le_mul_right g (by omega)
    rw [hf] at hmg hone
    rcases hone with ⟨hbelow, rfl⟩ | hbelow
    · rw [hbelow]
      omega
    · have : g ≤ m * g := Nat.le_mul_of_pos_left g (by omega)
      rw [hbelow]
      omega
  · rw [Interval.high_inUnits, Interval.den_inUnits, Interval.value_inUnits, Interval.high_around,
      Interval.value_around, Nat.mul_assoc _ (2 ^ x.scale), Nat.mul_assoc _ (2 ^ x.scale)]
    clear hk hden
    generalize (Interval.around x).den * 10 ^ (k - 16).toNat = d at hscaled ⊢
    generalize 2 ^ x.scale * 10 ^ (-(k - 16)).toNat = g at hscaled hg ⊢
    generalize x.significand = m at hscaled hm hsub hone ⊢
    rw [Nat.add_mul, Nat.mul_assoc]
    rw [Nat.mul_assoc] at hscaled
    have hmg : m * g ≤ (2 * fractions - 1) * g := Nat.mul_le_mul_right g (by omega)
    rw [hf] at hmg
    omega

theorem Binary64.Rounds.of_mul {num den c : Nat} (hc : 0 < c) (h : x.Rounds (c * num) (c * den)) :
    x.Rounds num den := by
  have hnum : 4 * (c * num) = c * (4 * num) := Nat.mul_left_comm _ _ _
  have hden (m : Nat) : m * (c * den * 2 ^ x.scale) = c * (m * (den * 2 ^ x.scale)) := by ring
  obtain ⟨hlow, hhigh, hodd⟩ := h
  rw [hnum, hden] at hlow hhigh
  rw [hnum, hden, hden] at hodd
  exact ⟨Nat.le_of_mul_le_mul_left hlow hc, Nat.le_of_mul_le_mul_left hhigh hc, fun hp =>
    ⟨Nat.lt_of_mul_lt_mul_left (hodd hp).1, Nat.lt_of_mul_lt_mul_left (hodd hp).2⟩⟩

/-- Taking a trailing zero off a decimal does not change its value. -/
theorem Decimal.RoundsTo.stripped {d : Decimal} (h : d.RoundsTo x) (fuel : Nat) :
    (d.stripped fuel).RoundsTo x := by
  induction fuel generalizing d with
  | zero => exact h
  | succ fuel ih =>
    rw [Decimal.stripped]
    split
    · next hd =>
      refine ih ⟨by dsimp only; omega, ?_⟩
      have hdigits : d.digits = d.digits / 10 * 10 := by omega
      have hrounds := h.rounds
      dsimp only
      generalize Nat.pow 2 1074 = p at hrounds ⊢
      generalize d.digits / 10 = q at hdigits ⊢
      rw [hdigits] at hrounds
      rcases lt_or_ge d.exponent 0 with hneg | hpos
      · obtain ⟨e, he⟩ : ∃ e : Nat, (-d.exponent).toNat = e + 1 :=
          ⟨(-d.exponent).toNat - 1, by omega⟩
        have h₁ : d.exponent.toNat = 0 := by omega
        have h₂ : (d.exponent + 1).toNat = 0 := by omega
        have h₃ : (-(d.exponent + 1)).toNat = e := by omega
        rw [h₁, he] at hrounds
        rw [h₂, h₃]
        refine Binary64.Rounds.of_mul (c := 10) (by decide) ?_
        convert hrounds using 1 <;> ring
      · have h₁ : (d.exponent + 1).toNat = d.exponent.toNat + 1 := by omega
        have h₂ : (-d.exponent).toNat = 0 := by omega
        have h₃ : (-(d.exponent + 1)).toNat = 0 := by omega
        rw [h₂] at hrounds
        rw [h₁, h₃]
        convert hrounds using 1
        ring
    · exact h

/-! ## The shortest decimal -/

theorem exists_two_pow (n : Nat) : ∃ b : Nat, b = n + 2 ∧ 4 * Nat.pow 2 n = 2 ^ b :=
  ⟨n + 2, rfl, (two_pow_add_two n).symm⟩

theorem exists_den_around (x : Binary64) :
    ∃ b : Nat, b = 1076 ∧ (Interval.around x).den = 2 ^ b := by
  obtain ⟨b, hb, h⟩ := exists_two_pow 1074
  exact ⟨b, hb, by rw [Interval.den_around, h]⟩

/-- The decimal exponent of a number is found. -/
theorem powLe_exponent (hx : x.magnitude ≠ 0) :
    PowLe (decimalExponent 4 (Interval.around x).value (Interval.around x).den
      (guessedExponent (Interval.around x).value (Interval.around x).den))
      (Interval.around x).value (Interval.around x).den := by
  obtain ⟨b, hb, hden⟩ := exists_den_around x
  have hm := Binary64.significand_pos hx
  have hpow : 0 < 2 ^ x.scale := Nat.two_pow_pos _
  have hvalue : (Interval.around x).value ≠ 0 := by
    rw [Interval.value_around]
    exact Nat.mul_ne_zero (by omega) (by omega)
  have hlt : (Interval.around x).value < 2 ^ (55 + x.scale) := by
    rw [Interval.value_around, Nat.pow_add]
    refine Nat.mul_lt_mul_of_pos_right ?_ hpow
    have := x.significand_lt
    have hf : fractions = 4503599627370496 := rfl
    omega
  have hlog : (Interval.around x).value.log2 < 55 + x.scale := (Nat.log2_lt hvalue).mpr hlt
  have := scale_le x
  exact powLe_decimalExponent (powLe_guessedExponent hvalue hden (by omega) (by omega))

/-- The shortest decimal of a number that is not zero rounds to it. -/
theorem roundsTo_shortest (tie : Tie) (hx : x.magnitude ≠ 0) : (shortest tie x).RoundsTo x := by
  unfold shortest
  rw [if_neg hx]
  dsimp only
  generalize hk : decimalExponent 4 (Interval.around x).value (Interval.around x).den
    (guessedExponent (Interval.around x).value (Interval.around x).den) = k
  have hle : PowLe k (Interval.around x).value (Interval.around x).den := hk ▸ powLe_exponent hx
  obtain ⟨d, hd⟩ : ∃ d, firstHit (Interval.around x) k tie (16 + 1) 1 = some d := by
    refine exists_firstHit ?_
    have heq : k + 1 - ((1 + 16 : Nat) : Int) = k - 16 := by omega
    rw [heq]
    exact exists_neighbour?_seventeen hx hle
  rw [hd]
  exact (roundsTo_of_covers hx (covers_of_firstHit hd)).stripped 20

end DocGraph.Number
