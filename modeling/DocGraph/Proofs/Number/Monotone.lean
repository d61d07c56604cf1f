import DocGraph.Proofs.Number.Layouts
import Mathlib.Data.Nat.Log

/-!
# Rounding keeps the order

A larger fraction is not rounded to a smaller number (`Binary64.ofRatio?_mono`): inside one
exponent because quotients are rounded in order (`roundDiv_mono`), and from one exponent to the
next because the significands of each end where those of the next begin. Numbers that are
written like a natural number are what that number is rounded to
(`ofRatio?_of_integer?_text`).
-/

namespace DocGraph.Number

variable {num num' den m : Nat}

/-! ## Quotients -/

theorem roundDiv_le (hden : 0 < den) (h : num ≤ m * den) : roundDiv num den ≤ m := by
  have hdiv : num / den ≤ m := Nat.div_le_of_le_mul (by rwa [Nat.mul_comm])
  have hsum : den * (num / den) + num % den = num := Nat.div_add_mod num den
  unfold roundDiv
  dsimp only
  rcases hdiv.eq_or_lt with heq | hlt
  · -- nothing is left to be rounded up
    rw [heq, Nat.mul_comm] at hsum
    rw [if_neg (by omega), heq]
  · split <;> omega

theorem le_roundDiv (hden : 0 < den) (h : m * den ≤ num) : m ≤ roundDiv num den := by
  have hdiv : m ≤ num / den := (Nat.le_div_iff_mul_le hden).mpr h
  unfold roundDiv
  dsimp only
  split <;> omega

/-- Quotients are rounded in order. -/
theorem roundDiv_mono (h : num ≤ num') : roundDiv num den ≤ roundDiv num' den := by
  have hdiv : num / den ≤ num' / den := Nat.div_le_div_right h
  have hsum : den * (num / den) + num % den = num := Nat.div_add_mod num den
  have hsum' : den * (num' / den) + num' % den = num' := Nat.div_add_mod num' den
  unfold roundDiv
  dsimp only
  rcases hdiv.eq_or_lt with heq | hlt
  · rw [heq] at hsum ⊢
    split <;> split <;> omega
  · split <;> split <;> omega

namespace Binary64

/-- The exponent at which a fraction of units is rounded. -/
def exponentOf (num den : Nat) : Nat :=
  (num / den).log2 - 52

/-- The fields of the number nearest to a fraction of units. -/
def nearest (num den : Nat) : Nat :=
  exponentOf num den * fractions + roundDiv num (den * 2 ^ exponentOf num den)

theorem ofRatio?_eq_some {negative : Bool} {x : Binary64} :
    ofRatio? negative num den = some x ↔
      x.negative = negative ∧ x.magnitude = nearest (num * Nat.pow 2 1074) den := by
  obtain ⟨sign, magnitude, hlt⟩ := x
  unfold ofRatio?
  generalize num * Nat.pow 2 1074 = units
  change (if h : nearest units den < overflow then some (Binary64.mk negative _ h) else none) = _ ↔
    _
  generalize nearest units den = nearest
  split
  · next h => simp [eq_comm]
  · next h =>
    refine iff_of_false (Option.some_ne_none _).symm fun hx => h ?_
    rw [← hx.2]
    exact hlt

theorem exponentOf_mono (h : num ≤ num') : exponentOf num den ≤ exponentOf num' den := by
  unfold exponentOf
  rw [Nat.log2_eq_log_two, Nat.log2_eq_log_two]
  exact Nat.sub_le_sub_right (Nat.log_mono_right (Nat.div_le_div_right h)) 52

/-- A significand has 53 bits, or goes over to the next exponent. -/
theorem roundDiv_le_two_fractions (num : Nat) (hden : 0 < den) :
    roundDiv num (den * 2 ^ exponentOf num den) ≤ 2 * fractions := by
  refine roundDiv_le (Nat.mul_pos hden (Nat.two_pow_pos _)) ?_
  have hlog : num / den < 2 ^ ((num / den).log2 + 1) := Nat.lt_log2_self
  have hpow : 2 ^ ((num / den).log2 + 1) ≤ 2 ^ (53 + exponentOf num den) :=
    Nat.pow_le_pow_right (by decide) (by unfold exponentOf; omega)
  have hlt := (Nat.div_lt_iff_lt_mul hden).mp (hlog.trans_le hpow)
  rw [Nat.pow_add] at hlt
  calc num ≤ 2 ^ 53 * 2 ^ exponentOf num den * den := hlt.le
    _ = 2 * fractions * (den * 2 ^ exponentOf num den) := by
      rw [show 2 * fractions = 2 ^ 53 from rfl, Nat.mul_assoc, Nat.mul_comm den]

/-- A significand with an exponent has its leading bit. -/
theorem fractions_le_roundDiv (hden : 0 < den) (h : 0 < exponentOf num den) :
    fractions ≤ roundDiv num (den * 2 ^ exponentOf num den) := by
  refine le_roundDiv (Nat.mul_pos hden (Nat.two_pow_pos _)) ?_
  have hlog : (num / den).log2 = 52 + exponentOf num den := by
    unfold exponentOf at h ⊢
    omega
  have hne : num / den ≠ 0 := by
    rintro hzero
    rw [hzero] at hlog
    have : Nat.log2 0 = 0 := rfl
    omega
  have hle := Nat.log2_self_le hne
  rw [hlog] at hle
  calc fractions * (den * 2 ^ exponentOf num den)
      = 2 ^ (52 + exponentOf num den) * den := (two_pow_mul_eq den _).symm
    _ ≤ num := (Nat.le_div_iff_mul_le hden).mp hle

/-- A larger fraction of units has no smaller fields. -/
theorem nearest_mono (hden : 0 < den) (h : num ≤ num') : nearest num den ≤ nearest num' den := by
  unfold nearest
  have hexponents : exponentOf num den ≤ exponentOf num' den := exponentOf_mono h
  rcases hexponents.eq_or_lt with heq | hlt
  · rw [heq]
    exact Nat.add_le_add_left (roundDiv_mono h) _
  · have hhigh := roundDiv_le_two_fractions num hden
    have hlow := fractions_le_roundDiv hden (Nat.zero_lt_of_lt hlt)
    have hexponent : (exponentOf num den + 1) * fractions ≤ exponentOf num' den * fractions :=
      Nat.mul_le_mul_right fractions hlt
    rw [Nat.add_mul, Nat.one_mul] at hexponent
    omega

/-- A larger fraction is not rounded to a smaller number. -/
theorem ofRatio?_mono {negative negative' : Bool} {x y : Binary64} (hden : 0 < den)
    (h : num ≤ num') (hx : ofRatio? negative num den = some x)
    (hy : ofRatio? negative' num' den = some y) : x.magnitude ≤ y.magnitude := by
  rw [(ofRatio?_eq_some.mp hx).2, (ofRatio?_eq_some.mp hy).2]
  exact nearest_mono hden (Nat.mul_le_mul_right _ h)

/-- A fraction that is not larger than one of a number is that of a number. -/
theorem exists_ofRatio? {negative negative' : Bool} {y : Binary64} (hden : 0 < den)
    (h : num ≤ num') (hy : ofRatio? negative' num' den = some y) :
    ∃ x, ofRatio? negative num den = some x := by
  have hle := nearest_mono hden (Nat.mul_le_mul_right (Nat.pow 2 1074) h)
  rw [← (ofRatio?_eq_some.mp hy).2] at hle
  exact ⟨⟨negative, _, hle.trans_lt y.magnitude_lt⟩, ofRatio?_eq_some.mpr ⟨rfl, rfl⟩⟩

end Binary64

/-! ## Numbers that are written like an integer -/

/-- A text of digits only is read as the number nearest to theirs. -/
theorem ofRatio?_of_natural? {cs : List Char} {k : Nat} {x : Binary64} (hk : natural? cs = some k)
    (hx : decimal? cs = some x) : Binary64.ofRatio? false k 1 = some x := by
  obtain ⟨⟨hne, hdigits⟩, hvalue⟩ := Option.ite_none_right_eq_some.mp hk
  have hread : decimal? (signed false (cs ++ [])) = ofDecimal? false (ofDigits cs) 0 :=
    decimal?_digits hne (List.all_eq_true.mp hdigits) nofun rfl
  rw [List.append_nil, Option.some.inj hvalue] at hread
  change decimal? cs = _ at hread
  rw [hread] at hx
  unfold ofDecimal? at hx
  dsimp only at hx
  split at hx
  · next hzero =>
    obtain rfl : k = 0 := by omega
    rw [← hx]
    decide +kernel
  · rw [Option.ite_none_left_eq_some] at hx
    simpa using hx.2

/-- A positive number that is written like an integer is what that integer is rounded to. -/
theorem ofRatio?_of_integer?_text {layout : Layout} {x : Binary64} {n : Int}
    (hx : x.negative = false) (h : integer? (layout.text x).toList = some n) :
    ∃ k : Nat, n = k ∧ Binary64.ofRatio? false k 1 = some x := by
  have hread := decimal?_text layout x
  obtain ⟨body, hbody, c, rest, rfl, hc⟩ := layout.exists_beginsWithDigit x
  rw [hbody, hx] at h hread
  change integer? (c :: rest) = _ at h
  unfold integer? at h
  rw [takeSign_of_isDigit hc] at h
  simp only [Option.map_eq_some_iff, Option.bind_eq_bind, Option.bind_eq_some_iff, Option.pure_def,
    Option.some.injEq, Bool.false_eq_true, if_false] at h
  obtain ⟨_, ⟨k, hk, rfl⟩, rfl⟩ := h
  exact ⟨k, rfl, ofRatio?_of_natural? hk hread⟩

/-- The number `2 ^ 63`. -/
def signedLimit : Binary64 :=
  ⟨false, 1086 * fractions, by decide⟩

theorem ofRatio?_signedLimit : Binary64.ofRatio? false (2 ^ 63) 1 = some signedLimit := by
  decide +kernel

end DocGraph.Number
