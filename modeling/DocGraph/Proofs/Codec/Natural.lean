import DocGraph.Proofs.Codec.Dates
import DocGraph.Proofs.Number.Monotone

/-!
# Values that survive encoding

A value that is natural for a kind of scalars (`IsNatural`) is stored as a literal that is
decoded to it again (`exists_encode_of_isNatural`): a text, a truth value, an integer that 64
bits hold with a sign, and the text of a date with a time of day (`Timestamp.Civil.WrittenAs`).
An integer that 64 bits hold only without a sign is stored as a double. Its text is that of an
integer too, but of none below `2 ^ 63` (`not_isIntegral_of_signedBound_le`), so it is decoded to
the nearest double (`decode_ofNumber_of_signedBound_le`).
-/

namespace DocGraph.Scalar

open Json (Value signedBound unsignedBound)
open Number (Binary64 integer? signedLimit)
open Rdf (Literal xsd)
open Timestamp (Civil)

variable {kind : ScalarKind} {v : Value} {n : Json.Integer}

/-! ## Large integers -/

theorem ofInt?_of_signedBound_le (h : signedBound ≤ n.val) :
    Binary64.ofInt? n.val = Binary64.ofRatio? false n.val.toNat 1 := by
  have hpos : 0 ≤ n.val := le_trans (by decide) h
  rw [Binary64.ofInt?, decide_eq_false (not_lt.mpr hpos), ← Int.toNat_of_nonneg hpos,
    Int.natAbs_natCast, Int.toNat_natCast]

/-- An integer of 64 bits is not too large to be rounded. -/
theorem ofRatio?_toBinary64 (h : signedBound ≤ n.val) : Binary64.ofRatio? false n.val.toNat 1 =
    some (Json.Number.integer n).toBinary64 := by
  have hbound : (Binary64.ofRatio? false (2 ^ 64) 1).isSome = true := by decide +kernel
  obtain ⟨y, hy⟩ := Option.isSome_iff_exists.mp hbound
  have hupper := n.upper
  have hle : n.val.toNat ≤ 2 ^ 64 := by
    unfold unsignedBound at hupper
    omega
  obtain ⟨x, hx⟩ : ∃ x, Binary64.ofRatio? false n.val.toNat 1 = some x :=
    Binary64.exists_ofRatio? Nat.one_pos hle hy
  rw [Json.Number.toBinary64, ofInt?_of_signedBound_le h, hx, Option.getD_some]

/-- A large integer is rounded to a number that is written like no smaller integer. -/
theorem not_isIntegral_of_signedBound_le (h : signedBound ≤ n.val) : ¬IsIntegral
    (.typed (doubleLayout.text (Json.Number.integer n).toBinary64) (xsd "double")) := by
  have hx := ofRatio?_toBinary64 h
  generalize (Json.Number.integer n).toBinary64 = x at hx ⊢
  rintro ⟨-, m, hm, -, hlt⟩
  change integer? (Text.trimmed (doubleLayout.text x)) = some m at hm
  have hpositive := (Binary64.ofRatio?_eq_some.mp hx).1
  rw [Number.trimmed_text] at hm
  obtain ⟨k, rfl, hk⟩ := Number.ofRatio?_of_integer?_text hpositive hm
  -- the integer and the written one lie on both sides of `2 ^ 63`, so both are rounded to it
  unfold signedBound at h hlt
  have hlow : signedLimit.magnitude ≤ x.magnitude :=
    Binary64.ofRatio?_mono Nat.one_pos (by omega) Number.ofRatio?_signedLimit hx
  have hhigh : x.magnitude ≤ signedLimit.magnitude :=
    Binary64.ofRatio?_mono Nat.one_pos (by omega) hk Number.ofRatio?_signedLimit
  have hlimit : x = signedLimit := by
    obtain ⟨negative, magnitude, _⟩ := x
    obtain rfl : negative = false := hpositive
    obtain rfl : magnitude = signedLimit.magnitude := le_antisymm hhigh hlow
    rfl
  have htext : integer? (doubleLayout.text signedLimit).toList = some 9223372036854776000 := by
    decide +kernel
  rw [hlimit, htext] at hm
  have := Option.some.inj hm
  omega

/-- An integer that 64 bits hold only without a sign is decoded to the nearest double. -/
theorem decode_ofNumber_of_signedBound_le (h : signedBound ≤ n.val) :
    decode (ofNumber (.integer n)) = .ok (.num (.float (Json.Number.integer n).toBinary64)) := by
  have hdouble : ofNumber (.integer n) =
      .typed (doubleLayout.text (Json.Number.integer n).toBinary64) (xsd "double") := by
    simp only [ofNumber, Json.Number.signed?, not_lt.mpr h, if_false]
  rw [hdouble]
  rcases decode_double (Json.Number.integer n).toBinary64 with ⟨_, _, _, hint⟩ | ⟨hdecode, -⟩
  · exact absurd hint (not_isIntegral_of_signedBound_le h)
  · exact hdecode

/-! ## Natural values -/

/-- The values that are natural for a kind. -/
inductive IsNatural : ScalarKind → Value → Prop where
  | text (s : String) : IsNatural .string (.str s)
  | truth (b : Bool) : IsNatural .boolean (.bool b)
  | integer (n : Json.Integer) : IsNatural .number (.num (.integer n))
  | date {c : Civil} {s : String} (hc : c.IsValid) (hs : c.WrittenAs s) : IsNatural .date (.str s)

/-- Whether a value is an integer that 64 bits hold only without a sign. -/
def IsUnsignedOnly (v : Value) : Prop :=
  ∃ n : Json.Integer, v = .num (.integer n) ∧ signedBound ≤ n.val

theorem exists_encode_of_isNatural (h : IsNatural kind v) (hv : ¬IsUnsignedOnly v)
    (path : String) : ∃ l, encode kind path v = .ok l ∧ decode l = .ok v := by
  cases h with
  | text s => exact ⟨_, rfl, decode_plain s⟩
  | truth b => exact ⟨_, rfl, decode_ofBool b⟩
  | integer n =>
    have hn : n.val < signedBound := not_le.mp fun hn => hv ⟨n, rfl, hn⟩
    obtain ⟨n', hval, hdecode⟩ := decode_ofInt n.lower hn
    obtain rfl : n' = n := by
      cases n
      cases n'
      cases hval
      rfl
    exact ⟨.ofInt n'.val, congrArg Except.ok (ofNumber_integer hn), hdecode⟩
  | date hc hs =>
    have htext := Civil.text?_timestamp hc hs
    have hnormal : timestampText (.str _) = .ok (some _) :=
      timestampText_eq_ok.mpr ⟨_, Civil.ofValue?_of_writtenAs hc hs, htext⟩
    exact ⟨_, encode_date_eq_ok.mpr ⟨_, hnormal, rfl⟩, decode_date htext⟩

/-- A natural value is encoded, and decoded to itself again, unless it is an integer that 64 bits
hold only without a sign: then it is decoded to the nearest double. -/
theorem natural_values_survive_iff (h : IsNatural kind v) (path : String) :
    ∃ l w, encode kind path v = .ok l ∧ decode l = .ok w ∧ (w = v ↔ ¬IsUnsignedOnly v) ∧
      ∀ n, v = .num (.integer n) → signedBound ≤ n.val →
        w = .num (.float (Json.Number.integer n).toBinary64) := by
  by_cases hv : IsUnsignedOnly v
  · obtain ⟨n, rfl, hn⟩ := hv
    obtain ⟨⟩ := h
    refine ⟨ofNumber (.integer n), _, rfl, decode_ofNumber_of_signedBound_le hn,
      iff_of_false (fun heq => ?_) (not_not_intro ⟨n, rfl, hn⟩), fun n' heq _ => ?_⟩
    · cases Value.num.inj heq
    · cases heq
      rfl
  · obtain ⟨l, hl, hdecode⟩ := exists_encode_of_isNatural h hv path
    exact ⟨l, v, hl, hdecode, iff_of_true rfl hv, fun n heq hn => absurd ⟨n, heq, hn⟩ hv⟩

/-- The last millisecond of a leap day. -/
theorem natural_values_survive_leapDay :
    IsNatural .date (.str "2024-02-29T23:59:59.999Z") ∧
      ∃ l w, encode .date "born" (.str "2024-02-29T23:59:59.999Z") = .ok l ∧
        decode l = .ok w ∧ w = .str "2024-02-29T23:59:59.999Z" := by
  let c : Civil := ⟨2024, 2, 29, 23, 59, 59, 999⟩
  have hc : c.IsValid := ⟨by decide, by decide, by decide, by decide, by decide⟩
  have hnatural : IsNatural .date (.str "2024-02-29T23:59:59.999Z") :=
    .date hc ((Civil.writtenAs_iff hc).mpr (by decide))
  obtain ⟨l, w, hl, hw, hsame, -⟩ := natural_values_survive_iff hnatural "born"
  refine ⟨hnatural, l, w, hl, hw, hsame.mpr ?_⟩
  rintro ⟨n, h, -⟩
  cases h

/-- The largest integer that 64 bits hold without a sign is stored as a double. -/
theorem not_natural_values_survive :
    IsNatural .number (.num (.integer ⟨18446744073709551615, by decide, by decide⟩)) ∧
      ¬∃ l, encode .number "age"
          (.num (.integer ⟨18446744073709551615, by decide, by decide⟩)) = .ok l ∧
        decode l = .ok (.num (.integer ⟨18446744073709551615, by decide, by decide⟩)) := by
  refine ⟨.integer _, ?_⟩
  rintro ⟨l, hl, hdecode⟩
  obtain rfl := Except.ok.inj hl
  rw [decode_ofNumber_of_signedBound_le (by decide)] at hdecode
  cases Value.num.inj (Except.ok.inj hdecode)

end DocGraph.Scalar
