import DocGraph.Codec.Scalar
import DocGraph.Proofs.Number.Layouts
import DocGraph.Proofs.Outcome
import DocGraph.Proofs.Timestamp.Canonical

/-!
# Scalars and back

What a scalar is stored as (`encode_eq_ok`), and what the literal is decoded to. The
decoded value is stored as the same literal again, apart from doubles that are written
like an integer, which are read as that integer and stored as `xsd:integer`, and from
dates whose year has a sign, which are not read (`encode_decode_iff`).
-/

namespace DocGraph.Scalar

open Json (Value)
open Number (Binary64 integer? decimal?)
open Rdf (Iri Literal xsd)

variable {kind : ScalarKind} {path : String} {v : Value} {l : Literal}

/-! ## Datatypes -/

theorem kindOf_string : kindOf (xsd "string") = .string := by
  decide

theorem kindOf_boolean : kindOf (xsd "boolean") = .boolean := by
  decide

theorem kindOf_integer : kindOf (xsd "integer") = .number := by
  decide

theorem kindOf_double : kindOf (xsd "double") = .number := by
  decide

theorem kindOf_dateTime : kindOf (xsd "dateTime") = .date := by
  decide

/-- What a value of a kind is stored as. -/
theorem encode_eq_ok (h : encode kind path v = .ok l) :
    match kind with
    | .string => ∃ s, l = .plain s
    | .number => ∃ n, l = ofNumber n
    | .boolean => ∃ b, l = .ofBool b
    | .date => ∃ t text, Timestamp.text? t = some text ∧ l = .typed text (xsd "dateTime") := by
  cases kind with
  | string =>
    cases v with
    | str s => exact ⟨s, (Except.ok.inj h).symm⟩
    | num n => exact ⟨n.text, (Except.ok.inj h).symm⟩
    | bool b => exact ⟨_, (Except.ok.inj h).symm⟩
    | null | arr _ | obj _ => cases h
  | number =>
    cases v with
    | num n => exact ⟨n, (Except.ok.inj h).symm⟩
    | str s =>
      simp only [encode] at h
      split at h
      · next n _ => exact ⟨n, (Except.ok.inj h).symm⟩
      · cases h
    | null | bool _ | arr _ | obj _ => cases h
  | boolean =>
    cases v with
    | bool b => exact ⟨b, (Except.ok.inj h).symm⟩
    | str s =>
      simp only [encode] at h
      split at h
      · next b _ => exact ⟨b, (Except.ok.inj h).symm⟩
      · cases h
    | null | num _ | arr _ | obj _ => cases h
  | date =>
    simp only [encode] at h
    obtain ⟨text?, htext, h⟩ := Outcome.bind_eq_ok.mp h
    split at h
    · next text =>
      unfold timestampText at htext
      split at htext
      · cases htext
      · next t _ =>
        split at htext
        · next heq =>
          obtain rfl := Option.some.inj (Except.ok.inj htext)
          exact ⟨t, _, heq, (Except.ok.inj h).symm⟩
        · cases htext
    · cases h

/-! ## Texts and truth values -/

theorem decode_plain (s : String) : decode (.plain s) = .ok (.str s) := by
  change decodeText (kindOf (xsd "string")) s = _
  rw [kindOf_string, decodeText]

theorem decode_ofBool (b : Bool) : decode (.ofBool b) = .ok (.bool b) := by
  change decodeText (kindOf (xsd "boolean")) (if b then "true" else "false") = _
  rw [kindOf_boolean, decodeText]
  cases b <;> rfl

/-! ## Numbers -/

/-- Whether a literal is a double that is written like an integer of 64 bits with a
sign. -/
def IsIntegral (l : Literal) : Prop :=
  l.datatype = xsd "double" ∧ ∃ n, integer? (Text.trimmed l.value) = some n ∧
    -Json.signedBound ≤ n ∧ n < Json.signedBound

theorem number?_of_integer {s : String} {n : Int} (h : integer? (Text.trimmed s) = some n)
    (hlow : -Json.signedBound ≤ n) (hhigh : n < Json.signedBound) :
    ∃ hupper, number? s = some (.num (.integer ⟨n, hlow, hupper⟩)) := by
  have hupper : n < Json.unsignedBound := lt_trans hhigh (by decide)
  refine ⟨hupper, ?_⟩
  simp only [number?, h, Option.filter_some, hlow, hhigh, and_self, decide_true, if_true,
    Value.ofInt?, Json.Number.ofInt?, hupper, dif_pos, Option.map_some]

theorem number?_of_decimal {s : String} {x : Binary64} (h : decimal? (Text.trimmed s) = some x)
    (hint : ∀ n, integer? (Text.trimmed s) = some n →
      ¬(-Json.signedBound ≤ n ∧ n < Json.signedBound)) :
    number? s = some (.num (.float x)) := by
  have hfilter : ((integer? (Text.trimmed s)).filter fun n =>
      -Json.signedBound ≤ n ∧ n < Json.signedBound) = none := by
    rw [Option.filter_eq_none_iff]
    intro n hn
    simpa using hint n hn
  simp only [number?, hfilter, h, Option.map_some]

theorem ofNumber_integer {n : Json.Integer} (h : n.val < Json.signedBound) :
    ofNumber (.integer n) = .ofInt n.val := by
  simp only [ofNumber, Json.Number.signed?, h, if_true]

/-- What a number is stored as: an integer of 64 bits with a sign, or a double. -/
theorem ofNumber_cases (n : Json.Number) :
    (∃ i, -Json.signedBound ≤ i ∧ i < Json.signedBound ∧ ofNumber n = .ofInt i) ∨
      ∃ x, ofNumber n = .typed (doubleLayout.text x) (xsd "double") := by
  cases n with
  | integer n =>
    by_cases h : n.val < Json.signedBound
    · exact .inl ⟨n.val, n.lower, h, ofNumber_integer h⟩
    · refine .inr ⟨(Json.Number.integer n).toBinary64, ?_⟩
      simp only [ofNumber, Json.Number.signed?, h, if_false]
  | float x => exact .inr ⟨x, rfl⟩

/-- An integer is decoded to itself. -/
theorem decode_ofInt {i : Int} (hlow : -Json.signedBound ≤ i) (hhigh : i < Json.signedBound) :
    ∃ n : Json.Integer, n.val = i ∧ decode (.ofInt i) = .ok (.num (.integer n)) := by
  have hread : integer? (Text.trimmed (toString i)) = some i := by
    rw [Number.trimmed_of_not_isBlank fun _ h => Number.not_isBlank_of_mem_toString h,
      Number.integer?_toString]
  obtain ⟨hupper, hnumber⟩ := number?_of_integer hread hlow hhigh
  refine ⟨⟨i, hlow, hupper⟩, rfl, ?_⟩
  change decodeText (kindOf (xsd "integer")) (toString i) = _
  rw [kindOf_integer, decodeText, hnumber, Option.getD_some]

/-- A double is decoded to itself, unless it is written like an integer: then it is
decoded to that. -/
theorem decode_double (x : Binary64) :
    (∃ n : Json.Integer, n.val < Json.signedBound ∧
        decode (.typed (doubleLayout.text x) (xsd "double")) = .ok (.num (.integer n)) ∧
        IsIntegral (.typed (doubleLayout.text x) (xsd "double"))) ∨
      decode (.typed (doubleLayout.text x) (xsd "double")) = .ok (.num (.float x)) ∧
        ¬IsIntegral (.typed (doubleLayout.text x) (xsd "double")) := by
  have htrim : Text.trimmed (doubleLayout.text x) = (doubleLayout.text x).toList :=
    Number.trimmed_text doubleLayout x
  have hdecode : decode (.typed (doubleLayout.text x) (xsd "double")) =
      .ok ((number? (doubleLayout.text x)).getD (.str (doubleLayout.text x))) := by
    change decodeText (kindOf (xsd "double")) (doubleLayout.text x) = _
    rw [kindOf_double, decodeText]
  by_cases hint : IsIntegral (.typed (doubleLayout.text x) (xsd "double"))
  · obtain ⟨-, n, hn, hlow, hhigh⟩ := id hint
    obtain ⟨hupper, hnumber⟩ := number?_of_integer hn hlow hhigh
    refine .inl ⟨⟨n, hlow, hupper⟩, hhigh, ?_, hint⟩
    rw [hdecode]
    exact congrArg (fun o => Except.ok (Option.getD o _)) hnumber
  · refine .inr ⟨?_, hint⟩
    rw [hdecode, number?_of_decimal (x := x), Option.getD_some]
    · rw [htrim]
      exact Number.decimal?_text doubleLayout x
    · intro n hn hbounds
      exact hint ⟨rfl, n, hn, hbounds⟩

/-! ## Dates -/

/-- The canonical text of an instant is that of a date again, unless its year has a
sign. -/
theorem timestampText_text {t : Timestamp} {text : String} (h : t.text? = some text) :
    timestampText (.str text) = .ok (if t.utcDate.year < 0 then none else some text) := by
  have hread := Timestamp.ofValue?_text h
  unfold timestampText
  split at hread
  · next hneg => rw [hread, if_pos hneg]
  · next hpos =>
    obtain ⟨t', ht', htext⟩ := hread
    rw [ht', if_neg hpos]
    dsimp only
    rw [htext]

/-- A date is decoded to its canonical text. -/
theorem decode_date {t : Timestamp} {text : String} (h : t.text? = some text) :
    decode (.typed text (xsd "dateTime")) = .ok (.str text) := by
  change decodeText (kindOf (xsd "dateTime")) text = _
  rw [kindOf_dateTime, decodeText, timestampText_text h, Outcome.ok_bind, Outcome.pure_eq]
  split <;> rfl

/-! ## Back again -/

/-- What a scalar is stored as can be decoded. -/
theorem exists_decode (h : encode kind path v = .ok l) : ∃ w, decode l = .ok w := by
  have hl := encode_eq_ok h
  cases kind with
  | string =>
    obtain ⟨s, rfl⟩ := hl
    exact ⟨_, decode_plain s⟩
  | number =>
    obtain ⟨n, rfl⟩ := hl
    rcases ofNumber_cases n with ⟨i, hlow, hhigh, hi⟩ | ⟨x, hx⟩
    · obtain ⟨n, -, hn⟩ := decode_ofInt hlow hhigh
      exact ⟨_, hi ▸ hn⟩
    · rw [hx]
      rcases decode_double x with ⟨n, -, hn, -⟩ | ⟨hn, -⟩
      · exact ⟨_, hn⟩
      · exact ⟨_, hn⟩
  | boolean =>
    obtain ⟨b, rfl⟩ := hl
    exact ⟨_, decode_ofBool b⟩
  | date =>
    obtain ⟨t, text, ht, rfl⟩ := hl
    exact ⟨_, decode_date ht⟩

/-- The decoded value of a scalar is stored as the same literal, unless that is a
double that is written like an integer. -/
theorem encode_decode_iff (h : encode kind path v = .ok l)
    (hyear : kind = .date → l.value.toList.head? ≠ some '-') :
    ∃ w, decode l = .ok w ∧ (encode kind path w = .ok l ↔ ¬(kind = .number ∧ IsIntegral l)) := by
  have hl := encode_eq_ok h
  cases kind with
  | string =>
    obtain ⟨s, rfl⟩ := hl
    exact ⟨.str s, decode_plain s, iff_of_true rfl (fun hn => nomatch hn.1)⟩
  | number =>
    obtain ⟨n, rfl⟩ := hl
    rcases ofNumber_cases n with ⟨i, hlow, hhigh, hi⟩ | ⟨x, hx⟩
    · obtain ⟨n, rfl, hn⟩ := decode_ofInt hlow hhigh
      rw [hi]
      refine ⟨_, hn, iff_of_true ?_ fun hint => absurd hint.2.1 (by decide : xsd "integer" ≠ _)⟩
      rw [encode, ofNumber_integer hhigh]
    · rw [hx]
      rcases decode_double x with ⟨n, hn, hdecode, hint⟩ | ⟨hdecode, hint⟩
      · refine ⟨_, hdecode, iff_of_false ?_ (not_not_intro ⟨rfl, hint⟩)⟩
        rw [encode, ofNumber_integer hn, Except.ok.injEq]
        intro heq
        exact absurd (congrArg Literal.datatype heq) (by decide : xsd "integer" ≠ xsd "double")
      · exact ⟨_, hdecode, iff_of_true rfl fun hn => hint hn.2⟩
  | boolean =>
    obtain ⟨b, rfl⟩ := hl
    exact ⟨.bool b, decode_ofBool b, iff_of_true rfl (fun hn => nomatch hn.1)⟩
  | date =>
    obtain ⟨t, text, ht, rfl⟩ := hl
    refine ⟨.str text, decode_date ht, iff_of_true ?_ (fun hn => nomatch hn.1)⟩
    have hpos : ¬t.utcDate.year < 0 := fun hneg => hyear rfl (Timestamp.head?_of_neg ht hneg)
    simp only [encode, timestampText_text ht, if_neg hpos, Outcome.ok_bind]

end DocGraph.Scalar
