import DocGraph.Proofs.Codec.Scalars
import DocGraph.Proofs.Results.ValueOrder
import DocGraph.Proofs.Timestamp.Order

/-!
# Dates and their canonical texts

Which date values are normalised, and what becomes of their canonical texts:

* `Timestamp.le_year_of_ofValue?`: no date value lies before the calendar, so the instant of one
  has a canonical text unless it lies after the calendar (`Timestamp.text?_eq_none_iff`,
  `timestampText_eq_error`), which no number does (`not_isAfterCalendar_num`);
* `IsCanonicalText`: the text of a year of four digits has the canonical form and is read as the
  instant in whole milliseconds (`exists_canonicalText`), and such texts are in the order of the
  instants (`IsCanonicalText.compare_eq`);
* `timestampText_again`: a canonical text is normalised to itself, unless its year has a sign.
-/

namespace DocGraph

open Json (Value)
open Rdf (Literal xsd)

namespace Date

/-- A day is in a year or a later one if it does not come before that year. -/
theorem le_year_ofDayNumber {n year : Int} (h : daysBeforeYear year ≤ n + epochDay) :
    year ≤ (ofDayNumber n).year := by
  by_contra hlt
  have hbefore := daysBeforeYear_succ_le (Int.not_le.mp hlt)
  have hafter := (yearOfDay_spec (n + epochDay)).2
  change daysBeforeYear (yearOfDay (n + epochDay) + 1) ≤ _ at hbefore
  omega

end Date

namespace Timestamp

variable {v : Value} {t : Timestamp} {date : Date} {cs : List Char} {offset : Int}

/-! ## The years that are read -/

/-- An offset is less than a day. -/
theorem offset?_lt (h : offset? cs = some offset) : offset < 86400 := by
  unfold offset? at h
  split at h
  · obtain ⟨-, h⟩ := Option.ite_none_right_eq_some.mp h
    cases h
    decide
  · simp only [Option.bind_eq_bind, Option.bind_eq_some_iff, Option.ite_none_left_eq_some] at h
    obtain ⟨hours, -, minutes, -, hbounds, h⟩ := h
    split at h
    · cases h
      omega
    · obtain ⟨-, h⟩ := Option.ite_none_right_eq_some.mp h
      cases h
      omega
  · cases h

/-- An offset leads back by one day at most. -/
theorem le_year_ofLocal {nanosOfDay : Int} (hd : date.isValid = true) (hyear : 0 ≤ date.year)
    (hnanos : 0 ≤ nanosOfDay) (hoffset : offset < 86400) :
    -1 ≤ (ofLocal date nanosOfDay offset).utcDate.year := by
  have hminus : Date.daysBeforeYear (-1) = -365 := by decide
  have hday : 0 ≤ date.dayNumber + Date.epochDay := by
    have hbefore := (Date.isValid_iff.mp hd).2.year_bounds.1
    unfold Date.daysBeforeYear at hbefore
    omega
  have hutc : date.dayNumber - 1 ≤ (ofLocal date nanosOfDay offset).nanos / nanosPerDay := by
    unfold ofLocal nanosPerDay nanosPerSecond
    dsimp only
    omega
  refine Date.le_year_ofDayNumber ?_
  omega

theorem le_year_ofParts? {hour minute second nanos : Nat} (hyear : 0 ≤ date.year)
    (hoffset : offset < 86400) (h : ofParts? date hour minute second nanos offset = some t) :
    -1 ≤ t.utcDate.year := by
  unfold ofParts? at h
  obtain ⟨hbounds, h⟩ := Option.ite_none_left_eq_some.mp h
  have hd : date.isValid = true := by
    by_contra hd
    exact hbounds (.inl hd)
  have hnanos : (0 : Int) < nanosPerSecond := by decide
  split at h
  · obtain ⟨-, h⟩ := Option.ite_none_right_eq_some.mp h
    cases h
    refine le_year_ofLocal hd hyear ?_ hoffset
    unfold nanosPerSecond
    omega
  · cases h
    refine le_year_ofLocal hd hyear ?_ hoffset
    unfold nanosPerSecond
    omega

theorem le_year_rfc3339? (h : rfc3339? cs = some t) : -1 ≤ t.utcDate.year := by
  unfold rfc3339? at h
  split at h
  · simp only [Option.bind_eq_bind, Option.bind_eq_some_iff, Option.ite_none_right_eq_some] at h
    obtain ⟨year, -, month, -, day, -, hour, -, minute, -, second, -, ⟨nanos, rest⟩, -, offset,
      hoffset, -, h⟩ := h
    exact le_year_ofParts? (Int.natCast_nonneg year) (offset?_lt hoffset) h
  · cases h

theorem le_year_plainDate? (h : plainDate? cs = some t) : -1 ≤ t.utcDate.year := by
  unfold plainDate? at h
  simp only [Option.bind_eq_bind, Option.bind_eq_some_iff, Option.ite_none_right_eq_some] at h
  obtain ⟨-, -, -, -, year, -, month, -, day, -, hd, h⟩ := h
  cases h
  exact le_year_ofLocal hd (Int.natCast_nonneg year) le_rfl (by decide)

/-- A date value lies in no year before those of the calendar. -/
theorem le_year_of_ofValue? (h : ofValue? v = some t) : -9999 ≤ t.utcDate.year := by
  unfold ofValue? at h
  split at h
  · next n =>
    obtain ⟨millis, -, h⟩ := Option.bind_eq_some_iff.mp h
    obtain ⟨hyear, h⟩ := Option.ite_none_right_eq_some.mp h
    obtain rfl := Option.some.inj h
    exact (Date.isYear_iff.mp hyear).1
  · next s =>
    have hyear : -1 ≤ t.utcDate.year := by
      unfold ofText? at h
      split at h
      · next heq => exact le_year_rfc3339? (h ▸ heq)
      · split at h
        · exact le_year_rfc3339? h
        · exact le_year_plainDate? h
    omega
  · cases h

/-- The instant of a date value has a canonical text unless it lies after the calendar. -/
theorem text?_eq_none_iff (h : ofValue? v = some t) : t.text? = none ↔ 9999 < t.utcDate.year := by
  have hyear := le_year_of_ofValue? h
  have hvalid : t.utcDate.isValid = true ↔ t.utcDate.year ≤ 9999 := by
    rw [Date.isValid_iff, and_iff_left t.isOfYear_utcDate, Date.isYear_iff, and_iff_right hyear]
  rw [Option.eq_none_iff_forall_ne_some, ← not_le, ← hvalid]
  exact ⟨fun hnone hd => hnone _ (text?_eq_some.mpr ⟨hd, rfl⟩),
    fun hd _ htext => hd (text?_eq_some.mp htext).1⟩

end Timestamp

namespace Scalar

open Timestamp (Civil ofValue?)

variable {v : Value} {t : Timestamp} {s path : String} {l : Literal}

/-! ## Canonical texts -/

theorem timestampText_eq_ok :
    timestampText v = .ok (some s) ↔ ∃ t, ofValue? v = some t ∧ t.text? = some s := by
  unfold timestampText
  split
  · next h => simp [h]
  · next t h =>
    split
    · next text htext => simp [h, htext]
    · next hnone => simp [h, hnone]

/-- The one way in which a date value can fail to be normalised: it lies after the calendar. -/
theorem timestampText_eq_error {e : Error} : timestampText v = .error e ↔
    e = .timestampRange ∧ ∃ t, ofValue? v = some t ∧ 9999 < t.utcDate.year := by
  unfold timestampText
  split
  · next h => simp [h]
  · next t h =>
    have hnone := Timestamp.text?_eq_none_iff h
    split
    · next text htext => simp [h, ← hnone, htext]
    · next htext => simp [h, ← hnone, htext, eq_comm]

theorem encode_date_eq_ok : encode .date path v = .ok l ↔
    ∃ s, timestampText v = .ok (some s) ∧ l = .typed s (xsd "dateTime") := by
  simp only [encode, Outcome.bind_eq_ok]
  constructor
  · rintro ⟨o, ho, h⟩
    split at h
    · next s => exact ⟨s, ho, (Except.ok.inj h).symm⟩
    · cases h
  · rintro ⟨s, hs, rfl⟩
    exact ⟨some s, hs, rfl⟩

/-- What the canonical text of a date value is. -/
structure IsCanonicalText (v : Value) (t : Timestamp) (s : String) : Prop where
  /-- The value is normalised to it. -/
  normal : timestampText v = .ok (some s)
  /-- It has the form `YYYY-MM-DDThh:mm:ss.mmmZ`, and its parts are those of the instant. -/
  form : ∃ c : Civil, c.IsValid ∧ c.WrittenAs s ∧ c.timestamp = t.wholeMillis
  /-- It is read as the instant in whole milliseconds, in UTC. -/
  read : ofValue? (.str s) = some t.wholeMillis

theorem exists_canonicalText (h : ofValue? v = some t)
    (hyear : 0 ≤ t.utcDate.year ∧ t.utcDate.year ≤ 9999) : ∃ s, IsCanonicalText v t s := by
  obtain ⟨s, hs⟩ : ∃ s, t.text? = some s := by
    rw [← Option.ne_none_iff_exists', ne_eq, Timestamp.text?_eq_none_iff h]
    exact not_lt.mpr hyear.2
  exact ⟨s, timestampText_eq_ok.mpr ⟨t, h, hs⟩, Timestamp.exists_civil hs hyear.1,
    Timestamp.ofValue?_of_text? hs hyear.1⟩

/-- Canonical texts are in the order of their instants in whole milliseconds. -/
theorem IsCanonicalText.compare_eq {v' : Value} {t' : Timestamp} {s' : String}
    (h : IsCanonicalText v t s) (h' : IsCanonicalText v' t' s') :
    compare s s' = compare t.wholeMillis.nanos t'.wholeMillis.nanos := by
  obtain ⟨c, hc, hs, ht⟩ := h.form
  obtain ⟨c', hc', hs', ht'⟩ := h'.form
  rw [Civil.compare_text hc hc' hs hs', ht, ht']

/-- Every two date values whose UTC years have no sign and four digits are normalised to texts
of the canonical form, which are read as the instants in whole milliseconds and are in the
order of these. So are arrays of them that are sorted by their texts. -/
theorem canonical_texts_keep_order {v₁ v₂ : Value} {t₁ t₂ : Timestamp}
    (h₁ : ofValue? v₁ = some t₁) (hyear₁ : 0 ≤ t₁.utcDate.year ∧ t₁.utcDate.year ≤ 9999)
    (h₂ : ofValue? v₂ = some t₂) (hyear₂ : 0 ≤ t₂.utcDate.year ∧ t₂.utcDate.year ≤ 9999) :
    ∃ s₁ s₂, IsCanonicalText v₁ t₁ s₁ ∧ IsCanonicalText v₂ t₂ s₂ ∧
      compare s₁ s₂ = compare t₁.wholeMillis.nanos t₂.wholeMillis.nanos ∧
      (notAfter (.str s₁) (.str s₂) = true ↔ t₁.wholeMillis.nanos ≤ t₂.wholeMillis.nanos) := by
  obtain ⟨s₁, hs₁⟩ := exists_canonicalText h₁ hyear₁
  obtain ⟨s₂, hs₂⟩ := exists_canonicalText h₂ hyear₂
  have hcompare := hs₁.compare_eq hs₂
  refine ⟨s₁, s₂, hs₁, hs₂, hcompare, ?_⟩
  rw [notAfter, decide_eq_true_iff, ← compare_le_iff_le, hcompare, compare_le_iff_le]

/-- An instant one ten-thousandth of a second before 18:30 UTC, written with an offset, and the
first one of a leap day. -/
theorem canonical_texts_keep_order_nineteenSixtyNine :
    ofValue? (.str "1969-12-31T23:59:59.9999+05:30") = some ⟨-19800000100000, 19800⟩ ∧
      ofValue? (.str "2024-02-29") = some ⟨1709164800000000000, 0⟩ ∧
      ∃ s₁ s₂, IsCanonicalText (.str "1969-12-31T23:59:59.9999+05:30")
          ⟨-19800000100000, 19800⟩ s₁ ∧
        IsCanonicalText (.str "2024-02-29") ⟨1709164800000000000, 0⟩ s₂ ∧
        compare s₁ s₂ = compare (-19800001000000 : Int) 1709164800000000000 ∧
        (notAfter (.str s₁) (.str s₂) = true ↔ (-19800001000000 : Int) ≤ 1709164800000000000) :=
  ⟨by decide, by decide, canonical_texts_keep_order (by decide) (by decide) (by decide) (by decide)⟩

/-! ## Canonical texts again -/

/-- Whether a value is a date of a year that is written with a sign. -/
def IsBeforeYearZero (v : Value) : Prop :=
  ∃ t, ofValue? v = some t ∧ t.utcDate.year < 0

/-- Whether a value is a date that lies after the calendar in UTC. -/
def IsAfterCalendar (v : Value) : Prop :=
  ∃ t, ofValue? v = some t ∧ 9999 < t.utcDate.year

/-- Numbers are read up to the end of the calendar. -/
theorem not_isAfterCalendar_num (n : Json.Number) : ¬IsAfterCalendar (.num n) := by
  rintro ⟨t, h, hyear⟩
  obtain ⟨millis, -, h⟩ := Option.bind_eq_some_iff.mp h
  obtain ⟨hvalid, h⟩ := Option.ite_none_right_eq_some.mp h
  obtain rfl := Option.some.inj h
  exact absurd hyear (not_lt.mpr (Date.isYear_iff.mp hvalid).2)

theorem succeeds_timestampText_iff : (timestampText v).Succeeds ↔ ¬IsAfterCalendar v := by
  cases h : timestampText v with
  | ok o =>
    refine iff_of_true (Outcome.succeeds_ok o) fun hafter => ?_
    rw [timestampText_eq_error.mpr ⟨rfl, hafter⟩] at h
    cases h
  | error e =>
    exact iff_of_false (Outcome.not_succeeds_error e)
      (not_not_intro (timestampText_eq_error.mp h).2)

/-- The canonical text of a date value is normalised to itself, unless its year has a sign: then
it is the text of no date. -/
theorem timestampText_again (h : timestampText v = .ok (some s)) :
    (¬IsBeforeYearZero v → timestampText (.str s) = .ok (some s)) ∧
      (IsBeforeYearZero v → timestampText (.str s) = .ok none) := by
  obtain ⟨t, ht, htext⟩ := timestampText_eq_ok.mp h
  have hsign : IsBeforeYearZero v ↔ t.utcDate.year < 0 := by
    simp [IsBeforeYearZero, ht]
  rw [timestampText_text htext, hsign]
  exact ⟨fun hpos => by rw [if_neg hpos], fun hneg => by rw [if_pos hneg]⟩

/-- Normalising a value fails only at dates after the calendar, which are texts. A canonical
text is normalised to itself, and what it is stored as can be stored again once it is decoded,
unless the year has a sign: then neither is a date. -/
theorem canonical_text_fixed_iff (v : Value) (path : String) :
    ((timestampText v).Succeeds ↔ ¬IsAfterCalendar v) ∧
      (∀ n, v = .num n → (timestampText v).Succeeds) ∧
      (∀ s, timestampText v = .ok (some s) →
        (¬IsBeforeYearZero v → timestampText (.str s) = .ok (some s)) ∧
          (IsBeforeYearZero v → timestampText (.str s) = .ok none)) ∧
      ∀ l, encode .date path v = .ok l → ∃ w, decode l = .ok w ∧
        (¬IsBeforeYearZero v → encode .date path w = .ok l) ∧
        (IsBeforeYearZero v →
          encode .date path w = .error (.invalidValue path (.expected .date))) := by
  refine ⟨succeeds_timestampText_iff, ?_, fun s => timestampText_again, fun l hl => ?_⟩
  · rintro n rfl
    exact succeeds_timestampText_iff.mpr (not_isAfterCalendar_num n)
  · obtain ⟨s, hs, rfl⟩ := encode_date_eq_ok.mp hl
    obtain ⟨t, -, htext⟩ := timestampText_eq_ok.mp hs
    obtain ⟨hsame, hnone⟩ := timestampText_again hs
    refine ⟨.str s, decode_date htext, fun h => ?_, fun h => ?_⟩
    · simp only [encode, hsame h, Outcome.ok_bind]
    · simp only [encode, hnone h, Outcome.ok_bind]

/-- The texts of an instant with an offset and of the last millisecond before year 0. -/
theorem canonical_text_fixed_beforeYearZero :
    timestampText (.str "1969-12-31T18:29:59.999Z") = .ok (some "1969-12-31T18:29:59.999Z") ∧
      timestampText (.str "-001-12-31T23:59:59.999Z") = .ok none ∧
      ∃ w, decode (.typed "-001-12-31T23:59:59.999Z" (xsd "dateTime")) = .ok w ∧
        encode .date "born" w = .error (.invalidValue "born" (.expected .date)) := by
  obtain ⟨-, -, hplain, -⟩ :=
    canonical_text_fixed_iff (.str "1969-12-31T23:59:59.9999+05:30") "born"
  obtain ⟨-, -, hsigned, hsaved⟩ :=
    canonical_text_fixed_iff (.num (.integer ⟨-62167219200001, by decide, by decide⟩)) "born"
  have ht : ofValue? (.str "1969-12-31T23:59:59.9999+05:30") =
    some ⟨-19800000100000, 19800⟩ := by decide
  have hneg : IsBeforeYearZero (.num (.integer ⟨-62167219200001, by decide, by decide⟩)) :=
    ⟨_, rfl, by decide⟩
  have htext : timestampText (.num (.integer ⟨-62167219200001, by decide, by decide⟩)) =
    .ok (some "-001-12-31T23:59:59.999Z") := timestampText_eq_ok.mpr ⟨_, rfl, by decide⟩
  obtain ⟨w, hw, -, hrefused⟩ := hsaved _ (encode_date_eq_ok.mpr ⟨_, htext, rfl⟩)
  refine ⟨(hplain _ (timestampText_eq_ok.mpr ⟨_, ht, by decide⟩)).1 ?_, (hsigned _ htext).2 hneg,
    w, hw, hrefused hneg⟩
  rintro ⟨t, ht', hyear⟩
  obtain rfl := Option.some.inj (ht.symm.trans ht')
  exact absurd hyear (by decide)

/-- A date after the calendar is read but has no canonical text, and the canonical text of one
before year 0 is not read. -/
theorem not_canonical_text_fixed :
    timestampText (.str "9999-12-31T23:59:59-01:00") = .error .timestampRange ∧
      ∃ s, timestampText (.num (.integer ⟨-62167219200001, by decide, by decide⟩)) =
          .ok (some s) ∧
        timestampText (.str s) = .ok none :=
  ⟨by rfl, "-001-12-31T23:59:59.999Z", by rfl, by rfl⟩

end Scalar

end DocGraph
