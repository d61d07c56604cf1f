import Mathlib.Data.List.Basic
import DocGraph.Timestamp.Reader
import DocGraph.Proofs.Number.Reading
import DocGraph.Proofs.Timestamp.Calendar

/-!
# Reading canonical timestamps

The canonical text of an instant whose UTC year has no sign is read as that instant in
whole milliseconds (`ofValue?_of_text?`), so its canonical text is the same text again.
The canonical text of a year with a sign is not read as a timestamp. Both are
`ofValue?_text`.
-/

namespace DocGraph.Timestamp

open Number (isDigit natural? ofDigits isDigit_of_mem_toDigits)

/-! ## Numbers of a fixed width -/

variable {width n : Nat}

theorem length_padded (width : Nat) (hwidth : 0 < width) (h : n < 10 ^ width) :
    (padded width n).length = width := by
  have := (Nat.length_toDigits_le_iff (by decide) hwidth).mpr h
  unfold padded
  rw [List.length_append, List.length_replicate]
  omega

theorem isDigit_of_mem_padded {c : Char} (h : c ∈ padded width n) : isDigit c = true := by
  unfold padded at h
  rcases List.mem_append.mp h with h | h
  · rw [List.eq_of_mem_replicate h]
    decide
  · exact isDigit_of_mem_toDigits h

theorem ofDigits_padded (width n : Nat) : ofDigits (padded width n) = n := by
  unfold padded
  rw [Number.ofDigits_zeros_append, Number.ofDigits_toDigits]

theorem natural?_padded (width n : Nat) : natural? (padded width n) = some n := by
  rw [Number.natural?_of_isDigit _ fun _ h => isDigit_of_mem_padded h, ofDigits_padded]
  exact List.append_ne_nil_of_right_ne_nil _ Nat.toDigits_ne_nil

theorem exists_padded_two (h : n < 100) : ∃ a b, padded 2 n = [a, b] :=
  List.length_eq_two.mp (length_padded _ (by decide) h)

theorem exists_padded_four (h : n < 10000) : ∃ a b c d, padded 4 n = [a, b, c, d] := by
  have hlength := length_padded 4 (by decide) h
  generalize padded 4 n = cs at hlength
  match cs, hlength with
  | [a, b, c, d], _ => exact ⟨a, b, c, d, rfl⟩

/-! ## Parts -/

theorem fraction?_padded (h : n < 1000) :
    fraction? ('.' :: (padded 3 n ++ ['Z'])) = some (n * 1000000, ['Z']) := by
  have hZ : isDigit 'Z' = false := by decide
  have hdigits : ∀ c ∈ padded 3 n, isDigit c = true := fun _ h => isDigit_of_mem_padded h
  have htake : (padded 3 n ++ ['Z']).takeWhile isDigit = padded 3 n := by
    rw [List.takeWhile_append_of_pos hdigits, List.takeWhile_cons_of_neg (by simp [hZ]),
      List.append_nil]
  have hdrop : (padded 3 n ++ ['Z']).dropWhile isDigit = ['Z'] := by
    rw [List.dropWhile_append_of_pos hdigits, List.dropWhile_cons_of_neg (by simp [hZ])]
  have hlength := length_padded 3 (by decide) h
  have hne : padded 3 n ≠ [] := List.ne_nil_of_length_pos (by rw [hlength]; decide)
  have hnanos : fractionNanos (padded 3 n) = n * 1000000 := by
    unfold fractionNanos
    rw [List.take_of_length_le (by rw [hlength]; decide)]
    dsimp only
    rw [hlength, ofDigits_padded]
  unfold fraction?
  simp only [htake, hdrop, hne, hnanos, if_false]

/-- The parts of a canonical text are read. -/
theorem rfc3339?_textOf {d : Date} {millis : Nat} (hyear₀ : 0 ≤ d.year) (hyear : d.year < 10000)
    (hmonth : d.month < 100) (hday : d.day < 100) (hmillis : millis < 86400000) :
    rfc3339? (textOf d millis) =
      ofParts? d (millis / 3600000) (millis / 60000 % 60) (millis / 1000 % 60)
        (millis % 1000 * 1000000) 0 := by
  obtain ⟨y₁, y₂, y₃, y₄, hy⟩ := exists_padded_four (n := d.year.toNat) (by omega)
  obtain ⟨m₁, m₂, hm⟩ := exists_padded_two hmonth
  obtain ⟨d₁, d₂, hd⟩ := exists_padded_two hday
  obtain ⟨h₁, h₂, hh⟩ := exists_padded_two (n := millis / 3600000) (by omega)
  obtain ⟨n₁, n₂, hn⟩ := exists_padded_two (n := millis / 60000 % 60) (by omega)
  obtain ⟨s₁, s₂, hs⟩ := exists_padded_two (n := millis / 1000 % 60) (by omega)
  have hfraction := fraction?_padded (n := millis % 1000) (by omega)
  have hdate : (⟨(d.year.toNat : Int), d.month, d.day⟩ : Date) = d := by
    rw [Int.toNat_of_nonneg hyear₀]
  unfold textOf yearText
  rw [if_neg (Int.not_lt.mpr hyear₀), hy, hm, hd, hh, hn, hs]
  simp only [List.cons_append, List.nil_append, rfc3339?]
  rw [← hy, ← hm, ← hd, ← hh, ← hn, ← hs]
  simp only [natural?_padded, hfraction, offset?, Option.bind_eq_bind, Option.bind_some, hdate]
  rfl

/-- The instant of a date and the milliseconds since its midnight. -/
def ofMillisOfDay (d : Date) (millis : Nat) : Timestamp :=
  ⟨d.dayNumber * nanosPerDay + millis * 1000000, 0⟩

/-- The parts of a valid date and a time of day make up an instant. -/
theorem ofParts?_millis {d : Date} {millis : Nat} (hd : d.isValid = true)
    (hmillis : millis < 86400000) :
    ofParts? d (millis / 3600000) (millis / 60000 % 60) (millis / 1000 % 60)
      (millis % 1000 * 1000000) 0 = some (ofMillisOfDay d millis) := by
  unfold ofParts?
  rw [if_neg, if_neg]
  · unfold ofLocal ofMillisOfDay nanosPerDay nanosPerSecond
    simp only [Option.some.injEq, Timestamp.mk.injEq, and_true]
    omega
  · omega
  · simp only [hd, not_true_eq_false, false_or]
    omega

/-! ## Canonical texts -/

variable {d : Date} {millis : Nat}

theorem utcDate_ofMillisOfDay (hd : d.IsOfYear) (hmillis : millis < 86400000) :
    (ofMillisOfDay d millis).utcDate = d := by
  have hday : (ofMillisOfDay d millis).nanos / nanosPerDay = d.dayNumber := by
    unfold ofMillisOfDay nanosPerDay nanosPerSecond
    dsimp only
    omega
  rw [utcDate, hday, Date.ofDayNumber_dayNumber hd]

theorem millis_ofMillisOfDay (hmillis : millis < 86400000) :
    ((ofMillisOfDay d millis).utcNanosOfDay / 1000000).toNat = millis := by
  unfold utcNanosOfDay ofMillisOfDay nanosPerDay nanosPerSecond
  dsimp only
  omega

theorem millis_lt (t : Timestamp) : (t.utcNanosOfDay / 1000000).toNat < 86400000 := by
  unfold utcNanosOfDay nanosPerDay nanosPerSecond
  omega

/-- The canonical text of a date whose year has no sign is read as its instant. -/
theorem ofText?_textOf (hd : d.isValid = true) (hyear : 0 ≤ d.year) (hmillis : millis < 86400000) :
    ofText? (textOf d millis) = some (ofMillisOfDay d millis) := by
  obtain ⟨hvalid, hone, htwelve, hday, hdays⟩ := Date.isValid_iff.mp hd
  obtain ⟨-, hlast⟩ := Date.isYear_iff.mp hvalid
  have hmonth := Date.daysInMonth_le d.year d.month
  unfold ofText?
  rw [rfc3339?_textOf hyear (by omega) (by omega) (by omega) hmillis, ofParts?_millis hd hmillis]

theorem text?_ofMillisOfDay (hd : d.isValid = true) (hmillis : millis < 86400000) :
    (ofMillisOfDay d millis).text? = some (String.ofList (textOf d millis)) := by
  obtain ⟨hyear, hofYear⟩ := Date.isValid_iff.mp hd
  unfold text?
  dsimp only
  rw [utcDate_ofMillisOfDay hofYear hmillis, millis_ofMillisOfDay hmillis, if_pos hyear]

theorem rfc3339?_minus (cs : List Char) : rfc3339? ('-' :: cs) = none := by
  unfold rfc3339?
  split
  · next heq =>
    obtain ⟨rfl, -⟩ := List.cons.inj heq
    rfl
  · rfl

/-- The canonical text of a year with a sign is not read. -/
theorem ofText?_textOf_of_neg (hyear : d.year < 0) :
    ofText? (textOf d millis) = none := by
  have hT : 'T' ∈ textOf d millis := by
    unfold textOf
    simp only [List.mem_append, List.mem_cons, true_or, or_true]
  have hminus : ∃ cs, textOf d millis = '-' :: cs := by
    unfold textOf yearText
    rw [if_pos hyear]
    exact ⟨_, rfl⟩
  obtain ⟨cs, hcs⟩ := hminus
  unfold ofText?
  rw [if_pos hT, hcs, rfc3339?_minus, List.cons_append, rfc3339?_minus]

theorem not_isBlank_of_mem_textOf {c : Char} (h : c ∈ textOf d millis) :
    Text.isBlank c = false := by
  have hpadded {width n : Nat} (hc : c ∈ padded width n) : Text.isBlank c = false :=
    Number.isBlank_of_isDigit (isDigit_of_mem_padded hc)
  have hyear (hc : c ∈ yearText d.year) : Text.isBlank c = false := by
    unfold yearText at hc
    split at hc
    · rcases List.mem_cons.mp hc with rfl | hc
      · decide
      · exact hpadded hc
    · exact hpadded hc
  unfold textOf at h
  simp only [List.mem_append, List.mem_cons, List.not_mem_nil, or_false] at h
  rcases h with ((((((h | rfl | h) | rfl | h) | rfl | h) | rfl | h) | rfl | h) | rfl | h) | rfl
  all_goals first | exact hyear h | exact hpadded h | decide

theorem ofValue?_str_textOf (d : Date) (millis : Nat) :
    ofValue? (.str (String.ofList (textOf d millis))) = ofText? (textOf d millis) := by
  unfold ofValue?
  dsimp only
  rw [Number.trimmed_of_not_isBlank, String.toList_ofList]
  rw [String.toList_ofList]
  exact fun _ hc => not_isBlank_of_mem_textOf hc

/-! ## Instants in whole milliseconds -/

variable {t : Timestamp} {s : String}

/-- The instant without what is below a millisecond, in UTC. -/
def wholeMillis (t : Timestamp) : Timestamp :=
  ⟨t.nanos / 1000000 * 1000000, 0⟩

theorem ofMillisOfDay_utc (t : Timestamp) :
    ofMillisOfDay t.utcDate (t.utcNanosOfDay / 1000000).toNat = t.wholeMillis := by
  unfold ofMillisOfDay wholeMillis utcDate utcNanosOfDay nanosPerDay nanosPerSecond
  rw [Date.dayNumber_ofDayNumber, Timestamp.mk.injEq]
  omega

theorem isOfYear_utcDate (t : Timestamp) : t.utcDate.IsOfYear :=
  Date.isOfYear_ofDayNumber _

theorem text?_eq_some : t.text? = some s ↔ t.utcDate.isValid = true ∧
    s = String.ofList (textOf t.utcDate (t.utcNanosOfDay / 1000000).toNat) := by
  unfold text?
  dsimp only
  rw [Date.isValid_iff, and_iff_left t.isOfYear_utcDate, Option.ite_none_right_eq_some,
    Option.some.injEq, eq_comm (a := s)]

/-- The canonical text of an instant whose year has no sign is read as that instant in whole
milliseconds. -/
theorem ofValue?_of_text? (h : t.text? = some s) (hyear : 0 ≤ t.utcDate.year) :
    ofValue? (.str s) = some t.wholeMillis := by
  obtain ⟨hd, rfl⟩ := text?_eq_some.mp h
  rw [ofValue?_str_textOf, ofText?_textOf hd hyear (millis_lt t), ofMillisOfDay_utc]

/-- Nothing below a millisecond is in the canonical text. -/
theorem text?_wholeMillis (h : t.text? = some s) : t.wholeMillis.text? = some s := by
  obtain ⟨hd, rfl⟩ := text?_eq_some.mp h
  rw [← ofMillisOfDay_utc, text?_ofMillisOfDay hd (millis_lt t)]

/-- The canonical text of an instant is read as an instant with the same canonical
text, unless its year has a sign, in which case it is not read. -/
theorem ofValue?_text (h : t.text? = some s) :
    if t.utcDate.year < 0 then ofValue? (.str s) = none
    else ∃ t', ofValue? (.str s) = some t' ∧ t'.text? = some s := by
  split
  · next hneg =>
    obtain ⟨-, rfl⟩ := text?_eq_some.mp h
    rw [ofValue?_str_textOf, ofText?_textOf_of_neg hneg]
  · next hpos =>
    exact ⟨_, ofValue?_of_text? h (Int.not_lt.mp hpos), text?_wholeMillis h⟩

theorem head?_of_neg (h : t.text? = some s) (hneg : t.utcDate.year < 0) :
    s.toList.head? = some '-' := by
  obtain ⟨-, rfl⟩ := text?_eq_some.mp h
  rw [String.toList_ofList]
  unfold textOf yearText
  rw [if_pos hneg]
  rfl

end DocGraph.Timestamp
