import DocGraph.Proofs.Timestamp.Canonical
import Mathlib.Data.String.Basic

/-!
# The order of canonical timestamps

A canonical text is made of a date and a time of day (`Civil`), each part in digits of
its own width (`Civil.WrittenAs`):

* `compare_foldl_digits`: digits of one width are in the order of their numbers, so a
  number is written in a width in one way (`Spells.eq_padded`);
* `Civil.WrittenAs.compare_eq` and `Civil.compare_nanos`: the texts and the instants of
  dates with a time of day are both in the order of their parts, the year first;
* `Civil.compare_text`: so the texts are in the order of the instants.

The texts of this form are the canonical ones of the instants whose year has no sign
(`Civil.text?_timestamp`, `exists_civil`).
-/

namespace DocGraph

/-! ## Comparing texts -/

theorem compare_eq_lt_iff {cs ds : List Char} : compare cs ds = .lt ↔ cs < ds := by
  induction cs generalizing ds with
  | nil => cases ds <;> simp
  | cons c cs ih =>
    cases ds with
    | nil => simp
    | cons d ds =>
      rw [List.compare_cons_cons, Ordering.then_eq_lt, ih, List.cons_lt_cons_iff,
        compare_lt_iff_lt, compare_eq_iff_eq]

/-- Texts are compared character by character. -/
theorem compare_toList (s t : String) : compare s t = compare s.toList t.toList := by
  rcases lt_trichotomy s t with h | rfl | h
  · rw [compare_lt_iff_lt.mpr h, compare_eq_lt_iff.mpr (String.lt_iff_toList_lt.mp h)]
  · rw [Std.ReflOrd.compare_self, Std.ReflOrd.compare_self]
  · rw [compare_gt_iff_gt.mpr h, Std.OrientedOrd.eq_swap,
      compare_eq_lt_iff.mpr (String.lt_iff_toList_lt.mp h), Ordering.swap_lt]

/-- Texts that begin with parts of one length are compared by these first. -/
theorem compare_append {as bs cs ds : List Char} (h : as.length = bs.length) :
    compare (as ++ cs) (bs ++ ds) = (compare as bs).then (compare cs ds) := by
  induction as generalizing bs with
  | nil =>
    rw [List.length_eq_zero_iff.mp h.symm, Std.ReflOrd.compare_self, Ordering.eq_then]
    rfl
  | cons a as ih =>
    cases bs with
    | nil => cases h
    | cons b bs =>
      rw [List.cons_append, List.cons_append, List.compare_cons_cons, List.compare_cons_cons,
        ih (Nat.succ.inj h), Ordering.then_assoc]

namespace Timestamp

open Number (isDigit ofDigits)

/-! ## Digits -/

theorem toNat_of_isDigit {c : Char} (h : isDigit c = true) : 48 ≤ c.toNat ∧ c.toNat ≤ 57 := by
  rwa [Number.isDigit_eq, Char.isDigit_iff_toNat] at h

/-- Digits of one width are in the order of their numbers, and so are the numbers that go on
with them. -/
theorem compare_foldl_digits {cs ds : List Char} (hlength : cs.length = ds.length)
    (hcs : ∀ c ∈ cs, isDigit c = true) (hds : ∀ d ∈ ds, isDigit d = true) (m n : Nat) :
    compare (cs.foldl (fun n c => 10 * n + (c.toNat - 48)) m)
        (ds.foldl (fun n c => 10 * n + (c.toNat - 48)) n) =
      (compare m n).then (compare cs ds) := by
  induction cs generalizing ds m n with
  | nil =>
    rw [List.length_eq_zero_iff.mp hlength.symm, Std.ReflOrd.compare_self, Ordering.then_eq]
    rfl
  | cons c cs ih =>
    cases ds with
    | nil => cases hlength
    | cons d ds =>
      obtain ⟨hc, hcs⟩ := List.forall_mem_cons.mp hcs
      obtain ⟨hd, hds⟩ := List.forall_mem_cons.mp hds
      have hc := toNat_of_isDigit hc
      have hd := toNat_of_isDigit hd
      have hdigit : compare (10 * m + (c.toNat - 48)) (10 * n + (d.toNat - 48)) =
          (compare m n).then (compare c d) := by
        refine compare_eq_then (fun _ => by omega) (fun _ => by omega) fun heq => ?_
        refine compare_congr (fun hlt => ?_) (fun hgt => ?_) fun hchar => by rw [heq, hchar]
        · have : c.toNat < d.toNat := hlt
          omega
        · have : d.toNat < c.toNat := hgt
          omega
      rw [List.foldl_cons, List.foldl_cons, ih (Nat.succ.inj hlength) hcs hds, hdigit,
        Ordering.then_assoc, List.compare_cons_cons]

/-- Whether digits of a width stand for a number. -/
structure Spells (width n : Nat) (cs : List Char) : Prop where
  length : cs.length = width
  isDigit : ∀ c ∈ cs, isDigit c = true
  value : ofDigits cs = n

variable {width m n : Nat} {cs ds : List Char}

theorem spells_padded (hwidth : 0 < width) (h : n < 10 ^ width) :
    Spells width n (padded width n) :=
  ⟨length_padded width hwidth h, fun _ => isDigit_of_mem_padded, ofDigits_padded width n⟩

theorem Spells.compare_eq (hcs : Spells width m cs) (hds : Spells width n ds) :
    compare cs ds = compare m n := by
  have hlength := hcs.length.trans hds.length.symm
  have hdigits := compare_foldl_digits hlength hcs.isDigit hds.isDigit 0 0
  rw [Std.ReflOrd.compare_self, Ordering.eq_then] at hdigits
  rw [← hdigits, ← hcs.value, ← hds.value]
  rfl

/-- A number is written in a width in one way. -/
theorem Spells.eq_padded (hwidth : 0 < width) (hn : n < 10 ^ width) (h : Spells width n cs) :
    cs = padded width n := by
  rw [← Std.LawfulEqOrd.compare_eq_iff_eq (α := List Char), h.compare_eq (spells_padded hwidth hn)]
  exact Std.ReflOrd.compare_self

/-- Numbers of one width with a separator after them are compared before what follows. -/
theorem Spells.compare_append (hcs : Spells width m cs) (hds : Spells width n ds)
    (separator : Char) (rest rest' : List Char) :
    compare (cs ++ separator :: rest) (ds ++ separator :: rest') =
      (compare m n).then (compare rest rest') := by
  rw [DocGraph.compare_append (hcs.length.trans hds.length.symm), hcs.compare_eq hds,
    List.compare_cons_cons, Std.ReflOrd.compare_self, Ordering.eq_then]

/-! ## A date and a time of day -/

/-- A date and a time of day, in UTC. -/
structure Civil where
  year : Nat
  month : Nat
  day : Nat
  hour : Nat
  minute : Nat
  second : Nat
  millis : Nat

namespace Civil

def date (c : Civil) : Date :=
  ⟨c.year, c.month, c.day⟩

/-- The milliseconds since midnight. -/
def millisOfDay (c : Civil) : Nat :=
  ((c.hour * 60 + c.minute) * 60 + c.second) * 1000 + c.millis

def timestamp (c : Civil) : Timestamp :=
  ofMillisOfDay c.date c.millisOfDay

/-- A date of the calendar and a time up to 23:59:59.999. -/
structure IsValid (c : Civil) : Prop where
  date : c.date.isValid = true
  hour : c.hour < 24
  minute : c.minute < 60
  second : c.second < 60
  millis : c.millis < 1000

/-- Whether a text is that of a date and a time of day in the form
`YYYY-MM-DDThh:mm:ss.mmmZ`. -/
inductive WrittenAs (c : Civil) : String → Prop where
  | ofDigits {year month day hour minute second millis : List Char}
      (hyear : Spells 4 c.year year) (hmonth : Spells 2 c.month month)
      (hday : Spells 2 c.day day) (hhour : Spells 2 c.hour hour)
      (hminute : Spells 2 c.minute minute) (hsecond : Spells 2 c.second second)
      (hmillis : Spells 3 c.millis millis) :
      c.WrittenAs (String.ofList (year ++ '-' :: (month ++ '-' :: (day ++ 'T' ::
        (hour ++ ':' :: (minute ++ ':' :: (second ++ '.' :: (millis ++ ['Z']))))))))

variable {c e : Civil} {s t : String}

/-- The parts in the order in which they count. -/
def compareParts (c e : Civil) : Ordering :=
  (compare c.year e.year).then ((compare c.month e.month).then ((compare c.day e.day).then
    ((compare c.hour e.hour).then ((compare c.minute e.minute).then
      ((compare c.second e.second).then (compare c.millis e.millis))))))

theorem WrittenAs.compare_eq (hc : c.WrittenAs s) (he : e.WrittenAs t) :
    compare s t = c.compareParts e := by
  obtain ⟨hyear, hmonth, hday, hhour, hminute, hsecond, hmillis⟩ := hc
  obtain ⟨hyear', hmonth', hday', hhour', hminute', hsecond', hmillis'⟩ := he
  rw [compare_toList, String.toList_ofList, String.toList_ofList, hyear.compare_append hyear',
    hmonth.compare_append hmonth', hday.compare_append hday', hhour.compare_append hhour',
    hminute.compare_append hminute', hsecond.compare_append hsecond',
    hmillis.compare_append hmillis', Std.ReflOrd.compare_self, Ordering.then_eq]
  rfl

theorem IsValid.millisOfDay_lt (h : c.IsValid) : c.millisOfDay < 86400000 := by
  obtain ⟨-, hhour, hminute, hsecond, hmillis⟩ := h
  unfold millisOfDay
  omega

/-- The parts of the time of day, from the milliseconds since midnight. -/
theorem compare_millisOfDay (hc : c.IsValid) (he : e.IsValid) :
    compare c.millisOfDay e.millisOfDay =
      (compare c.hour e.hour).then ((compare c.minute e.minute).then
        ((compare c.second e.second).then (compare c.millis e.millis))) := by
  obtain ⟨-, -, hminute, hsecond, hmillis⟩ := hc
  obtain ⟨-, -, hminute', hsecond', hmillis'⟩ := he
  unfold millisOfDay
  refine compare_eq_then (fun _ => by omega) (fun _ => by omega) fun hhour => ?_
  refine compare_eq_then (fun _ => by omega) (fun _ => by omega) fun hminute => ?_
  refine compare_eq_then (fun _ => by omega) (fun _ => by omega) fun hsecond => ?_
  exact compare_congr (fun _ => by omega) (fun _ => by omega) fun _ => by omega

theorem compare_nanos (hc : c.IsValid) (he : e.IsValid) :
    compare c.timestamp.nanos e.timestamp.nanos = c.compareParts e := by
  have hlt := hc.millisOfDay_lt
  have hlt' := he.millisOfDay_lt
  have hdate := (Date.isValid_iff.mp hc.date).2
  have hdate' := (Date.isValid_iff.mp he.date).2
  have hday : compare c.timestamp.nanos e.timestamp.nanos =
      (compare c.date.dayNumber e.date.dayNumber).then
        (compare c.millisOfDay e.millisOfDay) := by
    unfold timestamp ofMillisOfDay nanosPerDay nanosPerSecond
    dsimp only
    refine compare_eq_then (fun _ => by omega) (fun _ => by omega) fun hday => ?_
    exact compare_congr (fun _ => by omega) (fun _ => by omega) fun _ => by omega
  have hyear : compare (c.year : Int) (e.year : Int) = compare c.year e.year :=
    compare_congr Int.ofNat_lt.mpr Int.ofNat_lt.mpr (congrArg _)
  rw [hday, compare_millisOfDay hc he, Date.compare_dayNumber hdate hdate', Ordering.then_assoc,
    Ordering.then_assoc]
  change (compare (c.year : Int) (e.year : Int)).then _ = _
  rw [hyear]
  rfl

/-- Texts of dates with a time of day are in the order of their instants. -/
theorem compare_text (hc : c.IsValid) (he : e.IsValid) (hs : c.WrittenAs s) (ht : e.WrittenAs t) :
    compare s t = compare c.timestamp.nanos e.timestamp.nanos := by
  rw [hs.compare_eq ht, compare_nanos hc he]

/-! ## Canonical texts -/

/-- The canonical text, part by part. -/
theorem textOf_date (hc : c.IsValid) : textOf c.date c.millisOfDay =
    padded 4 c.year ++ '-' :: (padded 2 c.month ++ '-' :: (padded 2 c.day ++ 'T' ::
      (padded 2 c.hour ++ ':' :: (padded 2 c.minute ++ ':' :: (padded 2 c.second ++ '.' ::
        (padded 3 c.millis ++ ['Z'])))))) := by
  obtain ⟨-, -, hminute, hsecond, hmillis⟩ := hc
  have hhour : c.millisOfDay / 3600000 = c.hour := by
    unfold millisOfDay
    omega
  have hminute : c.millisOfDay / 60000 % 60 = c.minute := by
    unfold millisOfDay
    omega
  have hsecond : c.millisOfDay / 1000 % 60 = c.second := by
    unfold millisOfDay
    omega
  have hmillis : c.millisOfDay % 1000 = c.millis := by
    unfold millisOfDay
    omega
  have hyear : yearText c.date.year = padded 4 c.year :=
    if_neg (Int.not_lt.mpr (Int.natCast_nonneg _))
  unfold textOf
  rw [hyear, hhour, hminute, hsecond, hmillis]
  simp only [List.append_assoc, List.cons_append]
  rfl

/-- A date with a time of day is written in one way, which is the canonical text. -/
theorem writtenAs_iff (hc : c.IsValid) :
    c.WrittenAs s ↔ s = String.ofList (textOf c.date c.millisOfDay) := by
  obtain ⟨hvalid, -, hmonth, -, hday⟩ := Date.isValid_iff.mp hc.date
  have hlast := Date.daysInMonth_le c.date.year c.date.month
  have hyear : c.year < 10 ^ 4 := by
    have hle : (c.year : Int) ≤ 9999 := (Date.isYear_iff.mp hvalid).2
    omega
  have hmonth : c.month < 10 ^ 2 := lt_of_le_of_lt hmonth (by decide)
  have hday : c.day < 10 ^ 2 := lt_of_le_of_lt (hday.trans hlast) (by decide)
  have hhour : c.hour < 10 ^ 2 := hc.hour.trans (by decide)
  have hminute : c.minute < 10 ^ 2 := hc.minute.trans (by decide)
  have hsecond : c.second < 10 ^ 2 := hc.second.trans (by decide)
  rw [textOf_date hc]
  constructor
  · rintro ⟨hY, hM, hD, hh, hm, hs, hf⟩
    rw [hY.eq_padded (by decide) hyear, hM.eq_padded (by decide) hmonth,
      hD.eq_padded (by decide) hday, hh.eq_padded (by decide) hhour,
      hm.eq_padded (by decide) hminute, hs.eq_padded (by decide) hsecond,
      hf.eq_padded (by decide) hc.millis]
  · rintro rfl
    exact .ofDigits (spells_padded (by decide) hyear) (spells_padded (by decide) hmonth)
      (spells_padded (by decide) hday) (spells_padded (by decide) hhour)
      (spells_padded (by decide) hminute) (spells_padded (by decide) hsecond)
      (spells_padded (by decide) hc.millis)

/-- The text of a date with a time of day is the canonical one of its instant. -/
theorem text?_timestamp (hc : c.IsValid) (h : c.WrittenAs s) : c.timestamp.text? = some s := by
  rw [(writtenAs_iff hc).mp h]
  exact text?_ofMillisOfDay hc.date hc.millisOfDay_lt

/-- The text of a date with a time of day is read as its instant. -/
theorem ofValue?_of_writtenAs (hc : c.IsValid) (h : c.WrittenAs s) :
    ofValue? (.str s) = some c.timestamp := by
  rw [(writtenAs_iff hc).mp h, ofValue?_str_textOf]
  exact ofText?_textOf hc.date (Int.natCast_nonneg _) hc.millisOfDay_lt

end Civil

/-- The canonical text of an instant whose year has no sign is that of a date and a time of
day, which are those of the instant in whole milliseconds. -/
theorem exists_civil {t : Timestamp} {s : String} (h : t.text? = some s)
    (hyear : 0 ≤ t.utcDate.year) :
    ∃ c : Civil, c.IsValid ∧ c.WrittenAs s ∧ c.timestamp = t.wholeMillis := by
  obtain ⟨hd, rfl⟩ := text?_eq_some.mp h
  have hmillis := millis_lt t
  have hwhole := ofMillisOfDay_utc t
  generalize (t.utcNanosOfDay / 1000000).toNat = millis at hmillis hwhole ⊢
  let c : Civil := ⟨t.utcDate.year.toNat, t.utcDate.month, t.utcDate.day, millis / 3600000,
    millis / 60000 % 60, millis / 1000 % 60, millis % 1000⟩
  have hdate : c.date = t.utcDate := by
    change Date.mk _ _ _ = _
    rw [Int.toNat_of_nonneg hyear]
  have hofDay : c.millisOfDay = millis := by
    change ((millis / 3600000 * 60 + millis / 60000 % 60) * 60 + millis / 1000 % 60) * 1000 +
      millis % 1000 = millis
    omega
  have hc : c.IsValid := by
    refine ⟨hdate ▸ hd, ?_, Nat.mod_lt _ (by decide), Nat.mod_lt _ (by decide),
      Nat.mod_lt _ (by decide)⟩
    change millis / 3600000 < 24
    omega
  refine ⟨c, hc, ?_, ?_⟩
  · rw [Civil.writtenAs_iff hc, hdate, hofDay]
  · rw [Civil.timestamp, hdate, hofDay, hwhole]

end Timestamp

end DocGraph
