import DocGraph.Proofs.Number.Reading

/-!
# Reading numbers in any layout

Whatever a layout decides, the text of a number is read as its shortest decimal, with zeros
after its digits at most (`decimal?_positionalText`, `decimal?_scientificText`). Such a
decimal is read as the number (`ofDecimal?_shortest`), so in every layout a number reads back
(`decimal?_text`) and different numbers have different texts (`Layout.text_injective`).
-/

namespace DocGraph.Number

variable {x : Binary64}

/-! ## Zeros after the digits -/

theorem Binary64.Rounds.mul {num den : Nat} (c : Nat) (hc : 0 < c) (h : x.Rounds num den) :
    x.Rounds (c * num) (c * den) := by
  have hnum : 4 * (c * num) = c * (4 * num) := Nat.mul_left_comm _ _ _
  have hden (m : Nat) : m * (c * den * 2 ^ x.scale) = c * (m * (den * 2 ^ x.scale)) := by ring
  constructor
  · rw [hnum, hden]
    exact Nat.mul_le_mul_left c h.low
  · rw [hnum, hden]
    exact Nat.mul_le_mul_left c h.high
  · intro hodd
    rw [hnum, hden, hden]
    exact ⟨Nat.mul_lt_mul_of_pos_left (h.odd hodd).1 hc,
      Nat.mul_lt_mul_of_pos_left (h.odd hodd).2 hc⟩

/-- A zero after the digits, with the next lower exponent, does not change the value of a
decimal. -/
theorem Decimal.RoundsTo.appendZero {d : Decimal} (h : d.RoundsTo x) :
    (Decimal.mk (d.digits * 10) (d.exponent - 1)).RoundsTo x := by
  obtain ⟨digits, e⟩ := d
  obtain ⟨hne, hrounds⟩ := h
  refine ⟨Nat.mul_ne_zero hne (by decide), ?_⟩
  dsimp only at hrounds ⊢
  generalize Nat.pow 2 1074 = p at hrounds ⊢
  rcases lt_or_ge 0 e with hpos | hneg
  · have h₁ : e.toNat = (e - 1).toNat + 1 := by omega
    have h₂ : (-e).toNat = 0 := by omega
    have h₃ : (-(e - 1)).toNat = 0 := by omega
    rw [h₁, h₂] at hrounds
    rw [h₃]
    convert hrounds using 1
    ring
  · have h₁ : e.toNat = 0 := by omega
    have h₂ : (e - 1).toNat = 0 := by omega
    have h₃ : (-(e - 1)).toNat = (-e).toNat + 1 := by omega
    rw [h₁] at hrounds
    rw [h₂, h₃]
    convert hrounds.mul 10 (by decide) using 1 <;> ring

theorem Decimal.RoundsTo.appendZeros {d : Decimal} (h : d.RoundsTo x) (k : Nat) :
    (Decimal.mk (d.digits * 10 ^ k) (d.exponent - k)).RoundsTo x := by
  induction k with
  | zero => simpa using h
  | succ k ih =>
    convert ih.appendZero using 2
    · rw [Nat.pow_succ, Nat.mul_assoc]
    · dsimp only
      omega

/-- The shortest decimal of a number is read as the number, also with zeros after its
digits. -/
theorem ofDecimal?_shortest (tie : Tie) (x : Binary64) (k : Nat) :
    ofDecimal? x.negative ((shortest tie x).digits * 10 ^ k) ((shortest tie x).exponent - k) =
      some x := by
  by_cases hx : x.magnitude = 0
  · obtain ⟨negative, magnitude, hlt⟩ := x
    obtain rfl : magnitude = 0 := hx
    have hzero : shortest tie ⟨negative, 0, hlt⟩ = ⟨0, 0⟩ := if_pos rfl
    rw [hzero, ofDecimal?, Nat.zero_mul, if_pos (.inl rfl)]
    rfl
  · exact ofDecimal?_of_roundsTo hx ((roundsTo_shortest tie hx).appendZeros k)

/-! ## Texts of decimals -/

variable {negative : Bool} {digits whole fraction mark : List Char} {e : Int}

theorem isDigit_of_mem_zeros {n : Nat} : ∀ c ∈ List.replicate n '0', isDigit c = true :=
  fun c hc => by
    rw [List.eq_of_mem_replicate hc]
    decide

/-- Digits end where no digit follows. -/
theorem takeWhile_digits (h : ∀ c ∈ digits, isDigit c = true)
    (hmark : ∀ c ∈ mark.head?, isDigit c = false) :
    (digits ++ mark).takeWhile isDigit = digits ∧ (digits ++ mark).dropWhile isDigit = mark := by
  rw [List.takeWhile_append_of_pos h, List.dropWhile_append_of_pos h]
  cases mark with
  | nil => exact ⟨List.append_nil _, rfl⟩
  | cons c rest =>
    have hc : ¬isDigit c = true := by simp [hmark c rfl]
    rw [List.takeWhile_cons_of_neg hc, List.dropWhile_cons_of_neg hc, List.append_nil]
    exact ⟨rfl, rfl⟩

/-- Digits without a point are an integer, to be multiplied by a power of ten. -/
theorem decimal?_digits (hne : whole ≠ []) (hw : ∀ c ∈ whole, isDigit c = true)
    (hmark : ∀ c ∈ mark.head?, isDigit c = false ∧ c ≠ '.') (he : exponent? mark = some e) :
    decimal? (signed negative (whole ++ mark)) = ofDecimal? negative (ofDigits whole) e := by
  obtain ⟨htake, hdrop⟩ := takeWhile_digits hw fun c hc => (hmark c hc).1
  have hpoint : ∀ more, mark ≠ '.' :: more := by
    rintro more rfl
    exact (hmark '.' rfl).2 rfl
  unfold decimal?
  rw [takeSign_signed (beginsWithDigit_append hne hw mark)]
  dsimp only
  rw [htake, hdrop]
  split
  next => exact absurd rfl (hpoint _)
  next =>
    rw [if_neg (fun h => hne h.1), he, List.append_nil]
    change ofDecimal? _ _ (e - 0) = _
    rw [Int.sub_zero]

/-- Digits with a point in them stand for tenths, as many as there are after it. -/
theorem decimal?_point (hne : whole ≠ []) (hw : ∀ c ∈ whole, isDigit c = true)
    (hf : ∀ c ∈ fraction, isDigit c = true) (hmark : ∀ c ∈ mark.head?, isDigit c = false)
    (he : exponent? mark = some e) :
    decimal? (signed negative (whole ++ '.' :: (fraction ++ mark))) =
      ofDecimal? negative (ofDigits (whole ++ fraction)) (e - (fraction.length : Int)) := by
  have hpoint : ∀ c ∈ ('.' :: (fraction ++ mark)).head?, isDigit c = false := by
    simp only [List.head?_cons, Option.mem_some_iff, forall_eq']
    decide
  obtain ⟨htake, hdrop⟩ := takeWhile_digits hw hpoint
  obtain ⟨htake', hdrop'⟩ := takeWhile_digits hf hmark
  unfold decimal?
  rw [takeSign_signed (beginsWithDigit_append hne hw _)]
  simp only [htake, hdrop, htake', hdrop', hne, false_and, if_false, he]
  rfl

/-- What the positional text of a decimal is read as: its digits, with the zeros that were
put after them, and its exponent. -/
theorem decimal?_positionalText (negative : Bool) (hne : digits ≠ [])
    (h : ∀ c ∈ digits, isDigit c = true) (e : Int) (keepsDecimal : Bool) :
    ∃ k : Nat, decimal? (signed negative (positionalText digits e keepsDecimal)) =
      ofDecimal? negative (ofDigits digits * 10 ^ k) (e - k) := by
  have hnil : ∀ c ∈ ([] : List Char).head?, isDigit c = false ∧ c ≠ '.' := nofun
  have hpoint {whole fraction : List Char} (hne : whole ≠ [])
      (hw : ∀ c ∈ whole, isDigit c = true) (hf : ∀ c ∈ fraction, isDigit c = true) :
      decimal? (signed negative (whole ++ '.' :: fraction)) =
        ofDecimal? negative (ofDigits (whole ++ fraction)) (-(fraction.length : Int)) := by
    have hread : decimal? (signed negative (whole ++ '.' :: (fraction ++ []))) = _ :=
      decimal?_point hne hw hf (fun c hc => (hnil c hc).1) rfl
    rw [List.append_nil] at hread
    rw [hread, Int.zero_sub]
  unfold positionalText
  dsimp only
  split
  · next he =>
    have hwhole : ∀ c ∈ digits ++ List.replicate e.toNat '0', isDigit c = true := fun c hc =>
      (List.mem_append.mp hc).elim (h c) (isDigit_of_mem_zeros c)
    have hwhole' := List.append_ne_nil_of_left_ne_nil hne (List.replicate e.toNat '0')
    cases keepsDecimal with
    | false =>
      refine ⟨e.toNat, ?_⟩
      rw [if_neg Bool.false_ne_true, decimal?_digits hwhole' hwhole hnil rfl,
        ofDigits_append_zeros, Int.toNat_of_nonneg he, Int.sub_self]
    | true =>
      refine ⟨e.toNat + 1, ?_⟩
      rw [if_pos rfl, show ['.', '0'] = '.' :: List.replicate 1 '0' from rfl,
        hpoint hwhole' hwhole isDigit_of_mem_zeros, List.append_assoc,
        List.replicate_append_replicate, ofDigits_append_zeros, List.length_replicate]
      congr 1
      omega
  · next hneg =>
    have hlength : 0 < digits.length := List.length_pos_iff.mpr hne
    refine ⟨0, ?_⟩
    rw [Nat.pow_zero, Nat.mul_one]
    split
    · next hlt =>
      rw [hpoint, List.take_append_drop, List.length_drop]
      · congr 1
        omega
      · refine List.ne_nil_of_length_pos ?_
        rw [List.length_take]
        omega
      · exact fun c hc => h c (List.mem_of_mem_take hc)
      · exact fun c hc => h c (List.mem_of_mem_drop hc)
    · next hge =>
      rw [show '0' :: '.' :: (List.replicate ((-e).toNat - digits.length) '0' ++ digits) =
        List.replicate 1 '0' ++ '.' :: (List.replicate ((-e).toNat - digits.length) '0' ++ digits)
        from rfl, hpoint, ofDigits_zeros_append, ofDigits_zeros_append, List.length_append,
        List.length_replicate]
      · congr 1
        omega
      · exact List.cons_ne_nil _ _
      · exact isDigit_of_mem_zeros
      · exact fun c hc => (List.mem_append.mp hc).elim (isDigit_of_mem_zeros c) (h c)

theorem exponent?_mark (e : Int) :
    exponent? ('e' :: (if e < 0 then '-' else '+') :: Nat.toDigits 10 e.natAbs) = some e := by
  have hinteger : integer? ((if e < 0 then '-' else '+') :: Nat.toDigits 10 e.natAbs) = some e := by
    split
    · next hneg =>
      rw [integer?_neg_toDigits]
      congr 1
      omega
    · next hpos =>
      unfold integer? takeSign
      simp only [natural?_toDigits, Bool.false_eq_true, if_false]
      exact congrArg some (Int.natAbs_of_nonneg (not_lt.mp hpos))
  rw [exponent?, if_pos (.inl rfl), hinteger]

/-- The scientific text of a decimal is read as its digits and its exponent. -/
theorem decimal?_scientificText (hne : digits ≠ []) (h : ∀ c ∈ digits, isDigit c = true)
    (e : Int) :
    decimal? (signed negative (scientificText digits (e + (digits.length : Int) - 1))) =
      ofDecimal? negative (ofDigits digits) e := by
  have hmark : ∀ c ∈ ('e' :: (if e + (digits.length : Int) - 1 < 0 then '-' else '+') ::
      Nat.toDigits 10 (e + (digits.length : Int) - 1).natAbs).head?,
        isDigit c = false ∧ c ≠ '.' := by
    simp
    decide
  have hexponent := exponent?_mark (e + (digits.length : Int) - 1)
  unfold scientificText
  dsimp only
  split
  · exact absurd rfl hne
  · next d =>
    rw [← List.singleton_append, decimal?_digits (List.cons_ne_nil d []) h hmark hexponent]
    congr 1
    rw [List.length_singleton]
    omega
  · next d ds _ =>
    obtain ⟨hd, hds⟩ := List.forall_mem_cons.mp h
    rw [List.cons_append, List.cons_append, ← List.singleton_append,
      decimal?_point (List.cons_ne_nil d []) (by simpa using hd) hds (fun c hc => (hmark c hc).1)
        hexponent]
    congr 1
    rw [List.length_cons]
    omega

/-! ## Texts of numbers -/

theorem beginsWithDigit_positionalText (hne : digits ≠ []) (h : ∀ c ∈ digits, isDigit c = true)
    (e : Int) (keepsDecimal : Bool) : BeginsWithDigit (positionalText digits e keepsDecimal) := by
  have hlength : 0 < digits.length := List.length_pos_iff.mpr hne
  unfold positionalText
  dsimp only
  split
  · rw [List.append_assoc]
    exact beginsWithDigit_append hne h _
  · split
    · refine beginsWithDigit_append (List.ne_nil_of_length_pos ?_)
        (fun c hc => h c (List.mem_of_mem_take hc)) _
      rw [List.length_take]
      omega
    · exact ⟨'0', _, rfl, by decide⟩

theorem beginsWithDigit_scientificText (hne : digits ≠ []) (h : ∀ c ∈ digits, isDigit c = true)
    (e : Int) : BeginsWithDigit (scientificText digits e) := by
  unfold scientificText
  dsimp only
  split
  · exact absurd rfl hne
  · exact ⟨_, _, rfl, h _ List.mem_cons_self⟩
  · exact ⟨_, _, rfl, h _ List.mem_cons_self⟩

theorem isDigit_of_mem_shortest {tie : Tie} : ∀ c ∈ (shortest tie x).text, isDigit c = true :=
  fun _ hc => isDigit_of_mem_toDigits hc

theorem shortest_text_ne_nil {tie : Tie} : (shortest tie x).text ≠ [] :=
  Nat.toDigits_ne_nil

/-- The text of a number is its shortest decimal, in one of two notations. -/
theorem Layout.toList_text_cases (layout : Layout) (x : Binary64) :
    (layout.text x).toList = signed x.negative (positionalText (shortest layout.tie x).text
        (shortest layout.tie x).exponent layout.keepsDecimal) ∨
      (layout.text x).toList = signed x.negative (scientificText (shortest layout.tie x).text
        (shortest layout.tie x).scientific) := by
  unfold Layout.text signed
  rw [String.toList_ofList]
  cases layout.positional with
  | none => exact .inl rfl
  | some range =>
    dsimp only
    by_cases h : range.1 ≤ (shortest layout.tie x).scientific ∧
        (shortest layout.tie x).scientific ≤ range.2
    · rw [if_pos h]
      exact .inl rfl
    · rw [if_neg h]
      exact .inr rfl

/-- The text of a number begins with a digit after its sign. -/
theorem Layout.exists_beginsWithDigit (layout : Layout) (x : Binary64) :
    ∃ body, (layout.text x).toList = signed x.negative body ∧ BeginsWithDigit body := by
  rcases layout.toList_text_cases x with h | h
  · exact ⟨_, h, beginsWithDigit_positionalText shortest_text_ne_nil isDigit_of_mem_shortest _ _⟩
  · exact ⟨_, h, beginsWithDigit_scientificText shortest_text_ne_nil isDigit_of_mem_shortest _⟩

/-- The text of a number reads back in every layout. -/
theorem decimal?_text (layout : Layout) (x : Binary64) :
    decimal? (layout.text x).toList = some x := by
  have hvalue : ofDigits (shortest layout.tie x).text = (shortest layout.tie x).digits :=
    ofDigits_toDigits _
  rcases layout.toList_text_cases x with h | h <;> rw [h]
  · obtain ⟨k, hk⟩ := decimal?_positionalText x.negative shortest_text_ne_nil
      isDigit_of_mem_shortest (shortest layout.tie x).exponent layout.keepsDecimal
    rw [hk, hvalue, ofDecimal?_shortest]
  · have hread := ofDecimal?_shortest layout.tie x 0
    rw [Nat.pow_zero, Nat.mul_one, Int.natCast_zero, Int.sub_zero] at hread
    rw [Decimal.scientific, decimal?_scientificText shortest_text_ne_nil
      isDigit_of_mem_shortest, hvalue, hread]

/-- Different numbers have different texts. -/
theorem Layout.text_injective (layout : Layout) : layout.text.Injective := fun x y h => by
  have hread := decimal?_text layout x
  rw [h, decimal?_text] at hread
  exact (Option.some.inj hread).symm

/-! ## Characters of numbers -/

/-- Whether a character may be part of a number. -/
def isNumberChar (c : Char) : Bool :=
  isDigit c || c == '.' || c == 'e' || c == '+' || c == '-'

theorem isNumberChar_of_isDigit {c : Char} (h : isDigit c = true) : isNumberChar c = true := by
  simp [isNumberChar, h]

theorem isNumberChar_of_mem_positionalText (h : ∀ c ∈ digits, isDigit c = true)
    {keepsDecimal : Bool} {c : Char} (hc : c ∈ positionalText digits e keepsDecimal) :
    isNumberChar c = true := by
  have hpoint : isNumberChar '.' = true := by decide
  have hdigit {cs : List Char} (hsub : ∀ c ∈ cs, c ∈ digits) (hc : c ∈ cs) :
      isNumberChar c = true := isNumberChar_of_isDigit (h c (hsub c hc))
  have hzeros {n : Nat} (hc : c ∈ List.replicate n '0') : isNumberChar c = true :=
    isNumberChar_of_isDigit (isDigit_of_mem_zeros c hc)
  unfold positionalText at hc
  dsimp only at hc
  split at hc
  · rcases List.mem_append.mp hc with hc | hc
    · exact (List.mem_append.mp hc).elim (hdigit fun _ h => h) hzeros
    · split at hc
      · rcases List.mem_cons.mp hc with rfl | hc
        · exact hpoint
        · exact hzeros (n := 1) hc
      · cases hc
  · split at hc
    · rcases List.mem_append.mp hc with hc | hc
      · exact hdigit (fun _ => List.mem_of_mem_take) hc
      · rcases List.mem_cons.mp hc with rfl | hc
        · exact hpoint
        · exact hdigit (fun _ => List.mem_of_mem_drop) hc
    · rcases List.mem_cons.mp hc with rfl | hc
      · decide
      · rcases List.mem_cons.mp hc with rfl | hc
        · exact hpoint
        · exact (List.mem_append.mp hc).elim hzeros (hdigit fun _ h => h)

theorem isNumberChar_of_mem_scientificText (h : ∀ c ∈ digits, isDigit c = true) {c : Char}
    (hc : c ∈ scientificText digits e) : isNumberChar c = true := by
  have hmark (hc : c ∈ 'e' :: (if e < 0 then '-' else '+') :: Nat.toDigits 10 e.natAbs) :
      isNumberChar c = true := by
    rcases List.mem_cons.mp hc with rfl | hc
    · decide
    · rcases List.mem_cons.mp hc with rfl | hc
      · split <;> decide
      · exact isNumberChar_of_isDigit (isDigit_of_mem_toDigits hc)
  unfold scientificText at hc
  dsimp only at hc
  split at hc
  · exact hmark hc
  · rcases List.mem_cons.mp hc with rfl | hc
    · exact isNumberChar_of_isDigit (h c List.mem_cons_self)
    · exact hmark hc
  · next d ds _ =>
    rcases List.mem_append.mp hc with hc | hc
    · rcases List.mem_cons.mp hc with rfl | hc
      · exact isNumberChar_of_isDigit (h c List.mem_cons_self)
      · rcases List.mem_cons.mp hc with rfl | hc
        · decide
        · exact isNumberChar_of_isDigit (h c (List.mem_cons_of_mem d hc))
    · exact hmark hc

/-- A text has a point in positional notation if integral values keep one decimal. -/
theorem point_mem_positionalText (digits : List Char) (e : Int) :
    '.' ∈ positionalText digits e true := by
  unfold positionalText
  dsimp only
  split
  · exact List.mem_append_right _ List.mem_cons_self
  · split
    · exact List.mem_append_right _ List.mem_cons_self
    · exact List.mem_cons_of_mem _ List.mem_cons_self

/-- A text has a mark in scientific notation. -/
theorem mark_mem_scientificText (digits : List Char) (e : Int) : 'e' ∈ scientificText digits e := by
  unfold scientificText
  dsimp only
  split
  · exact List.mem_cons_self
  · exact List.mem_cons_of_mem _ List.mem_cons_self
  · exact List.mem_append_right _ List.mem_cons_self

theorem isNumberChar_of_mem_signed {negative : Bool} {body : List Char}
    (h : ∀ c ∈ body, isNumberChar c = true) :
    ∀ c ∈ signed negative body, isNumberChar c = true := by
  cases negative with
  | false => exact h
  | true => exact List.forall_mem_cons.mpr ⟨by decide, h⟩

theorem isNumberChar_of_mem_text {layout : Layout} {c : Char} (h : c ∈ (layout.text x).toList) :
    isNumberChar c = true := by
  rcases layout.toList_text_cases x with htext | htext <;> rw [htext] at h
  · exact isNumberChar_of_mem_signed
      (fun _ => isNumberChar_of_mem_positionalText isDigit_of_mem_shortest) c h
  · exact isNumberChar_of_mem_signed
      (fun _ => isNumberChar_of_mem_scientificText isDigit_of_mem_shortest) c h

theorem not_isBlank_of_isNumberChar {c : Char} (h : isNumberChar c = true) :
    Text.isBlank c = false := by
  simp only [isNumberChar, Bool.or_eq_true, beq_iff_eq] at h
  rcases h with (((h | rfl) | rfl) | rfl) | rfl
  · exact isBlank_of_isDigit h
  all_goals decide

/-- A text has no blanks in it. -/
theorem trimmed_text (layout : Layout) (x : Binary64) :
    Text.trimmed (layout.text x) = (layout.text x).toList :=
  trimmed_of_not_isBlank fun _ h => not_isBlank_of_isNumberChar (isNumberChar_of_mem_text h)

end DocGraph.Number
