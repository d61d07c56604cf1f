import DocGraph.Proofs.Document
import DocGraph.Proofs.Json.Written
import DocGraph.Proofs.Number.Layouts

/-!
# The texts of values

Different values have different texts (`Value.text_injective`), also where they hold numbers:
an integer is written with digits alone, any other number with a point or an exponent
(`Number.text_injective`). The first character of a text tells the constructor of the value
(`Value.exists_begins`), and the value tells where its text ends, so that of two equal texts
that go on from two values the values are equal, and so is what follows them
(`Value.text_append_inj`).
-/

namespace DocGraph.Json

open DocGraph.Number

/-! ## Numbers -/

namespace Number

theorem isDigit_or_of_mem_toString {i : Int} {c : Char} (h : c ∈ (toString i).toList) :
    isDigit c = true ∨ c = '-' := by
  rw [toList_toString] at h
  split at h
  · exact .inl (isDigit_of_mem_toDigits h)
  · exact (List.mem_cons.mp h).elim .inr fun h => .inl (isDigit_of_mem_toDigits h)

theorem isNumberChar_of_mem_text {n : Number} {c : Char} (h : c ∈ n.text.toList) :
    isNumberChar c = true := by
  cases n with
  | integer n =>
    rcases isDigit_or_of_mem_toString h with hdigit | rfl
    · exact isNumberChar_of_isDigit hdigit
    · decide
  | float x => exact DocGraph.Number.isNumberChar_of_mem_text h

/-- A number that is no integer is not written with digits alone. -/
theorem exists_mem_text_float (x : Binary64) :
    ∃ c ∈ (floatLayout.text x).toList, isDigit c = false ∧ c ≠ '-' := by
  have hsigned {c : Char} {body : List Char} (hc : c ∈ body) : c ∈ signed x.negative body := by
    cases x.negative with
    | false => exact hc
    | true => exact List.mem_cons_of_mem _ hc
  rcases floatLayout.toList_text_cases x with h | h
  · refine ⟨'.', ?_, by decide, by decide⟩
    rw [h]
    exact hsigned (point_mem_positionalText _ _)
  · refine ⟨'e', ?_, by decide, by decide⟩
    rw [h]
    exact hsigned (mark_mem_scientificText _ _)

theorem text_integer_ne_float (n : Integer) (x : Binary64) :
    (Number.integer n).text ≠ (Number.float x).text := by
  intro h
  obtain ⟨c, hc, hdigit, hsign⟩ := exists_mem_text_float x
  have hmem : c ∈ (toString n.val).toList := (congrArg String.toList h) ▸ hc
  rcases isDigit_or_of_mem_toString hmem with hc | hc
  · rw [hc] at hdigit
    cases hdigit
  · exact hsign hc

/-- Different numbers have different texts. -/
theorem text_injective : text.Injective := by
  intro m n h
  cases m with
  | integer m =>
    cases n with
    | integer n =>
      have hread := integer?_toString m.val
      rw [show toString m.val = toString n.val from h, integer?_toString] at hread
      obtain ⟨_, _, _⟩ := m
      obtain ⟨_, _, _⟩ := n
      obtain rfl := Option.some.inj hread
      rfl
    | float x => exact absurd h (text_integer_ne_float m x)
  | float x =>
    cases n with
    | integer n => exact absurd h.symm (text_integer_ne_float n x)
    | float y => rw [floatLayout.text_injective h]

/-- The text of a number begins with a digit or a minus sign. -/
theorem exists_head (n : Number) :
    ∃ c rest, n.text.toList = c :: rest ∧ 45 ≤ c.toNat ∧ c.toNat < 58 := by
  obtain ⟨negative, body, htext, c, rest, rfl, hc⟩ :
      ∃ negative body, n.text.toList = signed negative body ∧ BeginsWithDigit body := by
    cases n with
    | integer n =>
      have hdigits (m : Nat) : BeginsWithDigit (Nat.toDigits 10 m) := exists_toDigits_cons m
      change ∃ negative body, (toString n.val).toList = _ ∧ _
      rw [toList_toString]
      split
      · exact ⟨false, _, rfl, hdigits _⟩
      · exact ⟨true, _, rfl, hdigits _⟩
    | float x => exact ⟨x.negative, floatLayout.exists_beginsWithDigit x⟩
  rw [htext]
  cases negative with
  | false =>
    refine ⟨c, rest, rfl, ?_⟩
    rw [isDigit_eq, Char.isDigit_iff_toNat] at hc
    have h₀ : '0'.toNat = 48 := rfl
    have h₉ : '9'.toNat = 57 := rfl
    omega
  | true => exact ⟨'-', c :: rest, rfl, by decide, by decide⟩

end Number

/-! ## First characters -/

namespace Value

/-- Whether the texts of values like this one begin with a character. -/
def Begins : Value → Char → Prop
  | .null, c => c = 'n'
  | .bool true, c => c = 't'
  | .bool false, c => c = 'f'
  | .num _, c => 45 ≤ c.toNat ∧ c.toNat < 58
  | .str _, c => c = '"'
  | .arr _, c => c = '['
  | .obj _, c => c = '\x7b'

/-- The text of a value begins as it should. -/
theorem exists_begins (v : Value) : ∃ c rest, v.text.toList = c :: rest ∧ v.Begins c := by
  cases v with
  | null => exact ⟨_, _, rfl, rfl⟩
  | bool b => cases b <;> exact ⟨_, _, rfl, rfl⟩
  | num n => exact n.exists_head
  | str s =>
    refine ⟨'"', s.toList.flatMap escapeChar ++ ['"'], ?_, rfl⟩
    rw [text, quote, String.toList_ofList]
    rfl
  | arr items =>
    refine ⟨'[', (itemsText items).toList ++ [']'], ?_, rfl⟩
    simp [text]
  | obj members =>
    refine ⟨'\x7b', (membersText members).toList ++ ['\x7d'], ?_, rfl⟩
    simp [text]

/-- No value begins like the end of an array. -/
theorem exists_head_ne_bracket (v : Value) : ∃ c rest, v.text.toList = c :: rest ∧ c ≠ ']' := by
  obtain ⟨c, rest, htext, hc⟩ := v.exists_begins
  refine ⟨c, rest, htext, ?_⟩
  rintro rfl
  cases v with
  | bool b => cases b <;> simp [Begins] at hc
  | _ => simp [Begins] at hc

/-- Whether two values have one constructor and, as truth values, are the same. -/
inductive SameShape : Value → Value → Prop where
  | null : SameShape .null .null
  | bool (b : Bool) : SameShape (.bool b) (.bool b)
  | num (m n : Number) : SameShape (.num m) (.num n)
  | str (s t : String) : SameShape (.str s) (.str t)
  | arr (items items' : List Value) : SameShape (.arr items) (.arr items')
  | obj (members members' : List (String × Value)) : SameShape (.obj members) (.obj members')

/-- The first character tells the constructor. -/
theorem sameShape_of_begins {v w : Value} {c : Char} (hv : v.Begins c) (hw : w.Begins c) :
    v.SameShape w := by
  fun_cases Begins v c <;> fun_cases Begins w c <;> simp_all [Begins] <;> constructor

theorem sameShape_of_append {v w : Value} {r r' : List Char}
    (h : v.text.toList ++ r = w.text.toList ++ r') : v.SameShape w := by
  obtain ⟨c, rest, hv, hbegins⟩ := v.exists_begins
  obtain ⟨d, rest', hw, hbegins'⟩ := w.exists_begins
  rw [hv, hw] at h
  obtain rfl := (List.cons.inj h).1
  exact sameShape_of_begins hbegins hbegins'

/-! ## Where a text ends -/

/-- Whether a number ends in front of some characters. -/
def EndsNumber (r : List Char) : Prop :=
  ∀ c ∈ r.head?, isNumberChar c = false

theorem endsNumber_nil : EndsNumber [] := fun _ hc => by cases hc

theorem endsNumber_cons {c : Char} {r : List Char} (h : isNumberChar c = false) :
    EndsNumber (c :: r) := by
  intro d hd
  obtain rfl := Option.some.inj hd
  exact h

/-- Two numbers are the same if their texts go on alike, with what is not part of a number. -/
theorem append_inj_of_endsNumber {cs ds r r' : List Char} (hcs : ∀ c ∈ cs, isNumberChar c = true)
    (hds : ∀ c ∈ ds, isNumberChar c = true) (hr : EndsNumber r) (hr' : EndsNumber r')
    (h : cs ++ r = ds ++ r') : cs = ds ∧ r = r' := by
  have htake {cs r : List Char} (hcs : ∀ c ∈ cs, isNumberChar c = true) (hr : EndsNumber r) :
      (cs ++ r).takeWhile isNumberChar = cs := by
    rw [List.takeWhile_append_of_pos hcs]
    cases r with
    | nil => exact List.append_nil _
    | cons c r => rw [List.takeWhile_cons_of_neg (by simp [hr c rfl]), List.append_nil]
  have heq : cs = ds := by rw [← htake hcs hr, h, htake hds hr']
  subst heq
  exact ⟨rfl, List.append_cancel_left h⟩

theorem quote_append_inj {s t : String} {r r' : List Char}
    (h : (quote s).toList ++ r = (quote t).toList ++ r') : s = t ∧ r = r' := by
  have hquote (s : String) (r : List Char) :
      (quote s).toList ++ r = '"' :: (s.toList.flatMap escapeChar ++ '"' :: r) := by
    rw [quote, String.toList_ofList]
    simp only [List.cons_append, List.append_assoc, List.nil_append]
  rw [hquote, hquote] at h
  have hread := quoted?_escaped s.toList r
  rw [(List.cons.inj h).2, quoted?_escaped] at hread
  obtain ⟨htext, hrest⟩ := Prod.mk.inj (Option.some.inj hread)
  exact ⟨String.toList_inj.mp htext.symm, hrest.symm⟩

/-- The characters of elements with commas between them. -/
def joined {α : Type} (code : α → List Char) : List α → List Char
  | [] => []
  | a :: rest => code a ++ (if rest.isEmpty then [] else [',']) ++ joined code rest

theorem toList_separator {α : Type} (as : List α) :
    (if as.isEmpty then "" else ",").toList = if as.isEmpty then [] else [','] := by
  cases as with
  | nil => rfl
  | cons a as => simp

theorem toList_itemsText (items : List Value) :
    (itemsText items).toList = joined (·.text.toList) items := by
  induction items with
  | nil => rfl
  | cons v rest ih =>
    rw [itemsText, joined, String.toList_append, String.toList_append, toList_separator, ih]

/-- The characters of a member of an object. -/
def memberChars (m : String × Value) : List Char :=
  (quote m.1).toList ++ ':' :: m.2.text.toList

theorem toList_membersText (members : List (String × Value)) :
    (membersText members).toList = joined memberChars members := by
  induction members with
  | nil => rfl
  | cons m rest ih =>
    rw [membersText, joined, memberChars]
    simp only [String.toList_append, toList_separator, ih, List.append_assoc, List.cons_append]
    rfl

theorem memberChars_append_inj {m n : String × Value} {r r' : List Char}
    (hinj : m.2.text.toList ++ r = n.2.text.toList ++ r' → m.2 = n.2 ∧ r = r')
    (h : memberChars m ++ r = memberChars n ++ r') : m = n ∧ r = r' := by
  simp only [memberChars, List.append_assoc, List.cons_append] at h
  obtain ⟨hkey, h⟩ := quote_append_inj h
  obtain ⟨hvalue, hrest⟩ := hinj (List.cons.inj h).2
  exact ⟨Prod.ext hkey hvalue, hrest⟩

theorem exists_memberChars (m : String × Value) : ∃ rest, memberChars m = '"' :: rest := by
  rw [memberChars, quote, String.toList_ofList]
  exact ⟨_, rfl⟩

/-- Joined elements tell where they end, if each of them does. -/
theorem joined_append_inj {α : Type} {code : α → List Char} {close : Char} {as : List α}
    (hinj : ∀ a ∈ as, ∀ b r r', EndsNumber r → EndsNumber r' →
      code a ++ r = code b ++ r' → a = b ∧ r = r')
    (hcode : ∀ a, ∃ c rest, code a = c :: rest ∧ c ≠ close)
    (hclose : isNumberChar close = false) (hcomma : close ≠ ',') {bs : List α} {r r' : List Char}
    (h : joined code as ++ close :: r = joined code bs ++ close :: r') : as = bs ∧ r = r' := by
  -- an element is followed by a comma or the end, neither of which goes on a number
  have hends (cs : List α) (r : List Char) :
      EndsNumber ((if cs.isEmpty then [] else [',']) ++ (joined code cs ++ close :: r)) := by
    cases cs with
    | nil => exact endsNumber_cons hclose
    | cons c cs => exact endsNumber_cons (by decide)
  have hne {a : α} {as : List α} {r r' : List Char} : close :: r ≠ joined code (a :: as) ++ r' := by
    obtain ⟨c, rest, hc, hne⟩ := hcode a
    rw [joined, hc]
    exact fun h => hne (List.cons.inj h).1.symm
  induction as generalizing bs with
  | nil =>
    cases bs with
    | nil => exact ⟨rfl, (List.cons.inj h).2⟩
    | cons b bs => exact absurd h hne
  | cons a as ih =>
    cases bs with
    | nil => exact absurd h.symm hne
    | cons b bs =>
      simp only [joined, List.append_assoc] at h
      obtain ⟨rfl, htail⟩ := hinj a List.mem_cons_self b _ _ (hends as r) (hends bs r') h
      have hrest : as = bs ∧ r = r' := by
        cases as with
        | nil =>
          cases bs with
          | nil => exact ⟨rfl, (List.cons.inj htail).2⟩
          | cons => exact absurd (List.cons.inj htail).1 hcomma
        | cons =>
          cases bs with
          | nil => exact absurd (List.cons.inj htail).1.symm hcomma
          | cons =>
            exact ih (fun a ha => hinj a (List.mem_cons_of_mem _ ha)) (List.cons.inj htail).2
      exact ⟨by rw [hrest.1], hrest.2⟩

/-- What holds of a value as soon as it holds of its items and the values of its members,
holds of all values. -/
theorem induction_parts {P : Value → Prop} (step : ∀ v, (∀ w ∈ v.parts, P w) → P v) (v : Value) :
    P v :=
  step v fun w _ => induction_parts step w
termination_by sizeOf v
decreasing_by
  rename_i hw
  cases v with
  | arr items =>
    have hmem : w ∈ items := hw
    have := List.sizeOf_lt_of_mem hmem
    simp only [arr.sizeOf_spec]
    omega
  | obj members =>
    obtain ⟨m, hm, rfl⟩ := List.mem_map.mp hw
    have := List.sizeOf_lt_of_mem hm
    cases m
    simp only [obj.sizeOf_spec, Prod.mk.sizeOf_spec] at this ⊢
    omega
  | _ => cases hw

/-- Of two equal texts that go on from two values, the values are equal, and what follows
them. -/
theorem text_append_inj {v w : Value} {r r' : List Char} (hr : EndsNumber r) (hr' : EndsNumber r')
    (h : v.text.toList ++ r = w.text.toList ++ r') : v = w ∧ r = r' := by
  induction v using induction_parts generalizing w r r' with
  | step v ih =>
    cases sameShape_of_append h with
    | null => exact ⟨rfl, List.append_cancel_left h⟩
    | bool b => exact ⟨rfl, List.append_cancel_left h⟩
    | num m n =>
      obtain ⟨htexts, hrest⟩ := append_inj_of_endsNumber (fun _ => Number.isNumberChar_of_mem_text)
        (fun _ => Number.isNumberChar_of_mem_text) hr hr' h
      rw [Number.text_injective (String.toList_inj.mp htexts)]
      exact ⟨rfl, hrest⟩
    | str s t =>
      obtain ⟨rfl, hrest⟩ := quote_append_inj h
      exact ⟨rfl, hrest⟩
    | arr items items' =>
      have hitems : joined (·.text.toList) items ++ ']' :: r =
          joined (·.text.toList) items' ++ ']' :: r' := by
        simpa [text, toList_itemsText] using h
      obtain ⟨rfl, hrest⟩ := joined_append_inj (fun v hv _ _ _ hr hr' h => ih v hv hr hr' h)
        exists_head_ne_bracket (by decide) (by decide) hitems
      exact ⟨rfl, hrest⟩
    | obj members members' =>
      have hmembers : joined memberChars members ++ '\x7d' :: r =
          joined memberChars members' ++ '\x7d' :: r' := by
        simpa [text, toList_membersText] using h
      obtain ⟨rfl, hrest⟩ := joined_append_inj (fun m hm n _ _ hr hr' h =>
        memberChars_append_inj (fun h => ih m.2 (List.mem_map_of_mem hm) hr hr' h) h)
        (fun m => (exists_memberChars m).elim fun rest h => ⟨'"', rest, h, by decide⟩)
        (by decide) (by decide) hmembers
      exact ⟨rfl, hrest⟩

/-- Different values have different texts. -/
theorem text_injective : text.Injective := fun v w h =>
  (text_append_inj endsNumber_nil endsNumber_nil
    (by rw [h] : v.text.toList ++ [] = w.text.toList ++ [])).1

end Value

end DocGraph.Json
