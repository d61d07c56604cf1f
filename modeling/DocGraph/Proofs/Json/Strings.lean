import DocGraph.Json.Value
import DocGraph.Proofs.Text.Percent

/-!
# Reading an array of strings

The text of an array of strings that need no escapes is read as that array
(`read?_array`): it is cut into the tokens of the array, whose events build it up.
-/

namespace DocGraph.Json

/-- Whether a character stands for itself in a string. -/
def IsPlainChar (c : Char) : Prop :=
  c ≠ '"' ∧ c ≠ '\\' ∧ ¬c.toNat < 0x20

/-- A plain character is read as itself. -/
theorem quoted?_cons {c : Char} (h : IsPlainChar c) (rest : List Char) :
    quoted? (c :: rest) = (quoted? rest).map fun (cs, after) => (c :: cs, after) := by
  obtain ⟨hquote, hescape, hcontrol⟩ := h
  rw [quoted?.eq_def]
  split
  · next heq => cases heq
  · next heq => exact absurd (List.cons.inj heq).1 hquote
  · next heq => exact absurd (List.cons.inj heq).1 hescape
  · next heq => exact absurd (List.cons.inj heq).1 hescape
  · next heq =>
    obtain ⟨rfl, rfl⟩ := List.cons.inj heq
    rw [if_neg hcontrol]

/-- A string of plain characters ends at the next quote. -/
theorem quoted?_plain {cs : List Char} (h : ∀ c ∈ cs, IsPlainChar c) (rest : List Char) :
    quoted? (cs ++ '"' :: rest) = some (cs, rest) := by
  induction cs with
  | nil => rfl
  | cons c cs ih =>
    rw [List.forall_mem_cons] at h
    rw [List.cons_append, quoted?_cons h.1, ih h.2]
    rfl

/-! ## Tokens -/

/-- The characters of the items of an array from its first item on. -/
def itemChars : List String → List Char
  | [] => [']']
  | [s] => '"' :: s.toList ++ ['"', ']']
  | s :: next :: rest => '"' :: s.toList ++ '"' :: ',' :: ' ' :: itemChars (next :: rest)

/-- The tokens of the items of an array from its first item on. -/
def itemTokens : List String → List Token
  | [] => [.endArray]
  | [s] => [.str s, .endArray]
  | s :: next :: rest => .str s :: .comma :: itemTokens (next :: rest)

theorem tokensWithin_str {s : String} (h : ∀ c ∈ s.toList, IsPlainChar c) (fuel : Nat)
    (rest : List Char) :
    tokensWithin (fuel + 1) ('"' :: s.toList ++ '"' :: rest) =
      .str s :: tokensWithin fuel rest := by
  rw [List.cons_append, tokensWithin]
  simp only [show isSpace '"' = false from rfl, Bool.false_eq_true, if_false, token?,
    quoted?_plain h, Option.map_some, String.ofList_toList]

theorem tokensWithin_endArray (fuel : Nat) (rest : List Char) :
    tokensWithin (fuel + 1) (']' :: rest) = .endArray :: tokensWithin fuel rest := rfl

theorem tokensWithin_comma (fuel : Nat) (rest : List Char) :
    tokensWithin (fuel + 1) (',' :: rest) = .comma :: tokensWithin fuel rest := rfl

theorem tokensWithin_space (fuel : Nat) (rest : List Char) :
    tokensWithin (fuel + 1) (' ' :: rest) = tokensWithin fuel rest := rfl

theorem tokensWithin_nil (fuel : Nat) : tokensWithin fuel [] = [] := by
  cases fuel <;> rfl

/-- The characters of the items are cut into their tokens. -/
theorem tokensWithin_itemChars {ss : List String} (h : ∀ s ∈ ss, ∀ c ∈ s.toList, IsPlainChar c)
    {fuel : Nat} (hfuel : (itemChars ss).length ≤ fuel) :
    tokensWithin fuel (itemChars ss) = itemTokens ss := by
  induction ss generalizing fuel with
  | nil =>
    obtain ⟨fuel, rfl⟩ : ∃ n, fuel = n + 1 := ⟨fuel - 1, by simp [itemChars] at hfuel; omega⟩
    rw [itemChars, tokensWithin_endArray, tokensWithin_nil, itemTokens]
  | cons s rest ih =>
    have hs := h s List.mem_cons_self
    cases rest with
    | nil =>
      obtain ⟨fuel, rfl⟩ : ∃ n, fuel = n + 1 + 1 :=
        ⟨fuel - 2, by simp [itemChars] at hfuel; omega⟩
      rw [itemChars, tokensWithin_str hs, tokensWithin_endArray, tokensWithin_nil, itemTokens]
    | cons next rest =>
      obtain ⟨fuel, rfl⟩ : ∃ n, fuel = n + 1 + 1 + 1 :=
        ⟨fuel - 3, by simp [itemChars] at hfuel; omega⟩
      have hrest : (itemChars (next :: rest)).length ≤ fuel := by
        rw [itemChars, List.length_append, List.length_cons] at hfuel
        simp only [List.length_cons] at hfuel
        omega
      rw [itemChars, tokensWithin_str hs, tokensWithin_comma, tokensWithin_space,
        ih (fun t ht => h t (List.mem_cons_of_mem s ht)) hrest, itemTokens]

/-! ## Events -/

/-- The events of the items of an array from its first item on. -/
def itemEvents (ss : List String) : List Event :=
  ss.map .str ++ [.endArray, .finish]

theorem events_itemTokens {ss : List String} (hne : ss ≠ []) {expected : Expected}
    (h : expected = .firstItem ∨ expected = .value) :
    (⟨[.array], expected⟩ : Place).events (itemTokens ss) = itemEvents ss := by
  induction ss generalizing expected with
  | nil => exact absurd rfl hne
  | cons s rest ih =>
    cases rest with
    | nil => rcases h with rfl | rfl <;> rfl
    | cons next rest =>
      have hrest := ih (List.cons_ne_nil next rest) (.inr rfl)
      rcases h with rfl | rfl
      · change .str s :: (⟨[.array], .value⟩ : Place).events (itemTokens (next :: rest)) = _
        rw [hrest]
        rfl
      · change .str s :: (⟨[.array], .value⟩ : Place).events (itemTokens (next :: rest)) = _
        rw [hrest]
        rfl

/-! ## Values -/

namespace Value

theorem foldlM_str (ss : List String) (read : List Value) :
    (ss.map Event.str).foldlM Building.step? ⟨[.items read], none⟩ =
      some ⟨[.items ((ss.map Value.str).reverse ++ read)], none⟩ := by
  induction ss generalizing read with
  | nil => rfl
  | cons s rest ih =>
    rw [List.map_cons, List.foldlM_cons, List.map_cons, List.reverse_cons, List.append_assoc,
      List.singleton_append, ← ih]
    rfl

theorem canonicalItems_str (ss : List String) :
    canonicalItems (ss.map Value.str) = ss.map Value.str := by
  induction ss with
  | nil => rfl
  | cons s rest ih => rw [List.map_cons, canonicalItems, ih, canonical]; all_goals exact nofun

/-- An array of at least one string of plain characters is read. -/
theorem read?_array {ss : List String} (hne : ss ≠ [])
    (h : ∀ s ∈ ss, ∀ c ∈ s.toList, IsPlainChar c) :
    read? (String.ofList ('[' :: itemChars ss)) = some (.arr (ss.map .str)) := by
  have htokens : tokens ('[' :: itemChars ss) = .beginArray :: itemTokens ss := by
    rw [tokens, List.length_cons]
    change .beginArray :: tokensWithin _ _ = _
    rw [tokensWithin_itemChars h (Nat.le_refl _)]
  have hevents : events (String.ofList ('[' :: itemChars ss)) = .beginArray :: itemEvents ss := by
    rw [events, String.toList_ofList, htokens]
    change .beginArray :: (⟨[.array], .firstItem⟩ : Place).events _ = _
    rw [events_itemTokens hne (.inl rfl)]
  have hraw : raw? (String.ofList ('[' :: itemChars ss)) = some (.arr (ss.map .str)) := by
    rw [raw?, hevents, ofEvents?, itemEvents, List.foldlM_cons]
    change ((ss.map Event.str ++ [Event.endArray, Event.finish]).foldlM Building.step?
      ⟨[.items []], none⟩).bind _ = _
    rw [List.foldlM_append, foldlM_str, List.append_nil]
    change some (Value.arr _) = _
    rw [List.reverse_reverse]
  rw [read?, hraw, Option.map_some, canonical, canonicalItems_str]

end Value

end DocGraph.Json
