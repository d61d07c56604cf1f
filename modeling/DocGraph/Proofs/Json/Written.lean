import DocGraph.Json.Printer
import DocGraph.Proofs.Json.Strings

/-!
# Reading what was written

The text of a value without numbers is read as that value, whatever characters its
strings and keys hold and up to the depth that is read at all (`raw?_text`). On the
way the text is cut into the tokens of the value (`tokensWithin_text`), whose events
(`events_tokensOf`) build the value up again (`foldlM_eventsOf`).
-/

namespace DocGraph.Json

/-! ## Strings with escapes -/

theorem hexQuad?_control : ∀ n < 0x20,
    hexQuad? '0' '0' (lowerHexDigit (n / 16)) (lowerHexDigit (n % 16)) = some n := by
  decide

/-- The written form of a character is read as the character. -/
theorem quoted?_escapeChar (c : Char) (rest : List Char) :
    quoted? (escapeChar c ++ rest) = (quoted? rest).map fun (cs, after) => (c :: cs, after) := by
  unfold escapeChar
  split_ifs with hquote hbackslash hb hf hn hr ht hcontrol
  · subst hquote; rfl
  · subst hbackslash; rfl
  · subst hb; rfl
  · subst hf; rfl
  · subst hn; rfl
  · subst hr; rfl
  · subst ht; rfl
  · have hsmall : ∀ n < 0x20, isHighSurrogate n = false ∧ isLowSurrogate n = false := by decide
    obtain ⟨hhigh, hlow⟩ := hsmall _ hcontrol
    simp only [List.cons_append, List.nil_append]
    rw [quoted?]
    simp only [hexQuad?_control _ hcontrol, hhigh, hlow, Bool.false_eq_true, if_false,
      Char.ofNat_toNat]
  · exact quoted?_cons ⟨hquote, hbackslash, hcontrol⟩ rest

theorem quoted?_escaped (cs rest : List Char) :
    quoted? (cs.flatMap escapeChar ++ '"' :: rest) = some (cs, rest) := by
  induction cs with
  | nil => rfl
  | cons c cs ih =>
    rw [List.flatMap_cons, List.append_assoc, quoted?_escapeChar, ih]
    rfl

theorem tokensWithin_quote (s : String) (fuel : Nat) (rest : List Char) :
    tokensWithin (fuel + 1) ((quote s).toList ++ rest) = .str s :: tokensWithin fuel rest := by
  have hlist : (quote s).toList ++ rest = '"' :: (s.toList.flatMap escapeChar ++ '"' :: rest) := by
    rw [quote, String.toList_ofList]
    simp only [List.cons_append, List.append_assoc, List.nil_append]
  rw [hlist, tokensWithin]
  simp only [show isSpace '"' = false from rfl, Bool.false_eq_true, if_false, token?,
    quoted?_escaped, Option.map_some, String.ofList_toList]

theorem length_quote_pos (s : String) : 0 < (quote s).toList.length := by
  rw [quote, String.toList_ofList, List.cons_append, List.length_cons]
  exact Nat.succ_pos _

/-! ## Tokens -/

namespace Value

mutual

/-- Whether a value holds no number. -/
def isNumberFree : Value → Bool
  | .num _ => false
  | .arr items => itemsNumberFree items
  | .obj members => membersNumberFree members
  | _ => true

/-- Whether items hold no number. -/
def itemsNumberFree : List Value → Bool
  | [] => true
  | v :: rest => isNumberFree v && itemsNumberFree rest

/-- Whether the values of members hold no number. -/
def membersNumberFree : List (String × Value) → Bool
  | [] => true
  | (_, v) :: rest => isNumberFree v && membersNumberFree rest

end

mutual

/-- The tokens of the text of a value. Numbers are left out. -/
def tokensOf : Value → List Token
  | .null => [.null]
  | .bool b => [.bool b]
  | .num _ => []
  | .str s => [.str s]
  | .arr items => .beginArray :: (itemTokensOf items ++ [.endArray])
  | .obj members => .beginObject :: (memberTokensOf members ++ [.endObject])

/-- The tokens of the items of an array. -/
def itemTokensOf : List Value → List Token
  | [] => []
  | v :: rest => tokensOf v ++ ((if rest.isEmpty then [] else [.comma]) ++ itemTokensOf rest)

/-- The tokens of the members of an object. -/
def memberTokensOf : List (String × Value) → List Token
  | [] => []
  | (k, v) :: rest =>
    .str k :: .colon ::
      (tokensOf v ++ ((if rest.isEmpty then [] else [.comma]) ++ memberTokensOf rest))

end

mutual

/-- A token takes one step, so there are enough of them if there is one for every
character. -/
theorem length_tokensOf_le : ∀ v : Value, v.tokensOf.length ≤ v.text.toList.length
  | .null => by decide
  | .bool b => by cases b <;> decide
  | .num n => Nat.zero_le _
  | .str s => length_quote_pos s
  | .arr items => by
    have ih := length_itemTokensOf_le items
    simp only [tokensOf, text, List.length_cons, List.length_append, List.length_nil,
      String.toList_append, show "[".toList.length = 1 from rfl,
      show "]".toList.length = 1 from rfl]
    omega
  | .obj members => by
    have ih := length_memberTokensOf_le members
    simp only [tokensOf, text, List.length_cons, List.length_append, List.length_nil,
      String.toList_append, show "\x7b".toList.length = 1 from rfl,
      show "\x7d".toList.length = 1 from rfl]
    omega

theorem length_itemTokensOf_le : ∀ items : List Value,
    (itemTokensOf items).length ≤ (itemsText items).toList.length
  | [] => Nat.zero_le _
  | v :: rest => by
    have ih := length_tokensOf_le v
    have ih' := length_itemTokensOf_le rest
    cases hrest : rest.isEmpty <;>
      simp [itemTokensOf, itemsText, hrest] at ih ih' ⊢ <;> omega

theorem length_memberTokensOf_le : ∀ members : List (String × Value),
    (memberTokensOf members).length ≤ (membersText members).toList.length
  | [] => Nat.zero_le _
  | (k, v) :: rest => by
    have ih := length_tokensOf_le v
    have ih' := length_memberTokensOf_le rest
    have hk := length_quote_pos k
    cases hrest : rest.isEmpty <;>
      simp [memberTokensOf, membersText, hrest] at hk ih ih' ⊢ <;> omega

end

theorem tokensWithin_colon (fuel : Nat) (rest : List Char) :
    tokensWithin (fuel + 1) (':' :: rest) = .colon :: tokensWithin fuel rest := rfl

theorem tokensWithin_separator {α : Type} (as : List α) (fuel : Nat) (rest : List Char) :
    tokensWithin ((if as.isEmpty then [] else [Token.comma]).length + fuel)
        ((if as.isEmpty then "" else ",").toList ++ rest) =
      (if as.isEmpty then [] else [.comma]) ++ tokensWithin fuel rest := by
  cases as with
  | nil => simp
  | cons a as =>
    rw [List.isEmpty_cons, if_neg Bool.false_ne_true, if_neg Bool.false_ne_true, Nat.add_comm]
    rfl

mutual

/-- The text of a value is cut into the tokens of the value. -/
theorem tokensWithin_text : ∀ (v : Value), v.isNumberFree = true → ∀ (fuel : Nat)
    (rest : List Char), tokensWithin (v.tokensOf.length + fuel) (v.text.toList ++ rest) =
      v.tokensOf ++ tokensWithin fuel rest
  | .null, _, fuel, rest => by rw [Nat.add_comm]; rfl
  | .bool b, _, fuel, rest => by cases b <;> rw [Nat.add_comm] <;> rfl
  | .num n, h, _, _ => by cases h
  | .str s, _, fuel, rest => by
    rw [tokensOf, List.length_singleton, Nat.add_comm]
    exact tokensWithin_quote s fuel rest
  | .arr items, h, fuel, rest => by
    have ih := tokensWithin_itemsText items h (fuel + 1) (']' :: rest)
    have hfuel : (Value.arr items).tokensOf.length + fuel =
        (itemTokensOf items).length + (fuel + 1) + 1 := by
      simp only [tokensOf, List.length_cons, List.length_append, List.length_nil]
      omega
    have hlist : (Value.arr items).text.toList ++ rest =
        '[' :: ((itemsText items).toList ++ ']' :: rest) := by
      simp [text]
    rw [hfuel, hlist, tokensOf]
    change .beginArray :: tokensWithin _ _ = _
    rw [ih, tokensWithin_endArray, List.cons_append, List.append_assoc, List.singleton_append]
  | .obj members, h, fuel, rest => by
    have ih := tokensWithin_membersText members h (fuel + 1) ('\x7d' :: rest)
    have hfuel : (Value.obj members).tokensOf.length + fuel =
        (memberTokensOf members).length + (fuel + 1) + 1 := by
      simp only [tokensOf, List.length_cons, List.length_append, List.length_nil]
      omega
    have hlist : (Value.obj members).text.toList ++ rest =
        '\x7b' :: ((membersText members).toList ++ '\x7d' :: rest) := by
      simp [text]
    rw [hfuel, hlist, tokensOf]
    change .beginObject :: tokensWithin _ _ = _
    rw [ih, List.cons_append, List.append_assoc, List.singleton_append]
    rfl

theorem tokensWithin_itemsText : ∀ (items : List Value), itemsNumberFree items = true →
    ∀ (fuel : Nat) (rest : List Char),
      tokensWithin ((itemTokensOf items).length + fuel) ((itemsText items).toList ++ rest) =
        itemTokensOf items ++ tokensWithin fuel rest
  | [], _, fuel, rest => by simp [itemTokensOf, itemsText]
  | v :: items, h, fuel, rest => by
    rw [itemsNumberFree, Bool.and_eq_true] at h
    simp only [itemTokensOf, itemsText, List.length_append, String.toList_append,
      List.append_assoc, Nat.add_assoc]
    rw [tokensWithin_text v h.1, tokensWithin_separator, tokensWithin_itemsText items h.2]

theorem tokensWithin_membersText : ∀ (members : List (String × Value)),
    membersNumberFree members = true → ∀ (fuel : Nat) (rest : List Char),
      tokensWithin ((memberTokensOf members).length + fuel)
          ((membersText members).toList ++ rest) =
        memberTokensOf members ++ tokensWithin fuel rest
  | [], _, fuel, rest => by simp [memberTokensOf, membersText]
  | (k, v) :: members, h, fuel, rest => by
    rw [membersNumberFree, Bool.and_eq_true] at h
    have hfuel : (memberTokensOf ((k, v) :: members)).length + fuel =
        v.tokensOf.length + ((if members.isEmpty then [] else [Token.comma]).length +
          ((memberTokensOf members).length + fuel)) + 1 + 1 := by
      simp only [memberTokensOf, List.length_cons, List.length_append]
      omega
    simp only [hfuel, membersText, String.toList_append, List.append_assoc, tokensWithin_quote]
    rw [show ":".toList = [':'] from rfl, List.singleton_append, tokensWithin_colon]
    rw [tokensWithin_text v h.1, tokensWithin_separator, tokensWithin_membersText members h.2]
    simp only [memberTokensOf, List.cons_append, List.append_assoc]

end

/-! ## Events -/

mutual

/-- The events of the text of a value. Numbers are left out. -/
def eventsOf : Value → List Event
  | .null => [.null]
  | .bool b => [.bool b]
  | .num _ => []
  | .str s => [.str s]
  | .arr items => .beginArray :: (itemEventsOf items ++ [.endArray])
  | .obj members => .beginObject :: (memberEventsOf members ++ [.endObject])

/-- The events of the items of an array. -/
def itemEventsOf : List Value → List Event
  | [] => []
  | v :: rest => eventsOf v ++ itemEventsOf rest

/-- The events of the members of an object. -/
def memberEventsOf : List (String × Value) → List Event
  | [] => []
  | (k, v) :: rest => .key k :: (eventsOf v ++ memberEventsOf rest)

end

/-- The first token of a value does not end an array, so it is the first item of one. -/
theorem events_firstItem {v : Value} (h : v.isNumberFree = true) (containers : List Container)
    (ts : List Token) :
    (⟨.array :: containers, .firstItem⟩ : Place).events (v.tokensOf ++ ts) =
      (⟨.array :: containers, .value⟩ : Place).events (v.tokensOf ++ ts) := by
  cases v with
  | num n => cases h
  | _ => rfl

mutual

/-- The tokens of a value have the events of the value. -/
theorem events_tokensOf : ∀ (v : Value), v.isNumberFree = true →
    ∀ (containers : List Container) (ts : List Token),
      (⟨containers, .value⟩ : Place).events (v.tokensOf ++ ts) =
        v.eventsOf ++ (Place.after containers).events ts
  | .null, _, _, _ => rfl
  | .bool _, _, _, _ => rfl
  | .num _, h, _, _ => by cases h
  | .str _, _, _, _ => rfl
  | .arr [], _, _, _ => rfl
  | .arr (v :: items), h, containers, ts => by
    have hv : v.isNumberFree = true := (Bool.and_eq_true_iff.mp h).1
    have ih := events_itemTokensOf (v :: items) h (List.cons_ne_nil _ _) containers ts
    simp only [tokensOf, eventsOf, List.cons_append, List.append_assoc, List.nil_append]
    change .beginArray :: (⟨.array :: containers, .firstItem⟩ : Place).events _ = _
    rw [← ih, itemTokensOf, List.append_assoc, events_firstItem hv]
  | .obj [], _, _, _ => rfl
  | .obj ((k, v) :: members), h, containers, ts => by
    have ih := events_memberTokensOf ((k, v) :: members) h (List.cons_ne_nil _ _) containers ts
    simp only [tokensOf, eventsOf, List.cons_append, List.append_assoc, List.nil_append]
    change .beginObject :: (⟨.object :: containers, .firstKey⟩ : Place).events _ = _
    rw [← ih]
    rfl

theorem events_itemTokensOf : ∀ (items : List Value), itemsNumberFree items = true →
    items ≠ [] → ∀ (containers : List Container) (ts : List Token),
      (⟨.array :: containers, .value⟩ : Place).events (itemTokensOf items ++ .endArray :: ts) =
        itemEventsOf items ++ .endArray :: (Place.after containers).events ts
  | [], _, hne, _, _ => absurd rfl hne
  | [v], h, _, containers, ts => by
    have hv : v.isNumberFree = true := (Bool.and_eq_true_iff.mp h).1
    have ih := events_tokensOf v hv (.array :: containers) (.endArray :: ts)
    simp only [itemTokensOf, itemEventsOf, List.isEmpty_nil, if_true, List.append_nil]
    rw [ih]
    rfl
  | v :: w :: items, h, _, containers, ts => by
    obtain ⟨hv, hrest⟩ := Bool.and_eq_true_iff.mp h
    have ih := events_tokensOf v hv (.array :: containers)
      (.comma :: (itemTokensOf (w :: items) ++ .endArray :: ts))
    have ih' := events_itemTokensOf (w :: items) hrest (List.cons_ne_nil _ _) containers ts
    rw [itemTokensOf, itemEventsOf, List.isEmpty_cons, if_neg Bool.false_ne_true]
    simp only [List.append_assoc, List.cons_append, List.nil_append]
    rw [ih, ← ih']
    rfl

theorem events_memberTokensOf : ∀ (members : List (String × Value)),
    membersNumberFree members = true → members ≠ [] →
    ∀ (containers : List Container) (ts : List Token),
      (⟨.object :: containers, .key⟩ : Place).events
          (memberTokensOf members ++ .endObject :: ts) =
        memberEventsOf members ++ .endObject :: (Place.after containers).events ts
  | [], _, hne, _, _ => absurd rfl hne
  | [(k, v)], h, _, containers, ts => by
    have hv : v.isNumberFree = true := (Bool.and_eq_true_iff.mp h).1
    have ih := events_tokensOf v hv (.object :: containers) (.endObject :: ts)
    simp only [memberTokensOf, memberEventsOf, List.isEmpty_nil, if_true, List.append_nil,
      List.cons_append]
    change .key k :: (⟨.object :: containers, .value⟩ : Place).events _ = _
    rw [ih]
    rfl
  | (k, v) :: e :: members, h, _, containers, ts => by
    obtain ⟨hv, hrest⟩ := Bool.and_eq_true_iff.mp h
    have ih := events_tokensOf v hv (.object :: containers)
      (.comma :: (memberTokensOf (e :: members) ++ .endObject :: ts))
    have ih' := events_memberTokensOf (e :: members) hrest (List.cons_ne_nil _ _) containers ts
    rw [memberTokensOf, memberEventsOf, List.isEmpty_cons, if_neg Bool.false_ne_true]
    simp only [List.cons_append, List.append_assoc, List.nil_append]
    change .key k :: (⟨.object :: containers, .value⟩ : Place).events _ = _
    rw [ih, ← ih']
    rfl

end

/-! ## Values -/

mutual

/-- How deep a value is nested. -/
def depth : Value → Nat
  | .arr items => itemsDepth items + 1
  | .obj members => membersDepth members + 1
  | _ => 0

/-- How deep the items of an array are nested. -/
def itemsDepth : List Value → Nat
  | [] => 0
  | v :: rest => max (depth v) (itemsDepth rest)

/-- How deep the members of an object are nested. -/
def membersDepth : List (String × Value) → Nat
  | [] => 0
  | (_, v) :: rest => max (depth v) (membersDepth rest)

end

theorem step?_beginArray {containers : List Open} (h : containers.length < Building.maxDepth) :
    (⟨containers, none⟩ : Building).step? .beginArray = some ⟨.items [] :: containers, none⟩ :=
  if_pos h

theorem step?_beginObject {containers : List Open} (h : containers.length < Building.maxDepth) :
    (⟨containers, none⟩ : Building).step? .beginObject =
      some ⟨.members [] "" :: containers, none⟩ :=
  if_pos h

mutual

/-- The events of a value put it into the innermost open container. -/
theorem foldlM_eventsOf : ∀ (v : Value), v.isNumberFree = true → ∀ containers : List Open,
    containers.length + v.depth ≤ Building.maxDepth →
      v.eventsOf.foldlM Building.step? ⟨containers, none⟩ = some (Building.push v containers)
  | .null, _, _, _ => rfl
  | .bool _, _, _, _ => rfl
  | .num _, h, _, _ => by cases h
  | .str _, _, _, _ => rfl
  | .arr items, h, containers, hdepth => by
    rw [depth] at hdepth
    rw [eventsOf, List.foldlM_cons, step?_beginArray (by omega), Option.bind_eq_bind,
      Option.bind_some, List.foldlM_append,
      foldlM_itemEventsOf items h containers [] (by omega), List.append_nil]
    change some (Building.push (.arr items.reverse.reverse) containers) = _
    rw [List.reverse_reverse]
  | .obj members, h, containers, hdepth => by
    rw [depth] at hdepth
    obtain ⟨key, hkey⟩ := foldlM_memberEventsOf members h containers [] "" (by omega)
    rw [eventsOf, List.foldlM_cons, step?_beginObject (by omega), Option.bind_eq_bind,
      Option.bind_some, List.foldlM_append, hkey, List.append_nil]
    change some (Building.push (.obj members.reverse.reverse) containers) = _
    rw [List.reverse_reverse]

theorem foldlM_itemEventsOf : ∀ (items : List Value), itemsNumberFree items = true →
    ∀ (containers : List Open) (read : List Value),
      containers.length + 1 + itemsDepth items ≤ Building.maxDepth →
      (itemEventsOf items).foldlM Building.step? ⟨.items read :: containers, none⟩ =
        some ⟨.items (items.reverse ++ read) :: containers, none⟩
  | [], _, _, _, _ => rfl
  | v :: items, h, containers, read, hdepth => by
    obtain ⟨hv, hrest⟩ := Bool.and_eq_true_iff.mp h
    rw [itemsDepth] at hdepth
    rw [itemEventsOf, List.foldlM_append, foldlM_eventsOf v hv (.items read :: containers)
      (by rw [List.length_cons]; omega)]
    change (itemEventsOf items).foldlM Building.step? ⟨.items (v :: read) :: containers, none⟩ = _
    rw [foldlM_itemEventsOf items hrest containers (v :: read) (by omega), List.reverse_cons,
      List.append_assoc, List.singleton_append]

theorem foldlM_memberEventsOf : ∀ (members : List (String × Value)),
    membersNumberFree members = true →
    ∀ (containers : List Open) (read : List (String × Value)) (key : String),
      containers.length + 1 + membersDepth members ≤ Building.maxDepth →
      ∃ key', (memberEventsOf members).foldlM Building.step?
          ⟨.members read key :: containers, none⟩ =
        some ⟨.members (members.reverse ++ read) key' :: containers, none⟩
  | [], _, _, _, key, _ => ⟨key, rfl⟩
  | (k, v) :: members, h, containers, read, key, hdepth => by
    obtain ⟨hv, hrest⟩ := Bool.and_eq_true_iff.mp h
    rw [membersDepth] at hdepth
    obtain ⟨key', hkey'⟩ :=
      foldlM_memberEventsOf members hrest containers ((k, v) :: read) k (by omega)
    refine ⟨key', ?_⟩
    rw [memberEventsOf, List.foldlM_cons]
    change (v.eventsOf ++ memberEventsOf members).foldlM Building.step?
      ⟨.members read k :: containers, none⟩ = _
    rw [List.foldlM_append, foldlM_eventsOf v hv (.members read k :: containers)
      (by rw [List.length_cons]; omega), List.reverse_cons, List.append_assoc,
      List.singleton_append, ← hkey']
    rfl

end

/-- The text of a value is read as the value. -/
theorem raw?_text {v : Value} (h : v.isNumberFree = true) (hdepth : v.depth ≤ Building.maxDepth) :
    raw? v.text = some v := by
  obtain ⟨fuel, hfuel⟩ := Nat.exists_eq_add_of_le v.length_tokensOf_le
  have htokens : tokens v.text.toList = v.tokensOf := by
    have hcut := tokensWithin_text v h fuel []
    rw [List.append_nil, tokensWithin_nil, List.append_nil] at hcut
    rw [tokens, hfuel, hcut]
  have hevents : events v.text = v.eventsOf ++ [.finish] := by
    have hplace := events_tokensOf v h [] []
    rw [List.append_nil] at hplace
    rw [events, htokens, Place.start, hplace]
    rfl
  rw [raw?, hevents, ofEvents?, List.foldlM_append,
    foldlM_eventsOf v h [] (by rw [List.length_nil]; omega)]
  rfl

theorem read?_text {v : Value} (h : v.isNumberFree = true) (hdepth : v.depth ≤ Building.maxDepth) :
    read? v.text = some v.canonical := by
  rw [read?, raw?_text h hdepth, Option.map_some]

end Value

end DocGraph.Json
