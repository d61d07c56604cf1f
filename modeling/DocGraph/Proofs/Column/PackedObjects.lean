import DocGraph.Proofs.Column.Packed
import DocGraph.Proofs.Dict
import DocGraph.Proofs.Json.Written

/-!
# Unpacking packed objects

The packed text of objects that have a member each is the text of an array of them
(`packedObjects_eq_text`), although its fragments split the quotes of a value between
them. So it is unpacked to the objects, whatever characters their keys and values
hold, but for empty members and objects without others (`unpackObjects_packed`).
Packing and unpacking, of values and of objects, is `unpack_packed`.
-/

namespace DocGraph.Packing

open Json (IsPlainChar Value escapeChar quote)
open Sparql (concatenated)
open Text (Percent.encode Percent.decode?)

/-- The text of an object from its member at an index on. -/
def membersFrom (index : Nat) : List (String × String) → String
  | [] => objectEnd
  | (key, value) :: rest =>
    memberStart index key ++ Percent.encode value ++ membersFrom (index + 1) rest

/-- The packed text of an object. -/
def packedObject (members : List (String × String)) : String :=
  membersFrom 0 members

/-- The packed text of an array of objects. -/
def packedObjects (os : List (List (String × String))) : String :=
  objects.opening ++ concatenated objects.separator (os.map packedObject) ++ objects.closing

/-- The members of an object with encoded values. -/
def encodedMembers (members : List (String × String)) : List (String × Value) :=
  members.map fun m => (m.1, .str (Percent.encode m.2))

theorem encodedMembers_cons (m : String × String) (rest : List (String × String)) :
    encodedMembers (m :: rest) = (m.1, .str (Percent.encode m.2)) :: encodedMembers rest :=
  rfl

/-! ## The text of an array -/

theorem escapeChar_of_isPlainChar {c : Char} (h : IsPlainChar c) : escapeChar c = [c] := by
  obtain ⟨hquote, hbackslash, hcontrol⟩ := h
  have hne {d : Char} (hd : d.toNat < 0x20) : c ≠ d := fun he => hcontrol (he ▸ hd)
  rw [escapeChar, if_neg hquote, if_neg hbackslash, if_neg (hne (by decide)),
    if_neg (hne (by decide)), if_neg (hne (by decide)), if_neg (hne (by decide)),
    if_neg (hne (by decide)), if_neg hcontrol]

/-- A percent-encoded text is put in quotes as it is. -/
theorem quote_encode (s : String) :
    quote (Percent.encode s) = "\"" ++ Percent.encode s ++ "\"" := by
  have hplain : (Percent.encode s).toList.flatMap escapeChar = (Percent.encode s).toList := by
    rw [List.flatMap_congr fun c hc => escapeChar_of_isPlainChar (isPlainChar_of_mem_encode hc),
      List.flatMap_singleton']
  rw [quote, hplain, ← String.toList_inj]
  simp

theorem membersFrom_succ (index : Nat) (members : List (String × String)) :
    membersFrom (index + 1) members =
      "\"" ++ (if members.isEmpty then "" else ",") ++
        Value.membersText (encodedMembers members) ++ "\x7d" := by
  induction members generalizing index with
  | nil => rfl
  | cons m rest ih =>
    obtain ⟨key, value⟩ := m
    have hempty : (encodedMembers rest).isEmpty = rest.isEmpty := List.isEmpty_map
    rw [membersFrom, ih, memberStart, if_neg (Nat.succ_ne_zero index),
      encodedMembers_cons, Value.membersText, Value.text, quote_encode, hempty,
      List.isEmpty_cons, if_neg Bool.false_ne_true, ← String.toList_inj]
    simp

/-- The fragments of an object make up its text. -/
theorem packedObject_eq_text {members : List (String × String)} (h : members ≠ []) :
    packedObject members = (Value.obj (encodedMembers members)).text := by
  obtain ⟨⟨key, value⟩, rest, rfl⟩ := List.exists_cons_of_ne_nil h
  have hempty : (encodedMembers rest).isEmpty = rest.isEmpty := List.isEmpty_map
  rw [packedObject, membersFrom, membersFrom_succ, memberStart, if_pos rfl,
    encodedMembers_cons, Value.text, Value.membersText, Value.text, quote_encode, hempty,
    ← String.toList_inj]
  simp

theorem concatenated_text (vs : List Value) :
    concatenated objects.separator (vs.map Value.text) = Value.itemsText vs := by
  induction vs with
  | nil => rfl
  | cons v rest ih =>
    rw [← String.toList_inj] at ih ⊢
    cases rest with
    | nil => simp [concatenated, Value.itemsText]
    | cons w rest =>
      rw [List.map_cons, List.map_cons, toList_concatenated_cons, ← List.map_cons, ih,
        Value.itemsText.eq_2 v, List.isEmpty_cons, if_neg Bool.false_ne_true,
        String.toList_append, String.toList_append, List.append_assoc]
      rfl

/-- The packed text of objects is that of an array. -/
theorem packedObjects_eq_text {os : List (List (String × String))} (h : ∀ o ∈ os, o ≠ []) :
    packedObjects os = (Value.arr (os.map fun o => .obj (encodedMembers o))).text := by
  have hobjects : os.map packedObject =
      (os.map fun o => Value.obj (encodedMembers o)).map Value.text := by
    rw [List.map_map]
    exact List.map_congr_left fun o ho => packedObject_eq_text (h o ho)
  rw [packedObjects, hobjects, concatenated_text]
  rfl

/-! ## Reading it -/

section Reading

open Json.Value

theorem membersNumberFree_encodedMembers (members : List (String × String)) :
    membersNumberFree (encodedMembers members) = true := by
  induction members with
  | nil => rfl
  | cons m rest ih => exact ih

theorem membersDepth_encodedMembers (members : List (String × String)) :
    membersDepth (encodedMembers members) = 0 := by
  induction members with
  | nil => rfl
  | cons m rest ih =>
    rw [encodedMembers_cons, membersDepth, ih]
    rfl

theorem canonicalMembers_encodedMembers (members : List (String × String)) :
    canonicalMembers (encodedMembers members) = encodedMembers members := by
  induction members with
  | nil => rfl
  | cons m rest ih =>
    rw [encodedMembers_cons, canonicalMembers, ih]
    rfl

theorem itemsNumberFree_encodedMembers (os : List (List (String × String))) :
    itemsNumberFree (os.map fun o => .obj (encodedMembers o)) = true := by
  induction os with
  | nil => rfl
  | cons o rest ih =>
    rw [List.map_cons, itemsNumberFree, ih, isNumberFree, membersNumberFree_encodedMembers]
    rfl

theorem itemsDepth_encodedMembers_le (os : List (List (String × String))) :
    itemsDepth (os.map fun o => .obj (encodedMembers o)) ≤ 1 := by
  induction os with
  | nil => exact Nat.zero_le _
  | cons o rest ih =>
    rw [List.map_cons, itemsDepth, depth, membersDepth_encodedMembers]
    exact Nat.max_le.mpr ⟨Nat.le_refl _, ih⟩

/-- Reading puts the members of every object in order. -/
theorem canonicalItems_encodedMembers (os : List (List (String × String))) :
    canonicalItems (os.map fun o => .obj (encodedMembers o)) =
      os.map fun o => .obj (encodedMembers (Dict.ofEntries o)) := by
  induction os with
  | nil => rfl
  | cons o rest ih =>
    rw [List.map_cons, canonicalItems, ih, canonical, canonicalMembers_encodedMembers,
      List.map_cons]
    unfold encodedMembers
    rw [Dict.ofEntries_map fun s => Value.str (Percent.encode s)]

theorem read?_packedObjects {os : List (List (String × String))} (h : ∀ o ∈ os, o ≠ []) :
    read? (packedObjects os) =
      some (.arr (os.map fun o => .obj (encodedMembers (Dict.ofEntries o)))) := by
  have hfree : (Value.arr (os.map fun o => .obj (encodedMembers o))).isNumberFree = true := by
    rw [isNumberFree, itemsNumberFree_encodedMembers]
  have hdepth : (Value.arr (os.map fun o => .obj (encodedMembers o))).depth ≤ 2 := by
    rw [depth]
    exact Nat.succ_le_succ (itemsDepth_encodedMembers_le os)
  rw [packedObjects_eq_text h, read?_text hfree (hdepth.trans (by decide)), canonical,
    canonicalItems_encodedMembers]

end Reading

theorem unpackMembers_encodedMembers (path : String) (members : List (String × String)) :
    unpackMembers path (encodedMembers members) = .ok (members.filter (·.2 ≠ "")) := by
  induction members with
  | nil => rfl
  | cons m rest ih =>
    obtain ⟨key, value⟩ := m
    rw [encodedMembers_cons, unpackMembers, ih, decodeElement, Text.Percent.decode?_encode]
    by_cases hvalue : value = ""
    · subst hvalue
      rfl
    · change Except.ok (if value = "" then _ else _) = _
      rw [if_neg hvalue, List.filter_cons, if_pos (decide_eq_true hvalue)]

/-- Packed objects are unpacked, in key order, but for empty members and what is empty
then. -/
theorem unpackObjects_packed (path : String) {os : List (List (String × String))}
    (h : ∀ o ∈ os, o ≠ []) :
    unpackObjects path (packedObjects os) =
      .ok ((os.map fun o => (Dict.ofEntries o).filter (·.2 ≠ "")).filter (· ≠ [])) := by
  have hobj : (os.map fun o => Value.obj (encodedMembers (Dict.ofEntries o))).mapM Value.obj? =
      some (os.map fun o => encodedMembers (Dict.ofEntries o)) := by
    clear h
    induction os with
    | nil => rfl
    | cons o rest ih =>
      rw [List.map_cons, List.mapM_cons, ih]
      rfl
  have hmembers : (os.map fun o => encodedMembers (Dict.ofEntries o)).mapM (unpackMembers path) =
      .ok (os.map fun o => (Dict.ofEntries o).filter (·.2 ≠ "")) := by
    rw [Outcome.mapM_eq_ok, List.forall₂_map_left_iff, List.forall₂_map_right_iff,
      List.forall₂_same]
    exact fun o _ => unpackMembers_encodedMembers path _
  unfold unpackObjects
  rw [read?_packedObjects h, Option.bind_some, Value.arr?, Option.bind_some, hobj]
  dsimp only
  rw [hmembers]
  rfl

/-- Unpacking undoes packing, of texts and of objects whose members are in key order, but
for what is empty; and a text is packed byte by byte. -/
theorem unpack_packed (path : String) :
    (∀ texts : List String,
      unpackValues path (packedValues (texts.map Percent.encode)) =
        .ok (texts.filter (· ≠ ""))) ∧
    (∀ os : List (Dict String), (∀ o ∈ os, o ≠ [] ∧ Dict.IsSorted o) →
      unpackObjects path (packedObjects os) =
        .ok ((os.map fun o => o.filter (·.2 ≠ "")).filter (· ≠ []))) ∧
    ∀ text : String, (Percent.encode text).toList =
      text.toUTF8.data.toList.flatMap Text.Percent.encodeByte := by
  refine ⟨unpackValues_packed path, fun os h => ?_, Text.Percent.toList_encode⟩
  have hentries : (os.map fun o => (Dict.ofEntries o).filter (·.2 ≠ "")) =
      os.map fun o => o.filter (·.2 ≠ "") :=
    List.map_congr_left fun o ho => by rw [Dict.ofEntries_of_isSorted (h o ho).2]
  rw [unpackObjects_packed path fun o ho => (h o ho).1, hentries]

/-- Objects with quotes, a backslash, a line end and characters of two and four bytes. -/
def oddObjects : List (Dict String) :=
  [[("\n\"\\", "a/b é"), ("z", "")], [("😀", "\"]")], [("none", "")]]

theorem unpack_packed_oddObjects :
    (∀ o ∈ oddObjects, o ≠ [] ∧ Dict.IsSorted o) ∧
      unpackObjects "friends" (packedObjects oddObjects) =
        .ok [[("\n\"\\", "a/b é")], [("😀", "\"]")]] := by
  have hsorted : ∀ o ∈ oddObjects, o ≠ [] ∧ Dict.IsSorted o := by
    unfold Dict.IsSorted
    decide
  refine ⟨hsorted, ((unpack_packed "friends").2.1 oddObjects hsorted).trans ?_⟩
  rfl

end DocGraph.Packing
