import DocGraph.Column.Packing
import DocGraph.Proofs.Json.Strings
import DocGraph.Proofs.Outcome
import DocGraph.Proofs.Sparql.Semantics

/-!
# Unpacking what was packed

The packed text of an array of percent-encoded texts is unpacked to the texts that
are not empty, in their order (`unpackValues_packed`).
-/

namespace DocGraph.Packing

open Json (IsPlainChar Value itemChars)
open Sparql (concatenated)
open Text (Percent.encode Percent.decode?)

/-- The text that the texts of values are packed in. -/
def textOf (packing : Packing) (texts : List String) : String :=
  packing.opening ++ concatenated packing.separator texts ++ packing.closing

/-- The packed text of an array of encoded values. -/
def packedValues (encoded : List String) : String :=
  values.opening ++ concatenated values.separator encoded ++ values.closing

theorem toList_concatenated_cons (separator s next : String) (rest : List String) :
    (concatenated separator (s :: next :: rest)).toList =
      s.toList ++ (separator.toList ++ (concatenated separator (next :: rest)).toList) := by
  simp only [concatenated, String.toList_join, List.intersperse, List.flatMap_cons]

/-- The packed text is that of the array of the encoded values; without any it is that
of the empty text. -/
theorem toList_packedValues (encoded : List String) :
    (packedValues encoded).toList =
      '[' :: itemChars (if encoded = [] then [""] else encoded) := by
  have hitems (s : String) (rest : List String) :
      '"' :: (concatenated values.separator (s :: rest)).toList ++ ['"', ']'] =
        itemChars (s :: rest) := by
    induction rest generalizing s with
    | nil =>
      simp only [concatenated, String.toList_join, List.intersperse_singleton, List.flatMap_cons,
        List.flatMap_nil, List.append_nil, itemChars]
    | cons next rest ih =>
      rw [toList_concatenated_cons, itemChars, ← ih next,
        show values.separator.toList = ['"', ',', ' ', '"'] from rfl]
      simp only [List.cons_append, List.append_assoc, List.nil_append]
  rw [packedValues, String.toList_append, String.toList_append,
    show values.opening.toList = ['[', '"'] from rfl,
    show values.closing.toList = ['"', ']'] from rfl]
  cases encoded with
  | nil => rfl
  | cons s rest =>
    rw [if_neg (List.cons_ne_nil _ _), ← hitems]
    rfl

/-- No character of a percent-encoded text needs an escape. -/
theorem isPlainChar_of_mem_encode {s : String} {c : Char} (h : c ∈ (Percent.encode s).toList) :
    IsPlainChar c := by
  have henc := Text.Percent.isEncoded_of_mem_encode h
  refine ⟨?_, ?_, fun hlt => ?_⟩
  · rintro rfl
    revert henc
    decide
  · rintro rfl
    revert henc
    decide
  · have hcontrol : ∀ n < 0x20, Text.Percent.isEncoded (Char.ofNat n) = false := by decide
    rw [← Char.ofNat_toNat c, hcontrol _ hlt] at henc
    cases henc

/-- Packed texts are unpacked, but for the empty ones. -/
theorem unpackValues_packed (path : String) (texts : List String) :
    unpackValues path (packedValues (texts.map Percent.encode)) =
      .ok (texts.filter (· ≠ "")) := by
  have hread : Value.read? (packedValues (texts.map Percent.encode)) =
      some (.arr ((if texts.map Percent.encode = [] then [""] else
        texts.map Percent.encode).map .str)) := by
    rw [← String.ofList_toList (s := packedValues _), toList_packedValues]
    refine Value.read?_array ?_ ?_
    · split
      · exact List.cons_ne_nil _ _
      · assumption
    · split
      · simp
      · intro s hs c hc
        obtain ⟨t, -, rfl⟩ := List.mem_map.mp hs
        exact isPlainChar_of_mem_encode hc
  have hstr (ss : List String) : (ss.map Value.str).mapM Value.str? = some ss := by
    induction ss with
    | nil => rfl
    | cons s rest ih =>
      rw [List.map_cons, List.mapM_cons, ih]
      rfl
  have hfilter : (if texts.map Percent.encode = [] then [""] else
      texts.map Percent.encode).filter (· ≠ "") =
        (texts.filter (· ≠ "")).map Percent.encode := by
    have hiff (s : String) : decide (Percent.encode s ≠ "") = decide (s ≠ "") :=
      decide_eq_decide.mpr (not_congr Text.Percent.encode_eq_empty)
    split
    · next hnil =>
      rw [List.map_eq_nil_iff.mp hnil]
      rfl
    · rw [List.filter_map]
      congr 1
      exact List.filter_congr fun s _ => hiff s
  unfold unpackValues
  rw [hread, Option.bind_some, Value.arr?, Option.bind_some, hstr]
  dsimp only
  rw [hfilter, Outcome.mapM_eq_ok, List.forall₂_map_left_iff, List.forall₂_same]
  intro s _
  rw [decodeElement, Text.Percent.decode?_encode]

end DocGraph.Packing
