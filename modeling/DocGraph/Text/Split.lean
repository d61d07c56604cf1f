/-!
# Splitting and joining text at a character

Dotted paths, dotted field names and variable names are all lists of segments
written with one separator between neighbours. `split_join` and `join_split`
say that the two operations undo each other.
-/

namespace DocGraph.Text

/-- The segments of a text between the occurrences of `sep`: one more than
there are occurrences, so the empty text has one empty segment. -/
def split (sep : Char) (s : String) : List String :=
  (s.toList.splitOn sep).map String.ofList

/-- The segments with `sep` between neighbours. -/
def join (sep : Char) (segments : List String) : String :=
  String.ofList ([sep].intercalate (segments.map String.toList))

theorem join_split (sep : Char) (s : String) : join sep (split sep s) = s := by
  have h : (String.toList ∘ String.ofList) = id := by
    funext l
    simp
  simp [join, split, h, List.intercalate_splitOn]

theorem split_join (sep : Char) (segments : List String) (hne : segments ≠ [])
    (hsep : ∀ s ∈ segments, sep ∉ s.toList) : split sep (join sep segments) = segments := by
  have h : (String.ofList ∘ String.toList) = id := by
    funext s
    simp
  unfold join split
  rw [String.toList_ofList, List.splitOn_intercalate]
  · simp [h]
  · simpa using hsep
  · simpa using hne

/-- The text after the first part `start`, if the text begins with it. -/
def afterStart? (start s : String) : Option String :=
  if start.toList.isPrefixOf s.toList then
    some (String.ofList (s.toList.drop start.toList.length))
  else none

/-- The text without the characters in `cs` at either end. -/
def trimChars (cs : List Char) (s : String) : String :=
  String.ofList (((s.toList.dropWhile (· ∈ cs)).reverse.dropWhile (· ∈ cs)).reverse)

end DocGraph.Text
