import DocGraph.Rdf.Iri

/-!
# Language tags

Well-formed tags of BCP 47: a language, up to three extended languages, a
script, a region, variants, extensions and a private part, or one of the tags
that were registered before that grammar, or a private part alone.
-/

namespace DocGraph.Rdf.LanguageTag

open DocGraph.Number (isDigit)
open Iri (isLetter)

/-- Whether a character may stand in a subtag. -/
def isTagChar (c : Char) : Bool :=
  isLetter c || isDigit c

/-- The part of a tag that has been read. -/
inductive Progress where
  | nothing
  /-- A short language and this many extended languages. -/
  | language (extended : Nat)
  /-- A language that no extended language may follow. -/
  | longLanguage
  | script
  | region
  /-- An extension, and whether it still needs a subtag. -/
  | extension (pending : Bool)
  /-- The private part, and whether it still needs a subtag. -/
  | privateUse (pending : Bool)

namespace Progress

/-- Whether a script may follow. -/
def beforeScript : Progress → Bool
  | .language _ | .longLanguage => true
  | _ => false

/-- Whether a region may follow. -/
def beforeRegion : Progress → Bool
  | .script => true
  | p => p.beforeScript

/-- Whether a variant may follow. -/
def beforeVariant : Progress → Bool
  | .region => true
  | p => p.beforeRegion

/-- Whether a tag may end here. -/
def isComplete : Progress → Bool
  | .nothing | .extension true | .privateUse true => false
  | _ => true

/-- A subtag of a language, its script, region and variants. -/
def main? (p : Progress) (s : List Char) : Option Progress :=
  let letters := s.all isLetter
  let digits := s.all isDigit
  match p, s.length, letters with
  | .language extended, 3, true => if extended < 3 then some (.language (extended + 1)) else none
  | _, _, _ =>
    if p.beforeScript ∧ s.length = 4 ∧ letters then some .script
    else if p.beforeRegion ∧ ((s.length = 2 ∧ letters) ∨ (s.length = 3 ∧ digits)) then some .region
    else if p.beforeVariant ∧ s.all isTagChar ∧
        ((5 ≤ s.length ∧ (s.head?.map isLetter).getD false) ∨
          (4 ≤ s.length ∧ (s.head?.map isDigit).getD false)) then some .region
    else none

/-- Whether a subtag opens the private part. -/
def isPrivateMark (s : List Char) : Bool :=
  s = ['x'] || s = ['X']

/-- The progress after one more subtag. A tag may open with its private part. -/
def step? (p : Progress) (s : List Char) : Option Progress :=
  if s = [] ∨ 8 < s.length then none
  else
    match p with
    | .nothing =>
      if isPrivateMark s then some (.privateUse true)
      else if s.length < 2 ∨ ¬ s.all isLetter then none
      else if s.length < 4 then some (.language 0)
      else some .longLanguage
    | .privateUse _ => if s.all isTagChar then some (.privateUse false) else none
    | p =>
      if s.length = 1 ∧ s.all isTagChar then
        match p with
        | .extension true => none
        | _ => if isPrivateMark s then some (.privateUse true) else some (.extension true)
      else
        match p with
        | .extension _ => if s.all isTagChar then some (.extension false) else none
        | p => p.main? s

end Progress

/-- The tags that were registered before the grammar, in lower case. -/
def registered : List String :=
  ["art-lojban", "cel-gaulish", "en-gb-oed", "i-ami", "i-bnn", "i-default", "i-enochian", "i-hak",
    "i-klingon", "i-lux", "i-mingo", "i-navajo", "i-pwn", "i-tao", "i-tay", "i-tsu", "no-bok",
    "no-nyn", "sgn-be-fr", "sgn-be-nl", "sgn-ch-de", "zh-guoyu", "zh-hakka", "zh-min",
    "zh-min-nan", "zh-xiang"]

/-- Whether a text is a well-formed language tag. -/
def isWellFormed (s : String) : Bool :=
  registered.contains s.toLower ||
    (((s.toList.splitOn '-').foldlM Progress.step? Progress.nothing).map
      Progress.isComplete).getD false

end DocGraph.Rdf.LanguageTag
