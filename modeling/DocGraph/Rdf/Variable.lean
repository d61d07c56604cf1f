import DocGraph.Rdf.Iri

/-!
# Names of variables and blank nodes

The names that SPARQL admits for a variable and Turtle for a blank node. Both
are built on one class of letters.
-/

namespace DocGraph.Rdf

open DocGraph.Number (isDigit)

/-- A variable of a query. -/
structure Variable where
  name : String
  deriving DecidableEq

/-- The letters of names. -/
def isNameLetter (c : Char) : Bool :=
  let n := c.toNat
  Iri.isLetter c || (0xC0 ≤ n && n ≤ 0xD6) || (0xD8 ≤ n && n ≤ 0xF6) || (0xF8 ≤ n && n ≤ 0x2FF) ||
    (0x370 ≤ n && n ≤ 0x37D) || (0x37F ≤ n && n ≤ 0x1FFF) || (0x200C ≤ n && n ≤ 0x200D) ||
    (0x2070 ≤ n && n ≤ 0x218F) || (0x2C00 ≤ n && n ≤ 0x2FEF) || (0x3001 ≤ n && n ≤ 0xD7FF) ||
    (0xF900 ≤ n && n ≤ 0xFDCF) || (0xFDF0 ≤ n && n ≤ 0xFFFD) || (0x10000 ≤ n && n ≤ 0xEFFFF)

/-- The combining characters that may follow in a name. -/
def isNameMark (c : Char) : Bool :=
  let n := c.toNat
  n == 0xB7 || (0x300 ≤ n && n ≤ 0x36F) || (0x203F ≤ n && n ≤ 0x2040)

/-- Whether a character may begin the name of a variable or a blank node. -/
def beginsName (c : Char) : Bool :=
  isDigit c || c == '_' || c == ':' || isNameLetter c

/-- Whether a character may follow in the name of a variable. -/
def continuesVariable (c : Char) : Bool :=
  isDigit c || c == '_' || isNameLetter c || isNameMark c

/-- Whether a character may follow in the name of a blank node. -/
def continuesBlankNode (c : Char) : Bool :=
  beginsName c || isNameMark c || c == '-' || c == '.'

/-- The variable with a given name, if the name is a valid one. -/
def Variable.ofName? (s : String) : Option Variable :=
  match s.toList with
  | [] => none
  | c :: cs => if beginsName c && cs.all continuesVariable then some ⟨s⟩ else none

/-- Whether a text is a valid name of a blank node. -/
def isBlankNodeName (s : String) : Bool :=
  match s.toList with
  | [] => false
  | c :: cs => beginsName c && cs.all continuesBlankNode && cs.getLast? != some '.'

end DocGraph.Rdf
