import DocGraph.Text.Percent
import DocGraph.Rdf.Term
import DocGraph.Rdf.Variable

/-!
# Writing terms

The N-Triples form of terms, and of variables. IRIs and names are written as
they are. In literals quotes, backslashes and control characters are escaped,
the latter by a letter where there is one and else by four upper case
hexadecimal digits.
-/

namespace DocGraph.Rdf

open DocGraph.Text.Percent (hexDigit)

/-- An IRI in angle brackets. -/
def Iri.render (i : Iri) : String :=
  "<" ++ i.text ++ ">"

/-- A variable after its question mark. -/
def Variable.render (v : Variable) : String :=
  "?" ++ v.name

/-- The written form of one character of a literal. -/
def escapeLiteralChar (c : Char) : List Char :=
  if c = '\x08' then ['\\', 'b']
  else if c = '\t' then ['\\', 't']
  else if c = '\n' then ['\\', 'n']
  else if c = '\x0c' then ['\\', 'f']
  else if c = '\r' then ['\\', 'r']
  else if c = '"' then ['\\', '"']
  else if c = '\\' then ['\\', '\\']
  else if c.toNat < 0x20 ∨ c.toNat = 0x7F then
    ['\\', 'u', '0', '0', hexDigit (c.toNat / 16), hexDigit (c.toNat % 16)]
  else [c]

/-- The text of a literal in quotes. -/
def quoteLiteral (s : String) : String :=
  String.ofList ('"' :: s.toList.flatMap escapeLiteralChar ++ ['"'])

/-- A literal with its tag or datatype. -/
def Literal.render : Literal → String
  | .plain value => quoteLiteral value
  | .tagged value tag => quoteLiteral value ++ "@" ++ tag
  | .typed value datatype =>
    if datatype = xsd "string" then quoteLiteral value
    else quoteLiteral value ++ "^^" ++ datatype.render

/-- A term. -/
def Term.render : Term → String
  | .iri i => i.render
  | .blank name => "_:" ++ name
  | .literal l => l.render

end DocGraph.Rdf
