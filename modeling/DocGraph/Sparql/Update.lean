import DocGraph.Sparql.Printer

/-!
# Updates

Inserting quads, and deleting and inserting quads for each solution of a
pattern.
-/

namespace DocGraph.Sparql

open Rdf (Iri)

/-- A triple in a named graph, or in the default one. -/
structure Quad where
  triple : Triple
  graph : Option Iri
  deriving DecidableEq

/-- An update. -/
inductive Update where
  | insertData (quads : List Quad)
  /-- For each solution of `pattern`, the quads to delete and to insert. -/
  | modify (deleted inserted : List Quad) (pattern : Pattern)

/-- A quad. -/
def Quad.text (q : Quad) : String :=
  match q.graph with
  | none => q.triple.text
  | some g => "GRAPH " ++ g.render ++ " " ++ braced q.triple.text

/-- A quad as data. A graph closes itself, and a triple is closed by a dot. -/
def Quad.statement (q : Quad) : String :=
  match q.graph with
  | none => q.text ++ " ."
  | some _ => q.text

/-- Lines in braces. -/
def block (lines : List String) : String :=
  "\x7b\n" ++ String.join (lines.map fun line => "\t" ++ line ++ "\n") ++ "\x7d"

/-- The template of the quads to delete or to insert; nothing without any. -/
def template (verb : String) (quads : List Quad) : String :=
  if quads.isEmpty then "" else verb ++ " " ++ block (quads.map fun q => q.text ++ " .") ++ "\n"

/-- An update. -/
def Update.text : Update → String
  | .insertData quads => "INSERT DATA " ++ block (quads.map Quad.statement) ++ " ;\n"
  | .modify deleted inserted pattern =>
    template "DELETE" deleted ++ template "INSERT" inserted ++
      "WHERE " ++ braced pattern.query ++ " ;\n"

end DocGraph.Sparql
