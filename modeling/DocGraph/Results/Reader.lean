import DocGraph.Json.Event
import DocGraph.Rdf.LanguageTag
import DocGraph.Rdf.Term
import DocGraph.Rdf.Variable

/-!
# Reading results

The rows of a SPARQL results document in JSON. A document is read event by
event, so that the rows before a fault are known. The variables of the head may
come after the rows; a document without them, or with neither rows nor a truth
value, is malformed. Unknown members do not count before the rows; once rows with
known variables have ended, the document has to end too.
-/

namespace DocGraph.Results

open Json (Event)
open Rdf (Iri Literal Term Variable)

/-- A row: the terms of the variables that are bound in it. -/
abbrev Row := List (Variable × Term)

/-- The members of a term. -/
structure TermParts where
  kind : Option String := none
  value : Option String := none
  tag : Option String := none
  datatype : Option Iri := none

/-- The literal of a value, a tag and a datatype. A tag admits no datatype but
its own. -/
def literal? (value : String) (tag : Option String) (datatype : Option Iri) : Option Literal :=
  match tag, datatype with
  | some tag, datatype =>
    if datatype.all (· = Rdf.rdf "langString") ∧ Rdf.LanguageTag.isWellFormed tag then
      some (.tagged value tag.toLower)
    else none
  | none, some datatype => some (.ofDatatype value datatype)
  | none, none => some (.plain value)

/-- The term that the members make. -/
def TermParts.term? (p : TermParts) : Option Term := do
  let kind ← p.kind
  let value ← p.value
  match kind with
  | "uri" => (Iri.ofText? value).map .iri
  | "bnode" => if Rdf.isBlankNodeName value then some (.blank value) else none
  | _ => (literal? value p.tag p.datatype).map .literal

/-- The kinds of terms. -/
def termKinds : List String :=
  ["uri", "bnode", "literal", "typed-literal"]

/-- The parts with the text of one more member; none for an unknown member and
an invalid text. -/
def TermParts.set? (p : TermParts) (key text : String) : Option TermParts :=
  match key with
  | "type" => if termKinds.contains text then some { p with kind := some text } else none
  | "value" => some { p with value := some text }
  | "xml:lang" => some { p with tag := some text }
  | "datatype" => (Iri.ofText? text).map fun i => { p with datatype := some i }
  | _ => none

/-- The object that unknown content is skipped in. -/
inductive Enclosing where
  | document
  | head
  | results
  | resultsAfterRows

/-- Where the reader is. -/
inductive State where
  | start
  | document
  | beforeHead
  | head
  | beforeVars
  | vars
  | beforeLinks
  | links
  | beforeResults
  | results
  | beforeBindings
  /-- Between the rows. -/
  | bindings
  /-- Between the members of a row. -/
  | row (read : List (String × Term))
  | beforeTerm (read : List (String × Term)) (name : String)
  | term (read : List (String × Term)) (name : String) (parts : TermParts)
  | termMember (read : List (String × Term)) (name : String) (parts : TermParts) (key : String)
  /-- In the results, after rows that wait for the variables. -/
  | resultsAfterRows
  | beforeBoolean
  /-- Inside unknown content, this many containers deep. -/
  | unknown (enclosing : Enclosing) (depth : Nat)
  /-- After rows whose variables are known, where objects may only end. -/
  | closing

/-- What has been read: the variables, once they are complete, and the rows as
they are written. -/
structure Reader where
  state : State := .start
  vars : List Variable := []
  varsComplete : Bool := false
  bindingsComplete : Bool := false
  /-- The rows that wait for the variables. -/
  waiting : List (List (String × Term)) := []

/-- What an event completes. -/
inductive Output where
  | nothing
  /-- Rows whose variables are known. -/
  | rows (rows : List (List (String × Term)))
  /-- All rows have been read, and nothing after them counts. -/
  | lastRows (rows : List (List (String × Term)))
  | boolean
  /-- The end of a document with rows. -/
  | finish

/-- The state after unknown content. -/
def Enclosing.state : Enclosing → State
  | .document => .document
  | .head => .head
  | .results => .results
  | .resultsAfterRows => .resultsAfterRows

/-- The state inside unknown content after one more event. -/
def skipped (enclosing : Enclosing) (depth : Nat) : Event → State
  | .beginArray | .beginObject => .unknown enclosing (depth + 1)
  | .endArray | .endObject => if depth ≤ 1 then enclosing.state else .unknown enclosing (depth - 1)
  | .key _ => .unknown enclosing depth
  | _ => if depth = 0 then enclosing.state else .unknown enclosing depth

namespace Reader

/-- The reader in another state. -/
def goto (r : Reader) (state : State) : Option (Output × Reader) :=
  some (.nothing, { r with state := state })

/-- A key of the document. -/
def documentKey (r : Reader) : String → Option (Output × Reader)
  | "head" => r.goto .beforeHead
  | "results" => r.goto .beforeResults
  | "boolean" => r.goto .beforeBoolean
  | _ => r.goto (.unknown .document 0)

/-- A key of the head. -/
def headKey (r : Reader) : String → Option (Output × Reader)
  | "vars" => r.goto .beforeVars
  | "links" => r.goto .beforeLinks
  | _ => r.goto (.unknown .head 0)

/-- A key of the results. -/
def resultsKey (r : Reader) : String → Option (Output × Reader)
  | "bindings" => r.goto .beforeBindings
  | _ => r.goto (.unknown .results 0)

/-- A variable of the head. -/
def declare (r : Reader) (name : String) : Option (Output × Reader) := do
  let v ← Variable.ofName? name
  if v ∈ r.vars then none
  else some (.nothing, { r with vars := r.vars ++ [v] })

/-- The end of the variables. Rows that have waited for them are the last
ones. -/
def endVars (r : Reader) : Option (Output × Reader) :=
  if r.bindingsComplete then
    some (.lastRows r.waiting, { r with state := .head, varsComplete := true })
  else some (.nothing, { r with state := .head, varsComplete := true })

/-- The end of a row. Its members wait until the variables are known. -/
def endRow (r : Reader) (read : List (String × Term)) : Option (Output × Reader) :=
  if r.varsComplete then some (.rows [read], { r with state := .bindings })
  else some (.nothing, { r with state := .bindings, waiting := r.waiting ++ [read] })

/-- The end of the rows. -/
def endBindings (r : Reader) : Option (Output × Reader) :=
  let state := if r.varsComplete then State.closing else .resultsAfterRows
  some (.nothing, { r with state := state, bindingsComplete := true })

/-- The key of a row's member, which has to be a variable once these are
known. -/
def rowKey (r : Reader) (read : List (String × Term)) (name : String) : Option (Output × Reader) :=
  if r.varsComplete ∧ ¬ r.vars.any (·.name = name) then none else r.goto (.beforeTerm read name)

/-- What an event completes, and the reader after it; none when the event is a
fault. -/
def step? (r : Reader) (e : Event) : Option (Output × Reader) :=
  match r.state, e with
  | _, .fault => none
  | .closing, .endObject => r.goto .closing
  | .closing, .finish => some (.finish, r)
  | .start, .beginObject => r.goto .document
  | .document, .key k => r.documentKey k
  | .beforeHead, .beginObject => r.goto .head
  | .head, .key k => r.headKey k
  | .head, .endObject => r.goto .document
  | .beforeVars, .beginArray => r.goto .vars
  | .vars, .str name => r.declare name
  | .vars, .endArray => r.endVars
  | .beforeLinks, .beginArray => r.goto .links
  | .links, .str _ => r.goto .links
  | .links, .endArray => r.goto .head
  | .beforeResults, .beginObject => r.goto .results
  | .results, .key k => r.resultsKey k
  | .resultsAfterRows, .key _ => r.goto (.unknown .resultsAfterRows 0)
  | .resultsAfterRows, .endObject => r.goto .document
  | .beforeBindings, .beginArray => r.goto .bindings
  | .bindings, .beginObject => r.goto (.row [])
  | .bindings, .endArray => r.endBindings
  | .row read, .key name => r.rowKey read name
  | .row read, .endObject => r.endRow read
  | .beforeTerm read name, .beginObject => r.goto (.term read name {})
  | .term read name parts, .key key => r.goto (.termMember read name parts key)
  | .term read name parts, .endObject => do r.goto (.row (read ++ [(name, ← parts.term?)]))
  | .termMember read name parts key, .str text => do
    r.goto (.term read name (← parts.set? key text))
  | .beforeBoolean, .bool _ => some (.boolean, r)
  | .unknown enclosing depth, e => r.goto (skipped enclosing depth e)
  | _, _ => none

end Reader

/-- A row with its terms in the order of the variables, the last of two terms of
one variable counting; none when a name is no variable. -/
def row? (vars : List Variable) (read : List (String × Term)) : Option Row :=
  if read.all fun (name, _) => vars.any (·.name = name) then
    some (vars.filterMap fun v => (read.reverse.find? (·.1 = v.name)).map fun (_, t) => (v, t))
  else none

/-- How a document ends. -/
inductive Ending where
  | complete
  | fault
  /-- The document is a truth value. -/
  | boolean

/-- The rows of a document up to its end or its first fault. -/
structure Content where
  rows : List Row
  ending : Ending

/-- The content with a row in front; a row that is malformed is where it
ends. -/
def Content.withRows (vars : List Variable) (content : Content) :
    List (List (String × Term)) → Content
  | [] => content
  | read :: rest =>
    match row? vars read with
    | none => ⟨[], .fault⟩
    | some row =>
      let others := content.withRows vars rest
      { others with rows := row :: others.rows }

/-- The content of the rest of a document. -/
def contentFrom (r : Reader) : List Event → Content
  | [] => ⟨[], .fault⟩
  | e :: es =>
    match r.step? e with
    | none => ⟨[], .fault⟩
    | some (.boolean, _) => ⟨[], .boolean⟩
    | some (.finish, _) => ⟨[], .complete⟩
    | some (.lastRows rows, r) => Content.withRows r.vars ⟨[], .complete⟩ rows
    | some (.rows rows, r) => (contentFrom r es).withRows r.vars rows
    | some (.nothing, r) => contentFrom r es

/-- The content of a results document. A byte order mark in front does not
count. -/
def content (s : String) : Content :=
  let text :=
    match s.toList with
    | c :: cs => if c = '\ufeff' then String.ofList cs else s
    | [] => s
  contentFrom {} (Json.events text)

end DocGraph.Results
