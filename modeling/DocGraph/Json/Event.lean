import DocGraph.Json.Token

/-!
# Events of a JSON text

The events of a text are its scalars and keys and the beginnings and ends of its
arrays and objects, in order. The list ends with `finish` if the text holds
exactly one value and with `fault` at the first place where it does not, so a
reader that stops early sees no fault that comes later.
-/

namespace DocGraph.Json

/-- An event of a JSON text. -/
inductive Event where
  | beginArray
  | endArray
  | beginObject
  | endObject
  | key (s : String)
  | null
  | bool (b : Bool)
  | num (t : NumberText)
  | str (s : String)
  /-- The text ends after one value. -/
  | finish
  /-- The text is malformed from here on. -/
  | fault

/-- A container that has been begun and not ended. -/
inductive Container where
  | array
  | object

/-- What may come next inside the innermost open container. -/
inductive Expected where
  | value
  /-- The first item of an array, or its end. -/
  | firstItem
  /-- The first key of an object, or its end. -/
  | firstKey
  | key
  | colon
  /-- A comma, or the end of the container. -/
  | separator
  /-- The value is complete. -/
  | nothing

/-- The open containers, innermost first, and what may come next. -/
structure Place where
  containers : List Container
  expected : Expected

namespace Place

/-- Before a text. -/
def start : Place :=
  ⟨[], .value⟩

/-- The place after a complete value inside `containers`. -/
def after (containers : List Container) : Place :=
  ⟨containers, if containers.isEmpty then .nothing else .separator⟩

/-- A token where a value is expected. -/
def value? (containers : List Container) : Token → Option (Event × Place)
  | .beginArray => some (.beginArray, ⟨.array :: containers, .firstItem⟩)
  | .beginObject => some (.beginObject, ⟨.object :: containers, .firstKey⟩)
  | .null => some (.null, after containers)
  | .bool b => some (.bool b, after containers)
  | .num t => some (.num t, after containers)
  | .str s => some (.str s, after containers)
  | _ => none

/-- A token that ends the innermost container. -/
def close? : List Container → Token → Option (Event × Place)
  | .array :: containers, .endArray => some (.endArray, after containers)
  | .object :: containers, .endObject => some (.endObject, after containers)
  | _, _ => none

/-- A token where a key is expected. -/
def key? (containers : List Container) : Token → Option (Event × Place)
  | .str s => some (.key s, ⟨containers, .colon⟩)
  | _ => none

/-- The events of one token, none or one of them, and the place after it; none
when the token may not stand here. -/
def step? (p : Place) (t : Token) : Option (List Event × Place) :=
  let single := Option.map fun (e, p) => ([e], p)
  match p.expected with
  | .value => single (value? p.containers t)
  | .firstItem =>
    single ((close? p.containers t).or (value? p.containers t))
  | .firstKey =>
    single ((close? p.containers t).or (key? p.containers t))
  | .key => single (key? p.containers t)
  | .colon =>
    match t with
    | .colon => some ([], ⟨p.containers, .value⟩)
    | _ => none
  | .separator =>
    match t, p.containers with
    | .comma, .array :: _ => some ([], ⟨p.containers, .value⟩)
    | .comma, .object :: _ => some ([], ⟨p.containers, .key⟩)
    | t, containers => single (close? containers t)
  | .nothing => none

/-- The events of the rest of a text. -/
def events (p : Place) : List Token → List Event
  | [] =>
    match p.expected with
    | .nothing => [.finish]
    | _ => [.fault]
  | t :: ts =>
    match p.step? t with
    | some (es, q) => es ++ q.events ts
    | none => [.fault]

end Place

/-- The events of a text. -/
def events (s : String) : List Event :=
  Place.start.events (tokens s.toList)

end DocGraph.Json
