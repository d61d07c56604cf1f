import DocGraph.Json.Value

/-!
# Writing document values

Values are written without spaces. In strings only quotes, backslashes and
control characters are escaped, the latter by a letter where there is one and
else by four lower case hexadecimal digits.
-/

namespace DocGraph.Json

/-- The lower case hexadecimal digit of a number below 16. -/
def lowerHexDigit (n : Nat) : Char :=
  if n < 10 then Char.ofNat (48 + n) else Char.ofNat (87 + n)

/-- The written form of one character of a string. -/
def escapeChar (c : Char) : List Char :=
  if c = '"' then ['\\', '"']
  else if c = '\\' then ['\\', '\\']
  else if c = '\x08' then ['\\', 'b']
  else if c = '\x0c' then ['\\', 'f']
  else if c = '\n' then ['\\', 'n']
  else if c = '\r' then ['\\', 'r']
  else if c = '\t' then ['\\', 't']
  else if c.toNat < 0x20 then
    ['\\', 'u', '0', '0', lowerHexDigit (c.toNat / 16), lowerHexDigit (c.toNat % 16)]
  else [c]

/-- A string in quotes. -/
def quote (s : String) : String :=
  String.ofList ('"' :: s.toList.flatMap escapeChar ++ ['"'])

namespace Value

mutual

/-- The text of a value. -/
def text : Value → String
  | .null => "null"
  | .bool b => if b then "true" else "false"
  | .num n => n.text
  | .str s => quote s
  | .arr items => "[" ++ itemsText items ++ "]"
  | .obj members => "\x7b" ++ membersText members ++ "\x7d"

/-- The items of an array, with commas between them. -/
def itemsText : List Value → String
  | [] => ""
  | v :: rest => text v ++ (if rest.isEmpty then "" else ",") ++ itemsText rest

/-- The members of an object, with commas between them. -/
def membersText : List (String × Value) → String
  | [] => ""
  | (k, v) :: rest =>
    quote k ++ ":" ++ text v ++ (if rest.isEmpty then "" else ",") ++ membersText rest

end

end Value

end DocGraph.Json
