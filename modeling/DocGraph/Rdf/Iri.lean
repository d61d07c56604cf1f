import DocGraph.Number.Lexical

/-!
# Absolute IRIs

`Iri.ofText?` accepts the absolute IRIs of RFC 3987: a scheme, an authority
after two slashes if there is one, a path, a query and a fragment, each made of
the characters and percent escapes that its place admits. The text is kept as
it is written.
-/

namespace DocGraph.Rdf

open DocGraph.Number (isDigit ofDigits)

/-- The text of an IRI. -/
structure Iri where
  text : String
  deriving DecidableEq

namespace Iri

/-- Whether a character is an ASCII letter. -/
def isLetter (c : Char) : Bool :=
  ('a' ≤ c && c ≤ 'z') || ('A' ≤ c && c ≤ 'Z')

/-- Whether a character is a hexadecimal digit of either case. -/
def isHexDigit (c : Char) : Bool :=
  isDigit c || ('a' ≤ c && c ≤ 'f') || ('A' ≤ c && c ≤ 'F')

/-- The ASCII characters that no part of an IRI reserves. -/
def isAsciiUnreserved (c : Char) : Bool :=
  isLetter c || isDigit c || c == '-' || c == '.' || c == '_' || c == '~'

/-- The characters beyond ASCII that an IRI may hold anywhere: planes 1 to 14
without their last two code points, and what RFC 3987 lists of plane 0. -/
def isInternational (c : Char) : Bool :=
  let n := c.toNat
  (0xA0 ≤ n && n ≤ 0xD7FF) || (0xF900 ≤ n && n ≤ 0xFDCF) || (0xFDF0 ≤ n && n ≤ 0xFFEF) ||
    (0x10000 ≤ n && n < 0xE0000 && n % 0x10000 < 0xFFFE) || (0xE1000 ≤ n && n ≤ 0xEFFFD)

/-- The characters that no part of an IRI reserves. -/
def isUnreserved (c : Char) : Bool :=
  isAsciiUnreserved c || isInternational c

/-- The delimiters inside the parts of an IRI. -/
def isSubDelimiter (c : Char) : Bool :=
  c ∈ ['!', '$', '&', '\'', '(', ')', '*', '+', ',', ';', '=']

/-- The private use characters, which only a query may hold. -/
def isPrivate (c : Char) : Bool :=
  let n := c.toNat
  (0xE000 ≤ n && n ≤ 0xF8FF) || (0xF0000 ≤ n && n ≤ 0xFFFFD) || (0x100000 ≤ n && n ≤ 0x10FFFD)

/-- Whether a part consists of allowed characters and percent escapes. -/
def isPart (allowed : Char → Bool) : List Char → Bool
  | '%' :: a :: b :: rest => isHexDigit a && isHexDigit b && isPart allowed rest
  | c :: rest => c != '%' && allowed c && isPart allowed rest
  | [] => true

/-- A host name. -/
def isHostName : List Char → Bool :=
  isPart fun c => isUnreserved c || isSubDelimiter c

/-- The user in front of a host. -/
def isUser : List Char → Bool :=
  isPart fun c => isUnreserved c || isSubDelimiter c || c == ':'

/-- Whether a character may stand in a path. -/
def isPathChar (c : Char) : Bool :=
  isUnreserved c || isSubDelimiter c || c == ':' || c == '@' || c == '/'

/-- A path. -/
def isPath : List Char → Bool :=
  isPart isPathChar

/-- A fragment. -/
def isFragment : List Char → Bool :=
  isPart fun c => isPathChar c || c == '?'

/-- A query. -/
def isQuery : List Char → Bool :=
  isPart fun c => isPathChar c || c == '?' || isPrivate c

/-- A decimal number below 256 without leading zeros. -/
def isOctet (cs : List Char) : Bool :=
  cs != [] && cs.length ≤ 3 && cs.all isDigit && ofDigits cs < 256 &&
    (cs.length == 1 || cs.head? != some '0')

/-- Four octets with dots between them. -/
def isAddress4 (cs : List Char) : Bool :=
  let octets := cs.splitOn '.'
  octets.length == 4 && octets.all isOctet

/-- One to four hexadecimal digits. -/
def isGroup (cs : List Char) : Bool :=
  cs != [] && cs.length ≤ 4 && cs.all isHexDigit

/-- How many groups of sixteen bits a colon-separated list stands for, of which
four octets at its end count as two where they are allowed. -/
def groupCount? (octets : Bool) (cs : List Char) : Option Nat :=
  if cs = [] then some 0
  else
    let groups := cs.splitOn ':'
    if groups.all isGroup then some groups.length
    else if octets && groups.dropLast.all isGroup &&
        (groups.getLast?.map isAddress4).getD false then
      some (groups.length + 1)
    else none

/-- The text before and after the first two adjacent colons. -/
def atDoubleColon? : List Char → Option (List Char × List Char)
  | [] => none
  | ':' :: ':' :: rest => some ([], rest)
  | c :: rest => (atDoubleColon? rest).map fun (before, after) => (c :: before, after)

/-- Eight groups, or at most seven around two adjacent colons. -/
def isAddress6 (cs : List Char) : Bool :=
  match atDoubleColon? cs with
  | none => groupCount? true cs == some 8
  | some (before, after) =>
    match groupCount? false before, groupCount? true after with
    | some m, some n => m + n ≤ 7
    | _, _ => false

/-- An address of a later version: `v`, hexadecimal digits, a dot and the
address. -/
def isFutureAddress (cs : List Char) : Bool :=
  let version := cs.takeWhile (· != '.')
  let address := (cs.dropWhile (· != '.')).drop 1
  version != [] && version.all isHexDigit && address != [] &&
    address.all fun c => isAsciiUnreserved c || isSubDelimiter c || c == ':'

/-- An address between brackets. -/
def isBracketed : List Char → Bool
  | c :: rest => if c = 'v' ∨ c = 'V' then isFutureAddress rest else isAddress6 (c :: rest)
  | [] => false

/-- Nothing, or a colon and a port number. -/
def isPortPart : List Char → Bool
  | [] => true
  | ':' :: rest => rest.all isDigit
  | _ => false

/-- A host and a port. -/
def isHost : List Char → Bool
  | '[' :: rest =>
    let address := rest.takeWhile (· != ']')
    match rest.dropWhile (· != ']') with
    | _ :: port => isBracketed address && isPortPart port
    | [] => false
  | cs => isHostName (cs.takeWhile (· != ':')) && isPortPart (cs.dropWhile (· != ':'))

/-- An authority: a user, a host and a port. -/
def isAuthority (cs : List Char) : Bool :=
  match cs.dropWhile (· != '@') with
  | _ :: host => isUser (cs.takeWhile (· != '@')) && isHost host
  | [] => isHost cs

/-- Whether a character ends an authority. -/
def endsAuthority (c : Char) : Bool :=
  c == '/' || c == '?' || c == '#'

/-- A path, a query and a fragment. -/
def isTail (cs : List Char) : Bool :=
  let main := cs.takeWhile (· != '#')
  let fragment := (cs.dropWhile (· != '#')).drop 1
  let path := main.takeWhile (· != '?')
  let query := (main.dropWhile (· != '?')).drop 1
  isPath path && isQuery query && isFragment fragment

/-- What follows the scheme. -/
def isHierarchy : List Char → Bool
  | '/' :: '/' :: rest =>
    isAuthority (rest.takeWhile (!endsAuthority ·)) && isTail (rest.dropWhile (!endsAuthority ·))
  | cs => isTail cs

/-- Whether a character may stand in a scheme after its first letter. -/
def isSchemeChar (c : Char) : Bool :=
  isLetter c || isDigit c || c == '+' || c == '-' || c == '.'

/-- An absolute IRI. -/
def isAbsolute (cs : List Char) : Bool :=
  match cs with
  | [] => false
  | c :: rest =>
    isLetter c &&
      match rest.dropWhile isSchemeChar with
      | ':' :: tail => isHierarchy tail
      | _ => false

/-- The IRI that a text is, if it is an absolute one. -/
def ofText? (s : String) : Option Iri :=
  if isAbsolute s.toList then some ⟨s⟩ else none

end Iri

end DocGraph.Rdf
