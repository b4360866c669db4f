import RouteGuard.Http.Header

/-! # Media types

A media type is a kind, a slash and a name, all without regard to ASCII case. A
blank or a semicolon ends the name, and parameters may follow it. The parameters
have no effect, but a text whose parameters cannot be read is no media type.
-/

namespace RouteGuard.Http

structure MediaType where
  /-- the part before the slash, in lower case -/
  kind : List Char
  /-- the part after the slash, in lower case -/
  name : List Char
  deriving DecidableEq, Repr

namespace MediaType

/-- Characters that kinds, names and bare parameter values are made of. -/
def isTokenChar (c : Char) : Bool := isNameChar c && c != '*'

/-- Characters that may stand in a quoted parameter value. -/
def isQuotable (c : Char) : Bool := 31 < c.toNat && c.toNat != 127

/-- What follows the parameter at the start, without the semicolon that ends it.
A quoted value has at least one character, and the first may be a quote. A bare
value may be empty only at the end. -/
def afterParameter? (cs : List Char) : Option (List Char) :=
  match cs.takeWhile isTokenChar, cs.dropWhile isTokenChar with
  | _ :: _, '=' :: '"' :: first :: rest =>
    if isQuotable first && (rest.takeWhile (· != '"')).all isQuotable then
      match rest.dropWhile (· != '"') with
      | [] => none
      | _ :: rest =>
        match rest.dropWhile (· == ' ') with
        | [] => some []
        | c :: rest => if c = ';' then some rest else none
    else none
  | _ :: _, '=' :: rest =>
    match rest.takeWhile isTokenChar, rest.dropWhile isTokenChar with
    | _, [] => some []
    | _ :: _, ';' :: rest => some rest
    | _, _ => none
  | _, _ => none

/-- Can the text be read as parameters? Blanks may stand before each. -/
def areParameters (cs : List Char) : Bool :=
  match cs.dropWhile (· == ' ') with
  | [] => true
  | c :: rest =>
    match afterParameter? (c :: rest) with
    | none => false
    | some rest => if rest.length < cs.length then areParameters rest else false
termination_by cs.length

def ofText? (value : String) : Option MediaType :=
  let cs := value.toList.map Char.toLower
  match cs.takeWhile isTokenChar, cs.dropWhile isTokenChar with
  | k :: kind, '/' :: cs =>
    match cs.takeWhile isTokenChar, cs.dropWhile isTokenChar with
    | n :: name, [] => some ⟨k :: kind, n :: name⟩
    | n :: name, c :: rest =>
      if (c = ' ' || c = ';') && areParameters rest then some ⟨k :: kind, n :: name⟩ else none
    | [], _ => none
  | _, _ => none

/-- The name before its last plus sign and, if there is one, the suffix after
it. A plus sign that comes first does not count. -/
def nameParts (m : MediaType) : List Char × Option (List Char) :=
  let suffix := (m.name.reverse.takeWhile (· != '+')).reverse
  let front := m.name.take (m.name.length - suffix.length - 1)
  if front = [] then (m.name, none) else (front, some suffix)

/-- JSON itself, or a type that is built on JSON. -/
def isJson (m : MediaType) : Bool :=
  let (front, suffix) := m.nameParts
  m.kind = "application".toList && (front = "json".toList || suffix = some "json".toList)

end MediaType

end RouteGuard.Http
