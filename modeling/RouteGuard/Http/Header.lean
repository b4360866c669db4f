import RouteGuard.Log.Event
import RouteGuard.Text.Blank

/-! # Request headers

Headers are kept in the order in which they came. Their names are compared
without regard to ASCII case, and where a name is given more than once the
first value counts. A value is text only if it consists of visible ASCII
characters, blanks and tabs.
-/

namespace RouteGuard.Http

structure Header where
  name : String
  value : String
  deriving DecidableEq, Repr

def textOf? (value : String) : Option String :=
  if value.toList.all fun c => c = '\t' || (' ' ≤ c && c ≤ '~') then some value else none

def firstValue? (headers : List Header) (name : String) : Option String :=
  (headers.find? fun h => h.name.toLower == name.toLower).map (·.value)

def isNameChar (c : Char) : Bool :=
  c.isAlphanum || "!#$%&'*+-.^_|~".toList.contains c || c.toNat = 96

/-- A header name consists of such characters, at least one and at most 65535. -/
def isHeaderName (s : String) : Bool :=
  !s.isEmpty && s.length ≤ 65535 && s.toList.all isNameChar

/-- The caller named by the identity header. A value that is not text, or that
is blank, names nobody. -/
def identity (headers : List Header) (header : String) : Logged (Option String) := do
  match firstValue? headers header with
  | none => return none
  | some value =>
    match textOf? value with
    | none =>
      Logged.tell ⟨.debug, "pathgate::middleware::identity",
        "Ignoring non-UTF-8 identity header", [("header", .quoted header)]⟩
      return none
    | some value => return if Text.isBlankText value then none else some (Text.trim value)

/-- The request target that a proxy asks about: the first of the two forwarding
headers that holds text which is not blank, or else the root. -/
def forwardedTarget (headers : List Header) : String :=
  let named := ["x-forwarded-uri", "x-original-uri"].filterMap (firstValue? headers)
  let texts := (named.filterMap textOf?).filter fun value => !Text.isBlankText value
  match texts with
  | value :: _ => Text.trim value
  | [] => "/"

end RouteGuard.Http
