import RouteGuard.Glob.Reader

/-! # Resource patterns

A pattern names a set of request paths. Its text is trimmed and given a leading
slash, and a pattern that ends in `/**` covers the path before that ending too.
Of two patterns that cover a path the more specific one is preferred; the order
is read off the texts alone.

A text that can be read is taken to make a pattern, however large it is and
however deep its groups are nested.
-/

namespace RouteGuard

open Glob (CaseMode Shape)

/-- A pattern text that cannot be read, with the part at fault. -/
structure PatternError where
  text : String
  fault : Glob.Fault
  deriving DecidableEq, Repr

def PatternError.message (e : PatternError) : String :=
  "Invalid resource pattern '" ++ e.text ++ "': " ++ e.fault.message

/-- The pattern in its canonical form: trimmed and with a leading slash. -/
def canonicalText (pattern : String) : String :=
  let cs := Text.trimChars pattern.toList
  String.ofList (if cs.head? = some '/' then cs else '/' :: cs)

/-- How many wildcards a pattern text has: runs of two and more stars, and all
other marks that open a wildcard. -/
structure Wildcards where
  double : Nat := 0
  single : Nat := 0
  deriving DecidableEq, Repr

/-- Counts by the text alone: a backslash hides the next character, and nothing
inside a class or a group is exempt. -/
def Wildcards.count (cs : List Char) : Wildcards :=
  match cs with
  | [] => {}
  | '\\' :: rest => count rest.tail
  | '*' :: '*' :: rest =>
    let w := count (rest.dropWhile (· == '*'))
    { w with double := w.double + 1 }
  | c :: rest =>
    let w := count rest
    if c = '*' ∨ c = '?' ∨ c = '[' ∨ c = '{' then { w with single := w.single + 1 } else w
termination_by cs.length
decreasing_by
  · rw [List.length_tail, List.length_cons]
    omega
  · have := (List.dropWhile_sublist (l := rest) (· == '*')).length_le
    simp
    omega
  · simp

structure Pattern where
  /-- the canonical text -/
  text : String
  mode : CaseMode
  whole : Shape
  /-- the shape of the text before a final `/**` -/
  bare : Option Shape
  deriving DecidableEq, Repr

namespace Pattern

/-- The text before a final `/**`, if there is any. -/
def bareText? (cs : List Char) : Option (List Char) :=
  match cs.reverse with
  | '*' :: '*' :: '/' :: front => if front = [] then none else some front.reverse
  | _ => none

/-- Reads a glob; the error names the text that was read. -/
def readGlob (cs : List Char) : Except PatternError Shape :=
  (Glob.parse cs).mapError fun fault => ⟨String.ofList cs, fault⟩

/-- Makes a pattern. The part before a final `/**` is read a second time on its
own, and may be at fault where the whole is not. -/
def compile (mode : CaseMode) (pattern : String) : Except PatternError Pattern := do
  let text := canonicalText pattern
  let whole ← readGlob text.toList
  let bare ← (bareText? text.toList).mapM readGlob
  return ⟨text, mode, whole, bare⟩

def isCatchAll (p : Pattern) : Bool := p.text == "/**"

/-- Does the pattern cover a path? Paths are taken byte by byte and as they are. -/
def covers (p : Pattern) (path : String) : Bool :=
  p.isCatchAll || p.whole.covers p.mode (Text.bytes path) ||
    p.bare.any (·.covers p.mode (Text.bytes path))

def wildcards (p : Pattern) : Wildcards := Wildcards.count p.text.toList

/-- The order of preference, most specific first: the pattern for everything
comes last; else fewer double wildcards, fewer single ones, the longer text in
bytes, and at last the order of the texts decide. The order of strings by code
points is their order by bytes. -/
def precedence (p q : Pattern) : Ordering :=
  (compare p.isCatchAll q.isCatchAll)
    |>.then (compare p.wildcards.double q.wildcards.double)
    |>.then (compare p.wildcards.single q.wildcards.single)
    |>.then (compare q.text.utf8ByteSize p.text.utf8ByteSize)
    |>.then (compare p.text q.text)

/-- `p` stands before `q` in the order of preference, or ties with it. -/
def atLeastAsSpecific (p q : Pattern) : Bool := (p.precedence q).isLE

end Pattern

end RouteGuard
