import RouteGuard.Glob.Shape
import RouteGuard.Text.Utf8

/-! # Reading wildcard expressions

An expression is read one character at a time. A star waits for the character
after it, because two stars mean whole segments only between separators; a
class and an escape are modes of their own. The reader keeps the pieces of the
branch at hand and a stack of the brace groups that are still open.

An expression may be as long and its groups may be nested as deep as one likes:
limits that a matcher sets on either are not modelled, and every expression that
can be read has a shape.
-/

namespace RouteGuard.Glob

inductive Fault
  | unclosedClass
  | badRange (first last : Char)
  | unopenedGroup
  | unclosedGroup
  | danglingEscape
  deriving DecidableEq, Repr

def Fault.message : Fault → String
  | unclosedClass => "unclosed character class; missing ']'"
  | badRange first last => "invalid range; '" ++ first.toString ++ "' > '" ++ last.toString ++ "'"
  | unopenedGroup => "unopened alternate group; missing '\x7b' (maybe escape '\x7d' with '[\x7d]'?)"
  | unclosedGroup => "unclosed alternate group; missing '\x7d' (maybe escape '\x7b' with '[\x7b]'?)"
  | danglingEscape => "dangling '\\'"

/-- A piece of a branch. The three segment pieces stand for any number of whole
segments: at the start of a branch, at its end, and between two separators. -/
inductive Piece
  | char (c : Char)
  | anyByte
  | anyRun
  | leadingSegments
  | trailingSegments
  | innerSegments
  | oneOf (t : ByteTest)
  | group (s : Shape)
  deriving DecidableEq, Repr

/-- The byte range of a class member. The bytes of the two ends count one by
one, and the range proper runs from the last byte of the first end to the first
byte of the last. -/
def classRanges (first last : Char) : List (UInt8 × UInt8) :=
  let each (bs : List UInt8) := bs.map fun b => (b, b)
  let low := String.utf8EncodeChar first
  let high := String.utf8EncodeChar last
  if first = last then each low
  else each low.dropLast ++ [(low.getLastD 0, high.headD 0)] ++ each high.tail

def Shape.slash : Shape := .one (.only 0x2F)

def Shape.ofChar (c : Char) : Shape :=
  (String.utf8EncodeChar c).foldr (fun b s => Shape.andThen (.one (.only b)) s) .blank

def Piece.shape : Piece → Shape
  | char c => .ofChar c
  | anyByte => .one .notSlash
  | anyRun => .many .notSlash
  | leadingSegments => .either .blank (.either .slash (.seq (.many .all) .slash))
  | trailingSegments => .seq .slash (.many .all)
  | innerSegments => .either .slash (.seq .slash (.seq (.many .all) .slash))
  | oneOf t => .one t
  | group s => s

/-- The shape of a branch whose pieces are listed with the latest first. -/
def branchShape (pieces : List Piece) : Shape :=
  pieces.foldl (fun s p => p.shape.andThen s) .blank

/-- A brace group that is still open: the pieces that stand before it in its
own branch, latest first, and its finished alternatives, latest first. -/
structure OpenGroup where
  before : List Piece
  done : List Shape
  deriving DecidableEq, Repr

/-- A character class that is being read: its members so far, latest first, and
whether a dash waits for the end of a range. -/
structure OpenClass where
  negated : Bool
  members : List (Char × Char)
  inRange : Bool
  deriving DecidableEq, Repr

/-- Reads a member of a class that is neither its bracket nor a leading sign. -/
def OpenClass.add (k : OpenClass) (c : Char) : Except Fault OpenClass :=
  match k.inRange, k.members with
  | true, (first, _) :: rest =>
    if c < first then .error (.badRange first c)
    else .ok { k with members := (first, c) :: rest, inRange := false }
  | _, members => .ok { k with members := (c, c) :: members, inRange := false }

/-- The class as a test. A dash that waited for the end of a range is a member. -/
def OpenClass.test (k : OpenClass) : ByteTest :=
  let members := if k.inRange then ('-', '-') :: k.members else k.members
  ⟨members.reverse.flatMap fun m => classRanges m.1 m.2, k.negated⟩

/-- What the next character is read as. -/
inductive Mode
  | plain
  /-- after a backslash -/
  | escaped
  /-- after one star; `before` is the character before it -/
  | star (before : Option Char)
  /-- after two stars; `before` is the character before them -/
  | stars (before : Option Char)
  /-- after the bracket that opens a class -/
  | classOpen
  | inClass (c : OpenClass)
  deriving DecidableEq, Repr

structure Reader where
  /-- pieces of the branch at hand, latest first -/
  pieces : List Piece := []
  /-- open groups, innermost first -/
  groups : List OpenGroup := []
  /-- the character read last -/
  last : Option Char := none
  mode : Mode := .plain
  deriving DecidableEq, Repr

namespace Reader

def push (r : Reader) (p : Piece) : Reader := { r with pieces := p :: r.pieces, mode := .plain }

/-- Reads a character outside classes, escapes and stars. -/
def readPlain (r : Reader) (c : Char) : Except Fault Reader :=
  match c with
  | '?' => .ok (r.push .anyByte)
  | '*' => .ok { r with mode := .star r.last }
  | '[' => .ok { r with mode := .classOpen }
  | '\\' => .ok { r with mode := .escaped }
  | '{' => .ok { r with pieces := [], groups := ⟨r.pieces, []⟩ :: r.groups, mode := .plain }
  | '}' =>
    match r.groups with
    | [] => .error .unopenedGroup
    | g :: outer =>
      let alternatives := (branchShape r.pieces :: g.done).reverse
      .ok { r with
        pieces := .group (.choice alternatives) :: g.before, groups := outer, mode := .plain }
  | ',' =>
    match r.groups with
    | [] => .ok (r.push (.char ','))
    | g :: outer =>
      .ok { r with
        pieces := [], groups := { g with done := branchShape r.pieces :: g.done } :: outer,
        mode := .plain }
  | c => .ok (r.push (.char c))

/-- Puts whole segments in place of the separator read last. Next to another
piece of that kind they add nothing. -/
def pushSegments (r : Reader) (p : Piece) : Reader :=
  match r.pieces with
  | .leadingSegments :: _ => { r with mode := .plain }
  | .trailingSegments :: _ => { r with mode := .plain }
  | _ :: rest => { r with pieces := p :: rest, mode := .plain }
  | [] => r.push p

/-- Gives two stars their meaning once the character after them is known, and
tells whether they take that character with them. -/
def settle (r : Reader) (before next : Option Char) : Reader × Bool :=
  let twoRuns := ((r.push .anyRun).push .anyRun, false)
  if r.pieces = [] then
    if next = none ∨ next = some '/' then (r.push .leadingSegments, true) else twoRuns
  else if before = some '/' ∨ (r.groups ≠ [] ∧ (before = some ',' ∨ before = some '{')) then
    if next = none then (r.pushSegments .trailingSegments, true)
    else if r.groups ≠ [] ∧ (next = some ',' ∨ next = some '}') then
      (r.pushSegments .trailingSegments, false)
    else if next = some '/' then (r.pushSegments .innerSegments, true)
    else twoRuns
  else twoRuns

/-- Reads a character inside a class. A bracket or a dash that comes first is a
member. -/
def readClass (r : Reader) (k : OpenClass) (c : Char) : Except Fault Reader :=
  if k.members ≠ [] ∧ c = ']' then .ok (r.push (.oneOf k.test))
  else if k.members ≠ [] ∧ c = '-' ∧ !k.inRange then
    .ok { r with mode := .inClass { k with inRange := true } }
  else (k.add c).map fun k => { r with mode := .inClass k }

def read (r : Reader) (c : Char) : Except Fault Reader :=
  let next : Except Fault Reader :=
    match r.mode with
    | .plain => r.readPlain c
    | .escaped => .ok (r.push (.char c))
    | .star before =>
      if c = '*' then .ok { r with mode := .stars before } else (r.push .anyRun).readPlain c
    | .stars before =>
      match r.settle before (some c) with
      | (r, true) => .ok r
      | (r, false) => r.readPlain c
    | .classOpen =>
      if c = '!' ∨ c = '^' then .ok { r with mode := .inClass ⟨true, [], false⟩ }
      else r.readClass ⟨false, [], false⟩ c
    | .inClass k => r.readClass k c
  next.map fun r => { r with last := some c }

def finish (r : Reader) : Except Fault (List Piece) := do
  let r ←
    match r.mode with
    | .plain => .ok r
    | .escaped => .error .danglingEscape
    | .star _ => .ok (r.push .anyRun)
    | .stars before => .ok (r.settle before none).1
    | .classOpen => .error .unclosedClass
    | .inClass _ => .error .unclosedClass
  if r.groups = [] then .ok r.pieces else .error .unclosedGroup

end Reader

/-- The shape of an expression. Two stars alone cover every text. -/
def parse (cs : List Char) : Except Fault Shape := do
  let pieces ← (← cs.foldlM Reader.read {}).finish
  .ok (if pieces = [.leadingSegments] then .many .all else branchShape pieces)

end RouteGuard.Glob
