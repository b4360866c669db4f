import RouteGuard.Text.Lowercase

/-! # Shapes of byte texts

A shape says which byte texts a wildcard expression covers. It is built from
tests on one byte by repetition, sequence and choice. Matching moves a row of
marks along the text, one mark for each position, and so takes time linear in
the text for each part of the shape.
-/

namespace RouteGuard.Glob

/-- Whether letters of either case match each other. Only ASCII letters have a
case here. -/
inductive CaseMode
  | exact
  | folded
  deriving DecidableEq, Repr

/-- A test on one byte: in one of the ranges, or, when negated, in none. -/
structure ByteTest where
  ranges : List (UInt8 × UInt8)
  negated : Bool
  deriving DecidableEq, Repr

namespace ByteTest

def only (b : UInt8) : ByteTest := ⟨[(b, b)], false⟩

def notSlash : ByteTest := ⟨[(0x2F, 0x2F)], true⟩

def all : ByteTest := ⟨[], true⟩

/-- Does a range of the test hold the byte? -/
def listed (t : ByteTest) (b : UInt8) : Bool := t.ranges.any fun r => r.1 ≤ b && b ≤ r.2

/-- In folded mode the ranges are closed under the change of case before the
negation applies. -/
def accepts (mode : CaseMode) (t : ByteTest) (b : UInt8) : Bool :=
  (t.listed b || (mode == .folded && t.listed (Text.otherCase b))) != t.negated

end ByteTest

inductive Shape
  /-- the empty text -/
  | blank
  /-- one byte that passes the test -/
  | one (t : ByteTest)
  /-- any number of bytes that pass the test -/
  | many (t : ByteTest)
  /-- a text of the first and then one of the second -/
  | seq (first second : Shape)
  /-- a text of either -/
  | either (first second : Shape)
  deriving DecidableEq, Repr

namespace Shape

/-- Sequence with the empty shape as unit. -/
def andThen (a b : Shape) : Shape :=
  if a = blank then b else if b = blank then a else seq a b

/-- Choice among the shapes that are not empty. Without any it is the empty
text, never failure: an alternative without content is dropped. -/
def choice : List Shape → Shape
  | [] => blank
  | a :: rest =>
    if a = blank then choice rest
    else if choice rest = blank then a
    else either a (choice rest)

/-- Marks the positions reached by reading one accepted byte. `arriving` tells
whether the position at hand was reached by the byte before it. -/
def shift (p : UInt8 → Bool) (arriving : Bool) : List UInt8 → List Bool → List Bool
  | [], _ => [arriving]
  | _, [] => [arriving]
  | b :: text, m :: marks => arriving :: shift p (m && p b) text marks

/-- Marks the positions reached by reading any number of accepted bytes. -/
def spread (p : UInt8 → Bool) (arriving : Bool) : List UInt8 → List Bool → List Bool
  | [], m :: _ => [arriving || m]
  | [], [] => [arriving]
  | _, [] => [arriving]
  | b :: text, m :: marks => (arriving || m) :: spread p ((arriving || m) && p b) text marks

/-- Moves the marks on `text` past one text of the shape: a position is marked
afterwards exactly when some marked position lies one such text before it. -/
def advance (mode : CaseMode) (text : List UInt8) : Shape → List Bool → List Bool
  | blank, marks => marks
  | one t, marks => shift (t.accepts mode) false text marks
  | many t, marks => spread (t.accepts mode) false text marks
  | seq a b, marks => b.advance mode text (a.advance mode text marks)
  | either a b, marks =>
    List.zipWith (· || ·) (a.advance mode text marks) (b.advance mode text marks)

/-- The marks of a match that has read nothing. -/
def start (text : List UInt8) : List Bool := true :: text.map fun _ => false

/-- Does the shape cover the whole text? -/
def covers (mode : CaseMode) (s : Shape) (text : List UInt8) : Bool :=
  (s.advance mode text (start text)).getLastD false

end Shape

end RouteGuard.Glob
