import RouteGuard.Text.Blank
import RouteGuard.Text.Lowercase.Table

/-! # Lower-casing

The lower-case form of a text by the full rules of the character standard.
Every character goes by the letter table except two: the dotted capital I
becomes two characters, and a capital sigma takes its final form where it ends
a word.
-/

namespace RouteGuard.Text

/-- Is the code point one of the letters of the run? -/
def LetterRun.holds (run : LetterRun) (n : Nat) : Bool :=
  run.first ≤ n && n ≤ run.last && (n - run.first) % run.step == 0

/-- The lower-case form of a single character by the table. -/
def lowerChar (c : Char) : Char :=
  match letterRuns.find? (·.holds c.toNat) with
  | some run => Char.ofNat (Int.toNat (c.toNat + run.shift))
  | none => c

/-- Does a cased character come first once the ignorable ones are passed over? -/
def meetsCased (cs : List Char) : Bool :=
  match cs.dropWhile (inBlocks caseIgnorableBlocks ·.toNat) with
  | c :: _ => inBlocks casedBlocks c.toNat
  | [] => false

/-- Lower-cases the characters in `rest`; `before` holds those already read,
the latest first. A sigma is final when a cased letter precedes it and none
follows. -/
def lowerFrom (before : List Char) : List Char → List Char
  | [] => []
  | c :: rest =>
    (if c = 'Σ' then [if meetsCased before && !meetsCased rest then 'ς' else 'σ']
     else if c = 'İ' then ['i', '\u0307']
     else [lowerChar c]) ++ lowerFrom (c :: before) rest

def lowercase (s : String) : String := String.ofList (lowerFrom [] s.toList)

/-- Lower-casing of the ASCII letters alone; every other byte stays. -/
def lowerAscii (b : UInt8) : UInt8 := if 0x41 ≤ b && b ≤ 0x5A then b + 0x20 else b

/-- The other case of an ASCII letter; every other byte is its own. -/
def otherCase (b : UInt8) : UInt8 :=
  if 0x41 ≤ b && b ≤ 0x5A then b + 0x20 else if 0x61 ≤ b && b ≤ 0x7A then b - 0x20 else b

end RouteGuard.Text
