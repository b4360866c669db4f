import RouteGuard.Text.Digit
import RouteGuard.Text.Pieces

/-! # Network addresses

An address of either version of the internet protocol, in the usual notation:
four decimal bytes, or eight hexadecimal groups of which one run of zeros may be
left out.
-/

namespace RouteGuard.Net

inductive Address
  | v4 (a b c d : UInt8)
  | v6 (a b c d e f g h : UInt16)
  deriving DecidableEq, Repr

namespace Address

/-! ### Reading -/

/-- A decimal byte of at most three digits without a needless zero. -/
def byte? (cs : List Char) : Option UInt8 :=
  let n := cs.foldl (fun n c => n * 10 + (c.toNat - 48)) 0
  if cs ≠ [] && cs.length ≤ 3 && cs.all Char.isDigit && (cs.head? ≠ some '0' || cs = ['0']) &&
      n < 256 then
    some n.toUInt8
  else none

def bytes? (cs : List Char) : Option (UInt8 × UInt8 × UInt8 × UInt8) := do
  match Text.pieces '.' cs with
  | [a, b, c, d] => return (← byte? a, ← byte? b, ← byte? c, ← byte? d)
  | _ => none

/-- A group of one to four hexadecimal digits. -/
def group? (cs : List Char) : Option UInt16 := do
  if cs = [] || 4 < cs.length then none
  else return (← Text.hexNumber? cs).toUInt16

def groupsOfBytes (a b c d : UInt8) : List UInt16 :=
  [a.toUInt16 * 256 + b.toUInt16, c.toUInt16 * 256 + d.toUInt16]

/-- Groups between colons. The last two may be written as four bytes. -/
def groupList? : List (List Char) → Option (List UInt16)
  | [] => some []
  | [piece] =>
    match group? piece with
    | some g => some [g]
    | none => (bytes? piece).map fun (a, b, c, d) => groupsOfBytes a b c d
  | piece :: more => do return (← group? piece) :: (← groupList? more)

/-- Splits a text at the first pair of colons. -/
def splitAtGap? : List Char → Option (List Char × List Char)
  | ':' :: ':' :: rest => some ([], rest)
  | c :: rest => (splitAtGap? rest).map fun r => (c :: r.1, r.2)
  | [] => none

def side? (cs : List Char) : Option (List UInt16) :=
  if cs = [] then some [] else groupList? (Text.pieces ':' cs)

/-- Eight groups. The gap stands for at least one, and bytes are not written
before it. -/
def groups? (cs : List Char) : Option (List UInt16) :=
  match splitAtGap? cs with
  | none => groupList? (Text.pieces ':' cs)
  | some (front, back) => do
    let front' ← side? front
    let back' ← side? back
    if front.contains '.' || 7 < front'.length + back'.length then none
    else some (front' ++ List.replicate (8 - front'.length - back'.length) 0 ++ back')

def parse? (s : String) : Option Address :=
  match bytes? s.toList with
  | some (a, b, c, d) => some (v4 a b c d)
  | none =>
    match groups? s.toList with
    | some [a, b, c, d, e, f, g, h] => some (v6 a b c d e f g h)
    | _ => none

/-! ### Writing -/

/-- The first of the longest runs of zeros: where it starts and how long it is. -/
def longestGap (groups : List UInt16) : Nat × Nat :=
  (List.range groups.length).foldl (fun best start =>
    let size := ((groups.drop start).takeWhile (· = 0)).length
    if best.2 < size then (start, size) else best) (0, 0)

def renderBytes (a b c d : UInt8) : String :=
  ".".intercalate ([a, b, c, d].map fun n => toString n.toNat)

def renderGroups (groups : List UInt16) : String :=
  ":".intercalate (groups.map fun g => Text.hexText g.toNat)

/-- The shortest notation: no needless zeros, and two colons in place of the
longest run of two or more zero groups. Addresses of the older version within
the newer one keep their bytes. -/
def render : Address → String
  | v4 a b c d => renderBytes a b c d
  | v6 0 0 0 0 0 0xffff g h =>
    "::ffff:" ++ renderBytes (g / 256).toUInt8 g.toUInt8 (h / 256).toUInt8 h.toUInt8
  | v6 a b c d e f g h =>
    let groups := [a, b, c, d, e, f, g, h]
    let (start, size) := longestGap groups
    if size < 2 then renderGroups groups
    else renderGroups (groups.take start) ++ "::" ++ renderGroups (groups.drop (start + size))

/-- An address with a port; colons in the address are set off by brackets. -/
def renderWithPort (address : Address) (port : Nat) : String :=
  match address with
  | v4 .. => address.render ++ ":" ++ toString port
  | v6 .. => "[" ++ address.render ++ "]:" ++ toString port

def isLoopback : Address → Bool
  | v4 a _ _ _ => a = 127
  | v6 0 0 0 0 0 0 0 1 => true
  | v6 .. => false

end Address

end RouteGuard.Net
