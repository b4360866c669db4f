import RouteGuard.Toml.Table
import RouteGuard.Toml.Text

/-! # Numbers, truth values and moments in TOML

Each reader here is given the whole literal and says what it is worth.
-/

namespace RouteGuard.Toml

/-- The digits of a literal, without the underscores that may stand between two
of them. -/
def digits? (isDigit : Char → Bool) : List Char → Option (List Char)
  | [] => none
  | [c] => if isDigit c then some [c] else none
  | c :: '_' :: rest => if isDigit c then (digits? isDigit rest).map (c :: ·) else none
  | c :: rest => if isDigit c then (digits? isDigit rest).map (c :: ·) else none

/-- Decimal digits that do not start with a needless zero. -/
def decimal? (cs : List Char) : Option (List Char) :=
  match digits? Char.isDigit cs with
  | some ('0' :: _ :: _) => none
  | ds => ds

def ofDigits (base : Nat) (ds : List Char) : Nat :=
  ds.foldl (fun n c => n * base + (Text.hexDigit? c).getD 0) 0

/-- Splits off a sign; the flag tells a minus. -/
def sign : List Char → Bool × List Char
  | '-' :: rest => (true, rest)
  | '+' :: rest => (false, rest)
  | cs => (false, cs)

/-- A whole number of any size: decimal with a sign at will, or in base sixteen,
eight or two without one. -/
def wholeNumber? : List Char → Option Int
  | '0' :: 'x' :: rest =>
    (digits? (fun c => (Text.hexDigit? c).isSome) rest).map fun ds => ofDigits 16 ds
  | '0' :: 'o' :: rest =>
    (digits? (fun c => '0' ≤ c && c ≤ '7') rest).map fun ds => ofDigits 8 ds
  | '0' :: 'b' :: rest =>
    (digits? (fun c => c = '0' || c = '1') rest).map fun ds => ofDigits 2 ds
  | cs =>
    let (minus, rest) := sign cs
    (decimal? rest).map fun ds => if minus then -(ofDigits 10 ds : Int) else ofDigits 10 ds

def integer? (cs : List Char) : Option Int :=
  (wholeNumber? cs).filter fun n => -Int.pow 2 63 ≤ n && n < Int.pow 2 64

/-- A literal with a fraction, an exponent or both, or one that is not finite. -/
def isFloat (cs : List Char) : Bool :=
  let cs := (sign cs).2
  if cs = ['i', 'n', 'f'] || cs = ['n', 'a', 'n'] then true
  else
    let isExponent := fun c => c = 'e' || c = 'E'
    let (body, rest) := cs.span fun c => !isExponent c
    let (whole, fraction) := body.span (· ≠ '.')
    (decimal? whole).isSome && (fraction ≠ [] || rest ≠ []) &&
      (fraction = [] || (digits? Char.isDigit fraction.tail).isSome) &&
      (rest = [] || (digits? Char.isDigit (sign rest.tail).2).isSome)

def daysIn (year month : Nat) : Nat :=
  if month = 2 then
    if year % 4 = 0 && (year % 100 ≠ 0 || year % 400 = 0) then 29 else 28
  else if month = 4 || month = 6 || month = 9 || month = 11 then 30 else 31

/-- The number that a fixed count of decimal digits spells. -/
def fixed? (ds : List Char) : Option Nat :=
  if ds.all Char.isDigit then some (ofDigits 10 ds) else none

def date? : List Char → Option (List Char)
  | a :: b :: c :: d :: '-' :: e :: f :: '-' :: g :: h :: rest => do
    let year ← fixed? [a, b, c, d]
    let month ← fixed? [e, f]
    let day ← fixed? [g, h]
    if 1 ≤ month && month ≤ 12 && 1 ≤ day && day ≤ daysIn year month then some rest else none
  | _ => none

/-- Reads the seconds of a time, if there are any, with their fraction. A minute
may have a sixty-first second. -/
def seconds? : List Char → Option (List Char)
  | ':' :: a :: b :: rest => do
    if 60 < (← fixed? [a, b]) then none
    else
      match rest with
      | '.' :: rest =>
        if rest.head?.any Char.isDigit then some (rest.dropWhile Char.isDigit) else none
      | rest => some rest
  | ':' :: _ => none
  | rest => some rest

def time? : List Char → Option (List Char)
  | a :: b :: ':' :: c :: d :: rest => do
    if 23 < (← fixed? [a, b]) || 59 < (← fixed? [c, d]) then none else seconds? rest
  | _ => none

/-- The distance of a local time from the universal one. -/
def isOffset : List Char → Bool
  | ['Z'] => true
  | ['z'] => true
  | [s, a, b, ':', c, d] =>
    (s = '+' || s = '-') && (fixed? [a, b]).any (· ≤ 23) && (fixed? [c, d]).any (· ≤ 59)
  | _ => false

/-- A date, a time of day, or a date and a time with or without offset. -/
def isMoment (cs : List Char) : Bool :=
  match date? cs with
  | some [] => true
  | some (c :: rest) =>
    (c = 'T' || c = 't' || c = ' ') &&
      (time? rest).any fun offset => offset = [] || isOffset offset
  | none => time? cs = some []

def literal? (cs : List Char) : Option Value :=
  if cs = ['t', 'r', 'u', 'e'] then some (.bool true)
  else if cs = ['f', 'a', 'l', 's', 'e'] then some (.bool false)
  else if isFloat cs then some (.float (String.ofList cs))
  else if isMoment cs then some (.moment (String.ofList cs))
  else (integer? cs).map .integer

def endsLiteral (c : Char) : Bool := " \t\r\n#,]\x7d".toList.contains c

/-- Reads a literal. One blank may stand between a date and a time. -/
def scalar? (cs : List Char) : Option (Value × List Char) :=
  let (first, rest) := cs.span fun c => !endsLiteral c
  match rest with
  | ' ' :: d :: _ =>
    if date? first = some [] && d.isDigit then
      let (second, rest) := rest.tail.span fun c => !endsLiteral c
      (literal? (first ++ ' ' :: second)).map (·, rest)
    else (literal? first).map (·, rest)
  | _ => (literal? first).map (·, rest)

end RouteGuard.Toml
