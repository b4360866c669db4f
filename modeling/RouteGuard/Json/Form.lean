import RouteGuard.Text.Digit

/-! # Reading a form from JSON text

A form is an object, or a list, of a fixed number of texts. The text is read
from left to right and the first fault ends it, so a value of the wrong kind is
reported even where the text breaks off later.
-/

namespace RouteGuard.Json

inductive FormFault
  /-- the text is not JSON -/
  | malformed
  /-- the text has another shape than the form -/
  | wrongShape
  deriving DecidableEq, Repr

def skipBlanks (cs : List Char) : List Char :=
  cs.dropWhile fun c => c = ' ' || c = '\n' || c = '\t' || c = '\r'

def shortEscape? (c : Char) : Option Char :=
  if c = '"' || c = '\\' || c = '/' then some c
  else if c = 'b' then some (Char.ofNat 8)
  else if c = 'f' then some (Char.ofNat 12)
  else if c = 'n' then some '\n'
  else if c = 'r' then some '\r'
  else if c = 't' then some '\t'
  else none

/-- Reads to the quote that ends a text; gives the characters and the rest. A
character outside the basic plane may be written as a pair of escapes, and
neither half may stand alone. -/
def readText? : List Char → Option (List Char × List Char)
  | [] => none
  | '"' :: rest => some ([], rest)
  | '\\' :: 'u' :: a :: b :: c :: d :: rest =>
    match Text.hexNumber? [a, b, c, d] with
    | none => none
    | some high =>
      if high < 0xD800 || 0xDFFF < high then
        (readText? rest).map fun r => (Char.ofNat high :: r.1, r.2)
      else if 0xDC00 ≤ high then none
      else
        match rest with
        | '\\' :: 'u' :: a :: b :: c :: d :: rest =>
          match Text.hexNumber? [a, b, c, d] with
          | none => none
          | some low =>
            if low < 0xDC00 || 0xDFFF < low then none
            else
              (readText? rest).map fun r =>
                (Char.ofNat (0x10000 + (high - 0xD800) * 0x400 + (low - 0xDC00)) :: r.1, r.2)
        | _ => none
  | '\\' :: c :: rest =>
    match shortEscape? c with
    | none => none
    | some c => (readText? rest).map fun r => (c :: r.1, r.2)
  | c :: rest => if c.toNat < 32 then none else (readText? rest).map fun r => (c :: r.1, r.2)

def decimalNumber (digits : List Char) : Nat :=
  digits.foldl (fun n c => n * 10 + (c.toNat - 48)) 0

/-- The least number that rounds to no binary number of double precision. -/
def numberBound : Nat := Nat.pow 2 1024 - Nat.pow 2 970

/-- Does the number that has these digits, times a power of ten, lie below the
bound? The bound has 309 digits, so only numbers of about that size are
compared with it. -/
def isBelowBound (digits : List Char) (exponent : Int) : Bool :=
  let digits := digits.dropWhile (· == '0')
  let n := decimalNumber digits
  if digits = [] || digits.length + exponent ≤ 300 then true
  else if 310 < digits.length + exponent then false
  else if 0 ≤ exponent then n * Nat.pow 10 exponent.toNat < numberBound
  else n < numberBound * Nat.pow 10 (-exponent).toNat

/-- Does a number stand at the start? A fraction and an exponent need a digit,
no number but zero starts with a zero, and none is beyond the bound. -/
def startsNumber (cs : List Char) : Bool :=
  let cs := if cs.head? = some '-' then cs.tail else cs
  let whole := cs.takeWhile Char.isDigit
  let cs := cs.dropWhile Char.isDigit
  let wholeOk := whole = ['0'] || (whole ≠ [] && whole.head? ≠ some '0')
  let hasFraction := cs.head? = some '.'
  let fraction := if hasFraction then cs.tail.takeWhile Char.isDigit else []
  let cs := if hasFraction then cs.tail.dropWhile Char.isDigit else cs
  let hasExponent := cs.head? = some 'e' || cs.head? = some 'E'
  let sign := if hasExponent then cs.tail.head? else none
  let cs := if sign = some '+' || sign = some '-' then cs.tail.tail else cs.tail
  let power := if hasExponent then cs.takeWhile Char.isDigit else []
  let scale : Int := if sign = some '-' then -decimalNumber power else decimalNumber power
  wholeOk && (!hasFraction || fraction ≠ []) && (!hasExponent || power ≠ []) &&
    isBelowBound (whole ++ fraction) (scale - fraction.length)

/-- The fault of a value that should have been something else: it is of the
wrong shape unless it is no value at all. -/
def otherValue (cs : List Char) : FormFault :=
  match cs with
  | '"' :: rest => if (readText? rest).isSome then .wrongShape else .malformed
  | '[' :: _ => .wrongShape
  | '{' :: _ => .wrongShape
  | 'n' :: rest => if rest.take 3 = ['u', 'l', 'l'] then .wrongShape else .malformed
  | 't' :: rest => if rest.take 3 = ['r', 'u', 'e'] then .wrongShape else .malformed
  | 'f' :: rest => if rest.take 4 = ['a', 'l', 's', 'e'] then .wrongShape else .malformed
  | _ => if startsNumber cs then .wrongShape else .malformed

def textValue (cs : List Char) : Except FormFault (String × List Char) :=
  match skipBlanks cs with
  | '"' :: rest =>
    match readText? rest with
    | some (s, rest) => .ok (String.ofList s, rest)
    | none => .error .malformed
  | cs => .error (otherValue cs)

/-- Reads the fields of an object from the first one on, or from the comma
before the next one. Names must be among `names` and occur once. The fuel
bounds the number of fields. -/
def readFields (names : List String) (fuel : Nat) (found : List (String × String))
    (cs : List Char) : Except FormFault (List (String × String) × List Char) :=
  match fuel with
  | 0 => .error .malformed
  | fuel + 1 =>
    match skipBlanks cs with
    | '}' :: rest => .ok (found, rest)
    | c :: rest =>
      let key : Option (List Char) :=
        if found = [] then some (c :: rest)
        else if c = ',' then some (skipBlanks rest)
        else none
      match key with
      | some ('"' :: rest) =>
        match readText? rest with
        | none => .error .malformed
        | some (name, rest) =>
          let name := String.ofList name
          if !names.contains name || found.any (·.1 == name) then .error .wrongShape
          else
            match skipBlanks rest with
            | ':' :: rest =>
              match textValue rest with
              | .error fault => .error fault
              | .ok (value, rest) => readFields names fuel ((name, value) :: found) rest
            | _ => .error .malformed
      | _ => .error .malformed
    | [] => .error .malformed

/-- Reads the items of a list, one for each name, and the bracket after them. -/
def readItems (first : Bool) (found : List (String × String)) :
    List String → List Char → Except FormFault (List (String × String) × List Char)
  | [], cs =>
    match skipBlanks cs with
    | ']' :: rest => .ok (found, rest)
    | _ => .error .malformed
  | name :: names, cs =>
    match skipBlanks cs with
    | ']' :: _ => .error .wrongShape
    | [] => .error .malformed
    | c :: rest =>
      let item : Option (List Char) :=
        if first then some (c :: rest)
        else if c = ',' then
          if (skipBlanks rest).head? = some ']' then none else some rest
        else none
      match item with
      | none => .error .malformed
      | some cs =>
        match textValue cs with
        | .error fault => .error fault
        | .ok (value, rest) => readItems false ((name, value) :: found) names rest

/-- Reads a form with the given names; every name must have a text, and nothing
but blanks may follow. -/
def readForm (names : List String) (s : String) : Except FormFault (List (String × String)) := do
  let cs := skipBlanks s.toList
  let (found, rest) ←
    match cs with
    | '{' :: rest => do
      let (found, rest) ← readFields names (names.length + 1) [] rest
      if names.all fun name => found.any (·.1 == name) then pure (found, rest)
      else throw .wrongShape
    | '[' :: rest => readItems true [] names rest
    | _ => throw (otherValue cs)
  if skipBlanks rest = [] then return found else throw .malformed

end RouteGuard.Json
