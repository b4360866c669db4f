import RouteGuard.Text.Digit

/-! # Texts in TOML

A text stands between quotes, on one line or, with tripled quotes, on several.
Between double quotes a backslash starts an escape; between single quotes every
character stands for itself.
-/

namespace RouteGuard.Toml

/-- Characters that a text, and a comment, may hold: no control characters but
the tab. -/
def isTextChar (c : Char) : Bool := c = '\t' || (32 ≤ c.toNat && c.toNat ≠ 127)

/-- The character with the code point that the digits spell in base sixteen. -/
def codePoint? (digits : List Char) : Option Char := do
  let n ← Text.hexNumber? digits
  if n < 0xD800 || (0xDFFF < n && n < 0x110000) then some (Char.ofNat n) else none

def letterEscape? (c : Char) : Option Char :=
  if c = '"' || c = '\\' then some c
  else if c = 'b' then some (Char.ofNat 8)
  else if c = 't' then some '\t'
  else if c = 'n' then some '\n'
  else if c = 'f' then some (Char.ofNat 12)
  else if c = 'r' then some '\r'
  else if c = 'e' then some (Char.ofNat 27)
  else none

/-- Splits a text after the quote that ends it; gives what stands before. -/
def splitLine? (quote : Char) (escapes : Bool) : List Char → Option (List Char × List Char)
  | [] => none
  | [c] => if c = quote then some ([], []) else none
  | c :: d :: rest =>
    if c = quote then some ([], d :: rest)
    else if escapes && c = '\\' then
      (splitLine? quote escapes rest).map fun r => (c :: d :: r.1, r.2)
    else (splitLine? quote escapes (d :: rest)).map fun r => (c :: r.1, r.2)

/-- Up to two quotes right after three belong to the text that these end. -/
def closing (quote : Char) : List Char → List Char × List Char
  | a :: b :: rest =>
    if a = quote then if b = quote then ([a, b], rest) else ([a], b :: rest)
    else ([], a :: b :: rest)
  | [a] => if a = quote then ([a], []) else ([], [a])
  | [] => ([], [])

/-- Splits a text after the three quotes that end it. -/
def splitBlock? (quote : Char) (escapes : Bool) : List Char → Option (List Char × List Char)
  | a :: b :: c :: rest =>
    if a = quote && b = quote && c = quote then some (closing quote rest)
    else if escapes && a = '\\' then
      (splitBlock? quote escapes (c :: rest)).map fun r => (a :: b :: r.1, r.2)
    else (splitBlock? quote escapes (b :: c :: rest)).map fun r => (a :: r.1, r.2)
  | _ => none

/-- What happens to blanks and line ends after a backslash at the end of a
line: they are left out up to the next other character. -/
inductive Folding
  | off
  /-- after the backslash, the line end still to come -/
  | started
  /-- past the line end -/
  | on
  deriving DecidableEq, Repr

/-- Resolves the escapes of a text. Line ends may occur only if `lines`. -/
def unescape? (lines : Bool) (folding : Folding) : List Char → Option (List Char)
  | [] => if folding = .started then none else some []
  | '\r' :: '\n' :: rest =>
    if !lines then none
    else if folding = .off then (unescape? lines .off rest).map ('\r' :: '\n' :: ·)
    else unescape? lines .on rest
  | '\n' :: rest =>
    if !lines then none
    else if folding = .off then (unescape? lines .off rest).map ('\n' :: ·)
    else unescape? lines .on rest
  | c :: rest =>
    if folding ≠ .off && (c = ' ' || c = '\t') then unescape? lines folding rest
    else if folding = .started then none
    else if c ≠ '\\' then
      if isTextChar c then (unescape? lines .off rest).map (c :: ·) else none
    else
      match rest with
      | 'x' :: a :: b :: rest => do
        return (← codePoint? [a, b]) :: (← unescape? lines .off rest)
      | 'u' :: a :: b :: c :: d :: rest => do
        return (← codePoint? [a, b, c, d]) :: (← unescape? lines .off rest)
      | 'U' :: a :: b :: c :: d :: e :: f :: g :: h :: rest => do
        return (← codePoint? [a, b, c, d, e, f, g, h]) :: (← unescape? lines .off rest)
      | c :: rest =>
        if c = ' ' || c = '\t' || c = '\n' || c = '\r' then
          if lines then unescape? lines .started (c :: rest) else none
        else do return (← letterEscape? c) :: (← unescape? lines .off rest)
      | [] => none

/-- Text without escapes that runs over several lines: a carriage return stands
only before a line feed. -/
def areLines : List Char → Bool
  | [] => true
  | '\r' :: '\n' :: rest => areLines rest
  | c :: rest => (c = '\n' || isTextChar c) && areLines rest

/-- A line end right after the opening quotes does not count. -/
def dropLineEnd : List Char → List Char
  | '\n' :: rest => rest
  | '\r' :: '\n' :: rest => rest
  | cs => cs

def lineText? : List Char → Option (String × List Char)
  | '"' :: rest => do
    let (raw, rest) ← splitLine? '"' true rest
    return (String.ofList (← unescape? false .off raw), rest)
  | '\'' :: rest => do
    let (raw, rest) ← splitLine? '\'' false rest
    if raw.all isTextChar then some (String.ofList raw, rest) else none
  | _ => none

def text? : List Char → Option (String × List Char)
  | '"' :: '"' :: '"' :: rest => do
    let (raw, rest) ← splitBlock? '"' true (dropLineEnd rest)
    return (String.ofList (← unescape? true .off raw), rest)
  | '\'' :: '\'' :: '\'' :: rest => do
    let (raw, rest) ← splitBlock? '\'' false (dropLineEnd rest)
    if areLines raw then some (String.ofList raw, rest) else none
  | cs => lineText? cs

end RouteGuard.Toml
