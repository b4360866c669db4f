import RouteGuard.Toml.Scalar

/-! # Reading TOML

A document is a list of statements, one a line: headers, headers of series, and
keys with their values. Each reader takes the text that is left and gives what
it has read with the rest, or nothing if the text is not well formed.
-/

namespace RouteGuard.Toml

def isSpace (c : Char) : Bool := c = ' ' || c = '\t'

def skipSpaces (cs : List Char) : List Char := cs.dropWhile isSpace

/-- Skips blanks, line ends and comments. The flag tells that the text starts
within a comment. -/
def skipLines? (comment : Bool) : List Char → Option (List Char)
  | [] => some []
  | '\n' :: rest => skipLines? false rest
  | '\r' :: '\n' :: rest => skipLines? false rest
  | c :: rest =>
    if comment then if isTextChar c then skipLines? true rest else none
    else if isSpace c then skipLines? false rest
    else if c = '#' then skipLines? true rest
    else some (c :: rest)

/-- Does nothing but blanks and a comment stand before the end of the line? -/
def isLineEnd (cs : List Char) : Bool :=
  match skipSpaces cs with
  | [] => true
  | '\n' :: _ => true
  | '\r' :: '\n' :: _ => true
  | c :: _ => c = '#'

def isBareKeyChar (c : Char) : Bool := c.isAlphanum || c = '_' || c = '-'

def key? (cs : List Char) : Option (String × List Char) :=
  let (bare, rest) := cs.span isBareKeyChar
  if bare = [] then lineText? cs else some (String.ofList bare, rest)

def path? (cs : List Char) : Option (List String × List Char) :=
  match key? cs with
  | none => none
  | some (key, rest) =>
    match skipSpaces rest with
    | '.' :: more =>
      let more := skipSpaces more
      if more.length < cs.length then (path? more).map fun r => (key :: r.1, r.2) else none
    | rest => some ([key], rest)
termination_by cs.length

/-- Reads items up to the closing bracket. Commas stand between them, and one
may stand after the last. -/
def sequence? {α : Type} (close : Char) (item : List Char → Option (α × List Char))
    (cs : List Char) : Option (List α × List Char) :=
  match skipLines? false cs with
  | none => none
  | some [] => none
  | some (c :: rest) =>
    if c = close then some ([], rest)
    else
      match item (c :: rest) with
      | none => none
      | some (x, rest) =>
        match skipLines? false rest with
        | some (c :: rest) =>
          if c = close then some ([x], rest)
          else if c = ',' && rest.length < cs.length then
            (sequence? close item rest).map fun r => (x :: r.1, r.2)
          else none
        | _ => none
termination_by cs.length
decreasing_by simp_all

def assignment? (value : List Char → Option (Value × List Char)) (cs : List Char) :
    Option ((List String × Value) × List Char) := do
  let (path, rest) ← path? cs
  match skipSpaces rest with
  | '=' :: rest => do
    let (v, rest) ← value (skipSpaces rest)
    return ((path, v), rest)
  | _ => none

/-- Reads a value whose brackets and braces nest at most `depth` deep. -/
def value? : Nat → List Char → Option (Value × List Char)
  | depth + 1, '[' :: rest =>
    (sequence? ']' (value? depth) rest).map fun r => (.list r.1, r.2)
  | depth + 1, '\x7b' :: rest => do
    let (entries, rest) ← sequence? '\x7d' (assignment? (value? depth)) rest
    let table ← entries.foldlM (fun t e => insert? e.1 e.2 .inline t) []
    return (.table .inline table, rest)
  | _, cs =>
    match text? cs with
    | some (s, rest) => some (.text s, rest)
    | none => scalar? cs

def maxDepth : Nat := 80

inductive Statement
  | header (path : List String)
  | seriesHeader (path : List String)
  | entry (path : List String) (v : Value)

def statement? : List Char → Option (Statement × List Char)
  | '[' :: '[' :: rest => do
    let (path, rest) ← path? (skipSpaces rest)
    match skipSpaces rest with
    | ']' :: ']' :: rest => some (.seriesHeader path, rest)
    | _ => none
  | '[' :: rest => do
    let (path, rest) ← path? (skipSpaces rest)
    match skipSpaces rest with
    | ']' :: rest => some (.header path, rest)
    | _ => none
  | cs => (assignment? (value? maxDepth) cs).map fun r => (.entry r.1.1 r.1.2, r.2)

/-- Reads statements to the end of the text, each on a line of its own. -/
def statements? (cs : List Char) : Option (List Statement) :=
  match skipLines? false cs with
  | none => none
  | some [] => some []
  | some (c :: more) =>
    match statement? (c :: more) with
    | none => none
    | some (s, rest) =>
      if isLineEnd rest && rest.length < cs.length then (statements? rest).map (s :: ·)
      else none
termination_by cs.length
decreasing_by simp_all

/-- A document as far as it is read: its table, and the header that the next
keys belong to. -/
structure Document where
  root : Entries := []
  here : List String := []

def Document.add? (d : Document) : Statement → Option Document
  | .header path => (openTable? path d.root).map (⟨·, path⟩)
  | .seriesHeader path => (openNext? path d.root).map (⟨·, path⟩)
  | .entry path v => (within? false (insert? path v) d.here .header d.root).map (⟨·, d.here⟩)

/-- The table that a text spells, if it is well formed. A byte order mark may
stand before it. -/
def read? (s : String) : Option Entries := do
  let cs := s.toList
  let cs := if cs.head? = some '\ufeff' then cs.tail else cs
  let d ← (← statements? cs).foldlM Document.add? {}
  return d.root

end RouteGuard.Toml
