/-! # JSON values and their text

A number is kept as the text it is written with. Objects keep the order of
their fields, which is the order in which they are written.
-/

namespace RouteGuard.Json

inductive Value
  | null
  | bool (b : Bool)
  | number (literal : String)
  | text (s : String)
  | list (items : List Value)
  | object (fields : List (String × Value))
  deriving Repr

namespace Value

def nat (n : Nat) : Value := number (toString n)

def texts (ss : List String) : Value := list (ss.map text)

def optText : Option String → Value
  | none => null
  | some s => text s

end Value

/-- A character inside quotes. Quotes, backslashes and control characters are
escaped, in the short form where there is one. -/
def escapeChar (c : Char) : List Char :=
  if c = '"' then ['\\', '"']
  else if c = '\\' then ['\\', '\\']
  else if c = '\n' then ['\\', 'n']
  else if c = '\r' then ['\\', 'r']
  else if c = '\t' then ['\\', 't']
  else if c.toNat = 8 then ['\\', 'b']
  else if c.toNat = 12 then ['\\', 'f']
  else if c.toNat < 32 then
    ['\\', 'u', '0', '0', Nat.digitChar (c.toNat / 16), Nat.digitChar (c.toNat % 16)]
  else [c]

def quote (s : String) : String := "\"" ++ String.ofList (s.toList.flatMap escapeChar) ++ "\""

namespace Value

mutual

/-- The value on one line without blanks. -/
def compact : Value → String
  | null => "null"
  | bool b => if b then "true" else "false"
  | number literal => literal
  | text s => quote s
  | list items => "[" ++ compactItems items ++ "]"
  | object fields => "\x7b" ++ compactFields fields ++ "\x7d"

def compactItems : List Value → String
  | [] => ""
  | [v] => v.compact
  | v :: rest => v.compact ++ "," ++ compactItems rest

def compactFields : List (String × Value) → String
  | [] => ""
  | [(k, v)] => quote k ++ ":" ++ v.compact
  | (k, v) :: rest => quote k ++ ":" ++ v.compact ++ "," ++ compactFields rest

end

/-- A new line at the given depth. -/
def lineAt (depth : Nat) : String := "\n" ++ String.ofList (List.replicate (2 * depth) ' ')

mutual

/-- The value with one item or field a line, two blanks for each level. Empty
lists and objects stay on their line. -/
def prettyAt (depth : Nat) : Value → String
  | null => "null"
  | bool b => if b then "true" else "false"
  | number literal => literal
  | text s => quote s
  | list items =>
    if items.isEmpty then "[]"
    else "[" ++ prettyItems (depth + 1) items ++ lineAt depth ++ "]"
  | object fields =>
    if fields.isEmpty then "\x7b\x7d"
    else "\x7b" ++ prettyFields (depth + 1) fields ++ lineAt depth ++ "\x7d"

def prettyItems (depth : Nat) : List Value → String
  | [] => ""
  | [v] => lineAt depth ++ v.prettyAt depth
  | v :: rest => lineAt depth ++ v.prettyAt depth ++ "," ++ prettyItems depth rest

def prettyFields (depth : Nat) : List (String × Value) → String
  | [] => ""
  | [(k, v)] => lineAt depth ++ quote k ++ ": " ++ v.prettyAt depth
  | (k, v) :: rest =>
    lineAt depth ++ quote k ++ ": " ++ v.prettyAt depth ++ "," ++ prettyFields depth rest

end

def pretty (v : Value) : String := v.prettyAt 0

end Value

end RouteGuard.Json
