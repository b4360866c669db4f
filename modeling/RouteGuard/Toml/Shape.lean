import RouteGuard.Toml.Table

/-! # Taking records out of TOML values

A record is a table with known keys, or a list of the same values in the order
of the keys. What a reader here cannot use it refuses.
-/

namespace RouteGuard.Toml

namespace Value

def text? : Value → Option String
  | text s => some s
  | _ => none

def bool? : Value → Option Bool
  | bool b => some b
  | _ => none

def nat? (most : Nat) : Value → Option Nat
  | integer n => if 0 ≤ n && n ≤ most then some n.toNat else none
  | _ => none

/-- The items of a list; the tables of a series count as items. -/
def items? : Value → Option (List Value)
  | list items => some items
  | series tables => some (tables.map (.table .header))
  | _ => none

def listOf? {α : Type} (item : Value → Option α) (v : Value) : Option (List α) := do
  (← v.items?).mapM item

/-- One of several words. A table of one empty table or list under the word
says the same. -/
def word? {α : Type} (words : List (String × α)) : Value → Option α
  | text s => words.lookup s
  | table _ [(key, table _ [])] => words.lookup key
  | table _ [(key, list [])] => words.lookup key
  | _ => none

end Value

inductive Fields
  | byName (entries : Entries)
  | byPlace (items : List Value)

namespace Fields

def of? : Value → Option Fields
  | .table _ entries => some (.byName entries)
  | v => v.items?.map .byPlace

def values (names : List String) : Fields → List (Option Value)
  | byName entries => names.map fun name => entries.lookup name
  | byPlace items => (List.range names.length).map (items[·]?)

/-- Is each name in a table one of `names`? -/
def areAmong (names : List String) : Fields → Bool
  | byName entries => entries.all fun e => names.contains e.1
  | byPlace _ => true

/-- The value for each name, in order, where no other names occur. -/
def exactly? (names : List String) (fields : Fields) : Option (List (Option Value)) :=
  if fields.areAmong names then some (fields.values names) else none

end Fields

/-- A field that may be left out. -/
def optional? {α : Type} (d : α) (read : Value → Option α) : Option Value → Option α
  | none => some d
  | some v => read v

end RouteGuard.Toml
