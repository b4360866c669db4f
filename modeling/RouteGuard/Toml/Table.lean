/-! # TOML values and tables

A document is a table. Its tables may be spread over several headers and dotted
keys, and what may still be added to a table depends on how it came to be.
-/

namespace RouteGuard.Toml

inductive Origin
  /-- named only on the way to a table of its own header -/
  | implied
  /-- made by a dotted key -/
  | dotted
  /-- opened by its own header -/
  | header
  /-- written between braces -/
  | inline
  deriving DecidableEq, Repr

inductive Value
  | text (s : String)
  | integer (n : Int)
  | float (literal : String)
  | bool (b : Bool)
  /-- a date, a time, or both -/
  | moment (literal : String)
  | list (items : List Value)
  /-- the tables of repeated headers -/
  | series (tables : List (List (String × Value)))
  | table (origin : Origin) (entries : List (String × Value))

/-- The content of a table, in the order written. -/
abbrev Entries := List (String × Value)

/-- Replaces the value of a key, or adds the key; `change` may refuse. -/
def alter? (key : String) (change : Option Value → Option Value) : Entries → Option Entries
  | [] => (change none).map fun v => [(key, v)]
  | (k, v) :: rest =>
    if k = key then (change (some v)).map fun v => (k, v) :: rest
    else (alter? key change rest).map ((k, v) :: ·)

/-- Changes the table at the end of a path. Tables that are missing on the way
are made; a series is entered at its last table. A table between braces cannot
be entered, nor one with a header of its own by a dotted key. -/
def within? (byDots : Bool) (change : Origin → Entries → Option Entries) :
    List String → Origin → Entries → Option Entries
  | [], origin, entries => change origin entries
  | key :: path, _, entries =>
    let made : Origin := if byDots then .dotted else .implied
    alter? key (fun
      | none => (within? byDots change path made []).map (.table made)
      | some (.table .inline _) => none
      | some (.table origin inner) =>
        if byDots && origin = .header then none
        else (within? byDots change path origin inner).map (.table origin)
      | some (.series tables) => do
        let last ← tables.getLast?
        return .series (tables.dropLast ++ [← within? byDots change path .header last])
      | some _ => none) entries

/-- Adds a key and its value. The key must be new, and a table that was not
made by dots cannot be filled by dots. -/
def insert? (path : List String) (v : Value) (origin : Origin) (entries : Entries) :
    Option Entries :=
  match path.getLast? with
  | none => none
  | some key =>
    let byDots := path.length ≠ 1
    within? byDots (fun origin entries =>
      if byDots && origin ≠ .dotted then none
      else alter? key (fun | none => some v | some _ => none) entries)
      path.dropLast origin entries

/-- Opens the table of a header. It must be new, or only implied so far. -/
def openTable? (path : List String) (entries : Entries) : Option Entries :=
  match path.getLast? with
  | none => none
  | some key =>
    within? false (fun _ entries =>
      alter? key (fun
        | none => some (.table .header [])
        | some (.table .implied inner) => some (.table .header inner)
        | some _ => none) entries)
      path.dropLast .header entries

/-- Opens the next table of a series. -/
def openNext? (path : List String) (entries : Entries) : Option Entries :=
  match path.getLast? with
  | none => none
  | some key =>
    within? false (fun _ entries =>
      alter? key (fun
        | none => some (.series [[]])
        | some (.series tables) => some (.series (tables ++ [[]]))
        | some _ => none) entries)
      path.dropLast .header entries

end RouteGuard.Toml
