import RouteGuard.Log.Event
import RouteGuard.Text.Blank
import RouteGuard.Text.Pieces

/-! # Log filters

A filter is a list of directives, each of which names events and says up to
which level they are told. Of the directives that concern an event the most
specific one decides.
-/

namespace RouteGuard.Log

/-- How much is told when events down to this level are told. -/
def Level.verbosity : Level → Nat
  | error => 1
  | warn => 2
  | info => 3
  | debug => 4
  | trace => 5

structure Directive where
  /-- the start of the targets that are meant; `none` means all -/
  target : Option String := none
  /-- facts that an event must have -/
  facts : List String := []
  /-- meant for what happens within a span, or for certain values only -/
  inSpan : Bool := false
  /-- the highest verbosity that is told; nought for none -/
  verbosity : Nat
  deriving DecidableEq, Repr

/-- A verbosity by name, in either case, or by number. -/
def verbosity? (s : String) : Option Nat :=
  let named := [("off", 0), ("error", 1), ("warn", 2), ("info", 3), ("debug", 4), ("trace", 5)]
  match named.lookup s.toLower with
  | some n => some n
  | none =>
    let digits := if s.toList.head? = some '+' then s.toList.tail else s.toList
    let n := digits.foldl (fun n c => n * 10 + (c.toNat - 48)) 0
    if digits ≠ [] && digits.all Char.isDigit && n ≤ 5 then some n else none

namespace Directive

def end? : List Char → Option Nat
  | [] => some 5
  | ['='] => some 5
  | '=' :: level => verbosity? (String.ofList level)
  | _ => none

/-- Characters that a directive may start with, apart from the bracket. -/
def mayStart (c : Char) : Bool :=
  c.isAlphanum || 128 ≤ c.toNat || c = '-' || c = ':' || c = '_'

/-- Reads what follows the bracket of a span. -/
def span? (target : Option String) (cs : List Char) : Option Directive :=
  let inName := fun c => c ≠ ']' && c ≠ '\x7b'
  let name := cs.takeWhile inName
  match cs.dropWhile inName with
  | ']' :: rest => (end? rest).map fun v => { target, inSpan := true, verbosity := v }
  | '\x7b' :: rest =>
    let fact := rest.takeWhile (· ≠ '\x7d')
    match rest.dropWhile (· ≠ '\x7d') with
    | '\x7d' :: ']' :: rest =>
      if fact = [] then none
      else
        (end? rest).map fun v =>
          { target, facts := [String.ofList (fact.takeWhile (· ≠ '='))]
            inSpan := name ≠ [] || fact.contains '=', verbosity := v }
    | _ => none
  | _ => none

/-- Reads a directive: a level, a target, or a target and a span of which either
may be missing, with a level or without. Blanks around it belong to a target
that stands alone and spoil everything else. -/
def parse? (s : String) : Option Directive :=
  let cs := Text.trimChars s.toList
  let inTarget := fun c => c ≠ '=' && c ≠ '['
  let head := String.ofList (cs.takeWhile inTarget)
  let starts := cs.head?.any fun c => c = '[' || mayStart c
  match starts, cs.dropWhile inTarget with
  | false, _ => none
  | true, [] =>
    match verbosity? s with
    | some v => some { verbosity := v }
    | none => some { target := some s, verbosity := 5 }
  | true, c :: rest =>
    if cs ≠ s.toList then none
    else if c = '=' then
      (end? (c :: rest)).map fun v => { target := some head, verbosity := v }
    else span? (if head.isEmpty then none else some head) rest

def concerns (d : Directive) (e : Event) : Bool :=
  !d.inSpan && d.target.all (·.toList.isPrefixOf e.target.toList) &&
    d.facts.all fun name => name == "message" || e.fields.any (·.1 == name)

/-- A directive with a longer target, or else with more facts, is more
specific. -/
def isAtLeastAsSpecific (d other : Directive) : Bool :=
  let size := fun (d : Directive) => (d.target.map (·.length + 1)).getD 0
  size other < size d || (size other = size d && !(d.facts < other.facts))

end Directive

structure Filter where
  directives : List Directive
  deriving DecidableEq, Repr

namespace Filter

/-- Tells everything up to a verbosity. -/
def upTo (verbosity : Nat) : Filter := ⟨[{ verbosity }]⟩

/-- Reads directives between commas. Without any, errors alone are told. -/
def parse? (s : String) : Option Filter := do
  match ← ((Text.split ',' s).filter (· ≠ "")).mapM Directive.parse? with
  | [] => return upTo 1
  | directives => return ⟨directives⟩

/-- The directive that decides on an event. Of equally specific ones the last
decides. -/
def deciding? (f : Filter) (e : Event) : Option Directive :=
  (f.directives.filter (·.concerns e)).foldl (fun best d =>
    match best with
    | none => some d
    | some b => if d.isAtLeastAsSpecific b then some d else some b) none

def keeps (f : Filter) (e : Event) : Bool :=
  (f.deciding? e).any fun d => e.level.verbosity ≤ d.verbosity

end Filter

end RouteGuard.Log
