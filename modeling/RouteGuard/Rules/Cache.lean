import RouteGuard.Directory.Failure
import RouteGuard.Rules.Table

/-! # The rule cache

Rules are loaded on first use and kept until they are invalidated. Callers that
arrive during a load share it and its outcome. The cache is a machine of small
steps, so that callers, loads, invalidations and changes of the store may be
interleaved at will: a caller enters and either takes the loaded table or waits
for a load; a load begins its read, takes the records, and finishes; a waiting
caller returns with the outcome and publishes it if the load is still wanted.
A caller that goes away leaves no mark, for its load belongs to the cache.
-/

namespace RouteGuard.Rules

open Directory (Authority Failure)
open Glob (CaseMode)

/-- A table with the number of the load that made it. Tables of different loads
are different objects, even when they are equal. -/
structure Loaded where
  load : Nat
  table : Table
  deriving DecidableEq

/-- What a load comes to. All its waiters are given the same. -/
abbrev Outcome := Except LoadError Loaded

/-- How far a load has come. -/
inductive Progress
  /-- started, and driven by nobody yet -/
  | fresh
  /-- the read has begun and is not answered -/
  | reading
  /-- the read is answered with records or a failure -/
  | fetched (answer : Except Failure (List Authority))
  | done (outcome : Outcome)

/-- What the cache offers to the next caller. -/
inductive Phase
  | unloaded
  | loading (load : Nat)
  | loaded (set : Loaded)

/-- The state of the cache. Attempts number the loads and the invalidations
together, so a load is identified by the attempt that started it. -/
structure Cache where
  mode : CaseMode
  attempt : Nat := 0
  phase : Phase := .unloaded
  /-- every load that was started, the latest first -/
  loads : List (Nat × Progress) := []
  /-- store reads begun so far -/
  reads : Nat := 0

/-- What a caller is given on entry. -/
inductive Entry
  | ready (set : Loaded)
  | waiting (load : Nat)

namespace Cache

private def tell (level : Log.Level) (message : String) (fields : List (String × Log.Field)) :
    Logged Unit :=
  Logged.tell ⟨level, "pathgate::authz::registry", message, fields⟩

def progress? (c : Cache) (load : Nat) : Option Progress := c.loads.lookup load

def setProgress (c : Cache) (load : Nat) (p : Progress) : Cache :=
  { c with loads := c.loads.map fun entry => if entry.1 = load then (load, p) else entry }

/-- A caller asks for the rules. Only a caller that finds nothing loaded and
nothing loading starts a load. -/
def enter (c : Cache) : Cache × Entry :=
  match c.phase with
  | .loaded set => (c, .ready set)
  | .loading load => (c, .waiting load)
  | .unloaded =>
    let load := c.attempt + 1
    ({ c with attempt := load, phase := .loading load, loads := (load, .fresh) :: c.loads },
      .waiting load)

/-- A fresh load begins its one read of the store. -/
def beginRead (c : Cache) (load : Nat) : Logged Cache := do
  match c.progress? load with
  | some .fresh =>
    tell .debug "Loading resource rules" [("attempt", .count load)]
    return { c.setProgress load .reading with reads := c.reads + 1 }
  | _ => return c

/-- The store answers the read of a load. -/
def takeAnswer (c : Cache) (load : Nat) (answer : Except Failure (List Authority)) : Cache :=
  match c.progress? load with
  | some .reading => c.setProgress load (.fetched answer)
  | _ => c

def outcomeOf (mode : CaseMode) (load : Nat) : Except Failure (List Authority) → Outcome
  | .error failure => .error (.unread failure.message)
  | .ok records => (Table.build mode records).map fun table => ⟨load, table⟩

/-- What is told when a load finishes: the remarks on its records, then its
outcome. -/
def outcomeEvents (mode : CaseMode) (load : Nat) (answer : Except Failure (List Authority)) :
    List Log.Event :=
  let remarks :=
    match answer with
    | .error _ => []
    | .ok records => Table.buildEvents mode records
  let last : Log.Event :=
    match outcomeOf mode load answer with
    | .ok set =>
      ⟨.info, "pathgate::authz::registry", "Loaded resource rules",
        [("attempt", .count load), ("rules", .count set.table.rules.length),
          ("collisions", .count set.table.collisions.length)]⟩
    | .error e =>
      ⟨.error, "pathgate::authz::registry", "Failed to load resource rules",
        [("attempt", .count load), ("error", .text e.message)]⟩
  remarks ++ [last]

/-- A load whose read was answered finishes. -/
def finishLoad (c : Cache) (load : Nat) : Logged Cache :=
  match c.progress? load with
  | some (.fetched answer) =>
    ⟨c.setProgress load (.done (outcomeOf c.mode load answer)),
      outcomeEvents c.mode load answer⟩
  | _ => ⟨c, []⟩

/-- The phase that an outcome leads to. A failed load leaves nothing loaded. -/
def phaseOf : Outcome → Phase
  | .ok set => .loaded set
  | .error _ => .unloaded

/-- A caller that waits for a load returns with its outcome. The outcome is
published only if nothing was started or invalidated since and nobody has
published it before. -/
def returnFrom (c : Cache) (load : Nat) : Cache × Option Outcome :=
  match c.progress? load with
  | some (.done outcome) =>
    match c.phase with
    | .loading _ =>
      (if c.attempt = load then { c with phase := phaseOf outcome } else c, some outcome)
    | _ => (c, some outcome)
  | _ => (c, none)

/-- Discards what is loaded or loading. A load under way goes on for its own
waiters and is never published. -/
def invalidate (c : Cache) : Logged Cache := do
  let attempt := c.attempt + 1
  tell .info "Resource rules invalidated" [("attempt", .count attempt)]
  return { c with attempt, phase := .unloaded }

/-- Drives a load as far as the store lets it go and returns from it if it is
done. `answer` is what the store would say now, or `none` while it is silent. -/
def poll (c : Cache) (load : Nat) (answer : Option (Except Failure (List Authority))) :
    Logged (Cache × Option Outcome) := do
  let c ← c.beginRead load
  match answer with
  | none => return c.returnFrom load
  | some a =>
    let c ← (c.takeAnswer load a).finishLoad load
    return c.returnFrom load

/-- One caller from entry as far as it can go. A caller that has to wait gets
the number of its load. -/
def request (c : Cache) (answer : Option (Except Failure (List Authority))) :
    Logged (Cache × (Outcome ⊕ Nat)) := do
  match c.enter with
  | (c, .ready set) => return (c, .inl (.ok set))
  | (c, .waiting load) =>
    match ← c.poll load answer with
    | (c, some outcome) => return (c, .inl outcome)
    | (c, none) => return (c, .inr load)

/-- One caller from entry to return while the store answers at once. -/
def rules (c : Cache) (answer : Except Failure (List Authority)) : Logged (Cache × Outcome) := do
  match ← c.request (some answer) with
  | (c, .inl outcome) => return (c, outcome)
  | (c, .inr _) => return (c, .error (.unread ""))

def reload (c : Cache) (answer : Except Failure (List Authority)) : Logged (Cache × Outcome) := do
  (← c.invalidate).rules answer

/-- The loaded table, without starting a load. -/
def snapshot? (c : Cache) : Option Loaded :=
  match c.phase with
  | .loaded set => some set
  | _ => none

/-- The cache as health and status reports show it. -/
structure Status where
  loaded : Bool
  loading : Bool
  ruleCount : Option Nat
  collisionCount : Option Nat
  deriving DecidableEq, Repr

def status (c : Cache) : Status :=
  match c.phase with
  | .loaded set => ⟨true, false, some set.table.rules.length, some set.table.collisions.length⟩
  | .loading _ => ⟨false, true, none, none⟩
  | .unloaded => ⟨false, false, none, none⟩

end Cache

end RouteGuard.Rules
