import RouteGuard.Directory.Tables
import RouteGuard.Log.Event

/-! # Stores

A store holds the records that a seed lists. The memory store keeps what it is
given, in the order given, and resolves names when it is asked. The database
refuses nothing but a taken name: references to unknown records are dropped as
they are written, and roles and grants come back in the order in which the
records were first stored.
-/

namespace RouteGuard.Directory

/-- Replaces the first element with the key of `x`, or appends `x`. -/
def putBy {α : Type} (key : α → String) (x : α) : List α → List α
  | [] => [x]
  | y :: rest => if key y = key x then x :: rest else y :: putBy key x rest

/-- What a store says when an authority of the name is there already. -/
def nameTaken (name : String) : Failure :=
  .conflict ("Authority '" ++ name ++ "' already exists")

namespace Seed

/-! ### Changes of the memory store -/

/-- Adds an authority, or replaces the one of its name in place. -/
def upsertAuthority (s : Seed) (a : Authority) : Seed :=
  { s with authorities := putBy (·.name) a s.authorities }

/-- Takes an authority away from the list and from every role. `none` if there
is none of that name. -/
def removeAuthority? (s : Seed) (name : String) : Option Seed :=
  if s.authorities.any (·.name == name) then
    some { s with
      authorities := s.authorities.filter (·.name != name)
      roles := s.roles.map fun r => { r with authorities := r.authorities.filter (· != name) } }
  else none

/-- Adds or replaces a role all of whose grants are known. -/
def upsertRole (s : Seed) (r : SeedRole) : Except SeedFault Seed :=
  match r.authorities.find? fun name => !s.authorities.any (·.name == name) with
  | some missing => .error (.unknownAuthority r.name missing)
  | none => .ok { s with roles := putBy (·.name) r s.roles }

def upsertPrincipal (s : Seed) (p : SeedPrincipal) : Except SeedFault Seed :=
  match (p.roles.getD []).find? fun name => !s.roles.any (·.name == name) with
  | some missing => .error (.unknownRole p.username missing)
  | none => .ok { s with principals := putBy (·.username) p s.principals }

def createAuthority (s : Seed) (a : Authority) : Except Failure Seed :=
  if s.authorities.any (·.name == a.name) then .error (nameTaken a.name)
  else .ok { s with authorities := s.authorities ++ [a] }

/-- Runs changes in turn up to the first fault. What was changed before the
fault stays changed. -/
def runChanges {α : Type} (change : Seed → α → Except SeedFault Seed) (s : Seed) :
    List α → Seed × Option SeedFault
  | [] => (s, none)
  | x :: rest =>
    match change s x with
    | .ok s => runChanges change s rest
    | .error fault => (s, some fault)

def absorb (s seed : Seed) : Seed × Option SeedFault :=
  let s := seed.authorities.foldl upsertAuthority s
  match runChanges upsertRole s seed.roles with
  | (s, some fault) => (s, some fault)
  | (s, none) => runChanges upsertPrincipal s seed.principals

/-- The authorities of the given names that are stored, in the order named. -/
def authoritiesNamed (s : Seed) (names : List String) : List Authority :=
  names.filterMap fun name => s.authorities.find? (·.name == name)

/-- A principal by exact name, with roles and grants in the order assigned.
Names that are not stored are passed over. -/
def findAssigned? (s : Seed) (username : String) : Option Principal :=
  (s.principals.find? (·.username == username)).map fun p =>
    { username := p.username
      roles := p.roles.map fun names =>
        (names.filterMap fun name => s.roles.find? (·.name == name)).map fun r =>
          { name := r.name, authorities := s.authoritiesNamed r.authorities } }

end Seed

/-- A database. Before the first migration it has no tables. -/
structure Database where
  tables : Option Tables := none
  closed : Bool := false
  deriving DecidableEq

namespace Database

/-- The tables for a statement that names `table` first. -/
def opened (d : Database) (table : String) : Except Failure Tables :=
  if d.closed then .error .closedPool
  else
    match d.tables with
    | none => .error (.noTable table)
    | some t => .ok t

def migrate (d : Database) : Except Failure Database :=
  if d.closed then .error .closedMigration
  else .ok { d with tables := some (d.tables.getD .empty) }

/-- The table that the first statement of an import names. An empty seed has no
statement. -/
def importTable? (seed : Seed) : Option String :=
  if seed.authorities ≠ [] then some "authorities"
  else if seed.roles ≠ [] then some "roles"
  else if seed.principals ≠ [] then some "principals"
  else none

def importSeed (d : Database) (seed : Seed) : Except Failure Database :=
  match importTable? seed with
  | none => if d.closed then .error .closedPool else .ok d
  | some table => (d.opened table).map fun t => { d with tables := some (t.write seed) }

end Database

inductive Store
  | memory (records : Seed)
  | database (d : Database)
  deriving DecidableEq

namespace Store

def backend : Store → String
  | memory _ => "memory"
  | database _ => "sqlite"

def list : Store → Except Failure (List Authority)
  | memory s => .ok s.authorities
  | database d => (d.opened "authorities").map (·.authorities.values)

def find? (username : String) : Store → Except Failure (Option Principal)
  | memory s => .ok (s.findAssigned? username)
  | database d => (d.opened "principals").map fun t => t.findBetween? t username

/-- Adds an authority whose exact name is not taken. -/
def create (a : Authority) : Store → Except Failure Store
  | memory s => (s.createAuthority a).map memory
  | database d => do
    match (← d.opened "authorities").insertAuthority? a with
    | some t => return database { d with tables := some t }
    | none => throw (nameTaken a.name)

/-- Deletes the authority of exactly this name and every grant of it. -/
def delete (name : String) : Store → Except Failure Store
  | memory s =>
    match s.removeAuthority? name with
    | some s => .ok (memory s)
    | none => .error .notFound
  | database d => do
    let t ← d.opened "role_authorities"
    if (t.authorities.find? name).isSome then
      return database { d with tables := some (t.deleteAuthority name) }
    else throw .notFound

/-- Imports a seed, whether or not it is consistent. The memory store stops at
the first unknown reference and keeps what it has taken in by then. -/
def importSeed (seed : Seed) : Store → Logged (Store × Except Failure Unit)
  | memory s =>
    match s.absorb seed with
    | (s, none) => return (memory s, .ok ())
    | (s, some fault) => return (memory s, .error (.invalid fault.message))
  | database d =>
    match d.importSeed seed with
    | .error failure => return (database d, .error failure)
    | .ok d => do
      Logged.tell ⟨.info, "pathgate::db::sqlite::seed", "Imported seed data",
        [("authorities", .count seed.authorities.length), ("roles", .count seed.roles.length),
          ("principals", .count seed.principals.length)]⟩
      return (database d, .ok ())

/-- Brings a database up to date. A memory store has nothing to migrate. -/
def migrate : Store → Logged (Store × Except Failure Unit)
  | memory s => return (memory s, .ok ())
  | database d => do
    Logged.tell ⟨.info, "pathgate::db", "Running SQLite migrations", []⟩
    match d.migrate with
    | .error failure => return (database d, .error failure)
    | .ok d =>
      Logged.tell ⟨.info, "pathgate::db", "SQLite migrations completed successfully", []⟩
      return (database d, .ok ())

def health : Store → Except Failure Unit
  | memory _ => .ok ()
  | database d => if d.closed then .error .closedPool else .ok ()

/-- Closes a database for good. A memory store stays open. -/
def close : Store → Store
  | memory s => memory s
  | database d => database { d with closed := true }

end Store

end RouteGuard.Directory
