import RouteGuard.Directory.SeedText
import RouteGuard.Directory.Store
import RouteGuard.Path.Canonical
import RouteGuard.Settings.Basic
import RouteGuard.Settings.Environment

/-! # What the program finds on its machine

A run sees text files, database files, the environment and the time. Paths are
compared after dots and needless slashes are taken out of them.
-/

namespace RouteGuard.CommandLine

open Directory (Database Failure Seed Store)

structure Machine where
  /-- texts by path -/
  files : List (String × String) := []
  /-- folders that are there besides those that the files lie in -/
  folders : List String := []
  /-- databases by path -/
  databases : List (String × Database) := []
  environment : Settings.Environment := []
  now : String := ""

/-- Where a path leads: from the root of the machine or from the folder that the
program was started in. -/
structure Place where
  fromRoot : Bool
  steps : List (List Char)
  deriving DecidableEq, Repr

def Place.of (path : String) : Place :=
  ⟨path.startsWith "/", Path.resolve (Path.segments path.toList)⟩

/-- The shortest path to a place. -/
def Place.path (p : Place) : String :=
  let steps := String.ofList (Text.joined '/' p.steps)
  if p.fromRoot then "/" ++ steps else if p.steps = [] then "." else steps

def Place.folder (p : Place) : Place := { p with steps := p.steps.dropLast }

def Place.isWithin (p folder : Place) : Bool :=
  p.fromRoot == folder.fromRoot && p.steps != folder.steps && folder.steps.isPrefixOf p.steps

namespace Machine

def text? (m : Machine) (path : String) : Option String :=
  if path.isEmpty then none
  else (m.files.find? fun f => Place.of f.1 == Place.of path).map (·.2)

/-- Is there a folder at the place? The starting folder is one, and so is each
that a file lies in. -/
def hasFolder (m : Machine) (p : Place) : Bool :=
  p.steps = [] || m.folders.any (fun f => Place.of f == p) ||
    m.files.any fun f => (Place.of f.1).isWithin p

def holds (m : Machine) (path : String) : Bool :=
  (m.text? path).isSome || (!path.isEmpty && m.hasFolder (Place.of path))

def read (m : Machine) (path : String) : Except String String :=
  match m.text? path with
  | some s => .ok s
  | none =>
    if m.holds path then .error "Is a directory (os error 21)"
    else .error "No such file or directory (os error 2)"

def readSeed (m : Machine) (path : String) : Except Failure Seed :=
  match m.read path with
  | .error reason => .error (.unreadableSeed path reason)
  | .ok s => Seed.read s

/-- The path under which a database is never kept. -/
def passingPath : String := ":memory:"

/-- Opens a database file. A missing one is made if that is allowed and its folder
is there; an empty file is a database without tables. -/
def openDatabase (m : Machine) (file : Settings.DatabaseFile) : Except Failure Database :=
  let p := Place.of file.path
  if file.path = passingPath then .ok {}
  else
    match m.databases.find? fun d => Place.of d.1 == p with
    | some d => .ok d.2
    | none =>
      match m.text? file.path with
      | some s => if s.isEmpty then .ok {} else .error .notDatabase
      | none =>
        if file.createIfMissing && p.steps ≠ [] && !m.hasFolder p && m.hasFolder p.folder then
          .ok {}
        else .error .cannotOpen

def keep (m : Machine) (path : String) : Store → Machine
  | .memory _ => m
  | .database d =>
    if path = passingPath then m
    else
      { m with
        databases := (path, d) :: m.databases.filter fun e => Place.of e.1 != Place.of path }

end Machine

end RouteGuard.CommandLine
