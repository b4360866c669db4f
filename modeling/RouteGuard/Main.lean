import RouteGuard.CommandLine.Run
import RouteGuard.Directory.DatabaseText
import Std.Time.Format

/-! # The program

Reads the files that a run needs, runs it, and writes what it leaves behind.
-/

namespace RouteGuard.Main

open CommandLine (Machine Place)
open Directory (Database)

def readText? (path : String) : IO (Option String) := do
  try
    return some (← IO.FS.readFile path)
  catch _ => return none

def isFolder (path : String) : IO Bool := do
  try
    (← IO.FS.realPath path).isDir
  catch _ => return false

/-- The universal time, to the microsecond. -/
def timeNow : IO String := do
  try
    return (← Std.Time.DateTime.nowAt "UTC").format "uuuu-MM-dd'T'HH:mm:ss.SSSSSSXXX"
  catch _ => return ""

/-- Adds the variables with the given names, as far as they are set. -/
def withVariables (m : Machine) (names : List String) : IO Machine := do
  let mut environment := m.environment
  for name in names do
    if let some value ← IO.getEnv name then
      environment := environment ++ [(name, value)]
  return { m with environment }

/-- Adds a text file and the variables that it may refer to. -/
def withText (m : Machine) (path : String) : IO Machine := do
  match ← readText? path with
  | some s => withVariables { m with files := (path, s) :: m.files } (Settings.namesIn s)
  | none => if ← isFolder path then return { m with folders := path :: m.folders } else return m

/-- Adds a database file, or the folder that it would lie in. -/
def withDatabase (m : Machine) (path : String) : IO Machine := do
  let folder := (Place.of path).folder.path
  let m := if ← isFolder folder then { m with folders := folder :: m.folders } else m
  match ← readText? path with
  | none => return m
  | some s =>
    match Database.ofText? s with
    | some d => return { m with databases := [(path, d)] }
    | none => return { m with files := (path, s) :: m.files }

/-- The machine as far as a run sees it. The settings tell of the other files,
so they are read first. -/
def survey (args : List String) : IO Machine := do
  let mut m ← withVariables { now := ← timeNow } [CommandLine.filterVariable]
  for path in CommandLine.textsRead m args do
    m ← withText m path
  for path in (CommandLine.textsRead m args).drop 1 do
    m ← withText m path
  match CommandLine.databaseOpened? m args with
  | some path => withDatabase m path
  | none => return m

end RouteGuard.Main

open RouteGuard in
/-- Runs the program. It gets ready to serve, but opens no sockets itself. -/
def main (args : List String) : IO UInt32 := do
  let (after, report) := CommandLine.run (← Main.survey args) args
  for (path, d) in after.databases do
    IO.FS.writeFile path d.render
  (← IO.getStdout).putStr report.output
  (← IO.getStderr).putStr report.errors
  match report.exit with
  | some code => return code.toUInt32
  | none =>
    (← IO.getStderr).putStr "Error: no sockets can be opened here\n"
    return 1
