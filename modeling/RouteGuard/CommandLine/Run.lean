import RouteGuard.CommandLine.Help
import RouteGuard.CommandLine.Machine
import RouteGuard.Http.Service
import RouteGuard.Log.Filter
import RouteGuard.Log.Line
import RouteGuard.Settings.Reader

/-! # Runs of the program

A run reads its arguments, then its settings, then opens the store, then does
what the command says. What happens is logged to the output, in front of what
the command prints.
-/

namespace RouteGuard.CommandLine

open Directory (Database Failure Store)
open Http (Service)

/-- What a run leaves behind: its exit code, unless it goes on to serve, and what
it wrote. -/
structure Report where
  exit : Option Nat
  output : String := ""
  errors : String := ""
  deriving DecidableEq, Repr

def Report.failed (exit : Nat) (message : String) : Report :=
  { exit := some exit, errors := message ++ "\n" }

/-! ### Settings and log -/

/-- The variable that comes before the log filter of the settings. -/
def filterVariable : String := "RUST_LOG"

/-- The file of settings that is read if none is named. -/
def defaultSettingsFile : String := "pathgate.toml"

/-- The settings in the named file. If none is named and the default one is
missing, the built-in settings hold. Nothing is logged yet. -/
def loadSettings (m : Machine) (named : Option String) : Except String Settings :=
  let path := named.getD defaultSettingsFile
  if named.isNone && !m.holds path then .ok {}
  else
    let loaded : Except Settings.Failure Settings :=
      match m.read path with
      | .error reason => .error (.unreadable path reason)
      | .ok s => (Settings.read m.environment s).value
    loaded.mapError fun failure =>
      "Failed to load config from " ++ path ++ ": " ++ failure.message

/-- What is quieted while the settings name no filter. -/
def quietDirectives : String := "hyper=warn,h2=warn,tower=info,sqlx=warn"

/-- The log filter, and a complaint if the one in the settings cannot be used.
The environment comes before the settings. -/
def logFilter (env : Settings.Environment) (l : Settings.Logging) : Log.Filter × Option String :=
  let byLevel := Log.Filter.upTo l.level.verbosity
  let base := l.level.name ++ ","
  match env.value? filterVariable with
  | some s => ((Log.Filter.parse? s).getD byLevel, none)
  | none =>
    match l.filter with
    | none => ((Log.Filter.parse? (base ++ quietDirectives)).getD byLevel, none)
    | some s =>
      match Log.Filter.parse? (base ++ s) with
      | some f => (f, none)
      | none => (byLevel, some ("Ignoring invalid log filter '" ++ s ++ "'"))

/-- An event in the format of the settings. -/
def logLine (m : Machine) (l : Settings.Logging) (e : Log.Event) : String :=
  let time := if l.timestamps then some m.now else none
  match l.format with
  | .pretty => e.prettyLine time
  | .compact => e.compactLine time
  | .json => e.jsonLine time

/-! ### Opening the store -/

def importFile (m : Machine) (path : String) (store : Store) :
    Logged (Store × Except Failure Unit) := do
  Logged.tell ⟨.info, "pathgate", "Importing seed file", [("path", .text path)]⟩
  match m.readSeed path with
  | .error failure => return (store, .error failure)
  | .ok seed => store.importSeed seed

/-- Migrates a database and imports a seed file, as far as that is asked for. -/
def prepare (m : Machine) (file : Settings.DatabaseFile) (store : Store) :
    Logged (Store × Except Failure Unit) := do
  let (store, migrated) ← if file.runMigrations then store.migrate else pure (store, .ok ())
  match migrated, file.seedFile with
  | .ok (), some path => importFile m path store
  | done, _ => return (store, done)

/-- Opens a database file. What was done to it is kept even if a later step
fails. -/
def openDatabase (m : Machine) (file : Settings.DatabaseFile) :
    Logged (Machine × Except Failure Store) := do
  match m.openDatabase file with
  | .error failure => return (m, .error failure)
  | .ok d =>
    let (store, prepared) ← prepare m file (.database d)
    return (m.keep file.path store, prepared.map fun _ => store)

def openStore (m : Machine) : Settings.Backend → Logged (Machine × Except Failure Store)
  | .memory none => return (m, .ok (.memory {}))
  | .memory (some path) => do
    Logged.tell ⟨.info, "pathgate::db", "Loading seed file into memory store",
      [("path", .text path)]⟩
    return (m, (m.readSeed path).map .memory)
  | .sqlite file => openDatabase m file

/-- The service with its store open. A failure is logged. -/
def openService (m : Machine) (s : Settings) : Logged (Machine × Option Service) := do
  match ← openStore m s.database with
  | (m, .ok store) =>
    Logged.tell ⟨.info, "pathgate", "Store initialized", [("backend", .quoted store.backend)]⟩
    return (m, some (Service.new s store))
  | (m, .error failure) =>
    Logged.tell ⟨.error, "pathgate", "Failed to initialize store",
      [("error", .text failure.message)]⟩
    return (m, none)

/-! ### Commands -/

/-- Judges one request. Denials and faults have exit codes of their own. -/
def runCheck (service : Service) (principal : Option String) (path : String) : Logged Report := do
  match ← service.guard.evaluate principal path with
  | (_, .error e) => return .failed 2 ("Error: " ++ e.message)
  | (_, .ok v) =>
    return { exit := some (if v.decision.isPermit then 0 else 1)
             output := (Http.verdictValue v).pretty ++ "\n" }

/-- The rules in match order, one a line, and the collisions after them. The
pattern column is as wide as the longest pattern has bytes. -/
def tableText (t : Rules.Table) : String :=
  let width := (t.rules.map (·.pattern.text.utf8ByteSize)).foldl max 0
  let rules := t.rules.map fun r =>
    r.pattern.text ++ String.ofList (List.replicate (width - r.pattern.text.length) ' ') ++ "  " ++
      r.required.render ++ "\n"
  let collisions := t.collisions.map fun c =>
    "collision: " ++ c.pattern ++ " bound to " ++ c.overwritten ++ ", overwritten by " ++
      c.winner ++ "\n"
  String.join (rules ++ collisions)

def runRules (service : Service) : Logged Report := do
  match ← service.guard.rules with
  | (_, .error e) => return .failed 1 ("Error: " ++ e.message)
  | (_, .ok set) => return { exit := some 0, output := tableText set.table }

/-- Loads the rules ahead of the first request. -/
def preload (service : Service) : Logged Bool := do
  match ← service.guard.rules with
  | (_, .error e) =>
    Logged.tell ⟨.error, "pathgate", "Failed to preload resource rules",
      [("error", .text e.message)]⟩
    return false
  | (_, .ok set) =>
    Logged.tell ⟨.info, "pathgate", "Resource rules preloaded",
      [("rules", .count set.table.rules.length),
        ("collisions", .count set.table.collisions.length)]⟩
    return true

def runServe (s : Settings) (service : Service) : Logged Report := do
  let ready ←
    if !s.auth.enforcement.enabled then
      Logged.tell ⟨.warn, "pathgate",
        "Path authorization is disabled; every request will be permitted", []⟩
      pure true
    else if s.auth.enforcement.preload then preload service
    else pure true
  if ready then
    Logged.tell ⟨.info, "pathgate",
      "Server listening on http://" ++ s.server.socketAddress, []⟩
    return { exit := none }
  else return { exit := some 1 }

/-- Migrates the database and imports a seed file: the named one, or else the one
in the settings. -/
def runMigrate (m : Machine) (seed : Option String) :
    Settings.Backend → Logged (Machine × Report)
  | .memory _ => return (m, .failed 1 "Error: migrate requires [database] type = \"sqlite\"")
  | .sqlite file => do
    let file := { file with runMigrations := true, seedFile := seed.or file.seedFile }
    match ← openDatabase m file with
    | (m, .ok _) => return (m, { exit := some 0 })
    | (m, .error failure) => return (m, .failed 1 ("Error: " ++ failure.message))

def withService (m : Machine) (s : Settings) (command : Service → Logged Report) :
    Logged (Machine × Report) := do
  match ← openService m s with
  | (m, none) => return (m, { exit := some 1 })
  | (m, some service) => return (m, ← command service)

def runCommand (m : Machine) (s : Settings) : Command → Logged (Machine × Report)
  | .serve => withService m s (runServe s)
  | .check principal path => withService m s fun service => runCheck service principal path
  | .rules => withService m s runRules
  | .migrate seed => runMigrate m seed s.database

def run (m : Machine) (args : List String) : Machine × Report :=
  match Invocation.ofArguments args with
  | .error e => (m, .failed 2 e.message)
  | .ok .version => (m, { exit := some 0, output := versionText })
  | .ok (.help topic) => (m, { exit := some 0, output := topic.text })
  | .ok (.run command file) =>
    match loadSettings m file with
    | .error message => (m, .failed 1 message)
    | .ok s =>
      let (filter, complaint) := logFilter m.environment s.logging
      let ⟨(after, report), events⟩ := runCommand m s command
      let lines := (events.filter filter.keeps).map (logLine m s.logging)
      (after, { report with
        output := String.join lines ++ report.output
        errors := (complaint.map (· ++ "\n")).getD "" ++ report.errors })

/-! ### What a run needs -/

/-- The text files that a run reads, as far as those known so far tell. -/
def textsRead (m : Machine) (args : List String) : List String :=
  match Invocation.ofArguments args with
  | .ok (.run command named) =>
    let seeds :=
      match loadSettings m named with
      | .ok s => s.database.seedFile.toList
      | .error _ => []
    let more :=
      match command with
      | .migrate seed => seed.toList
      | _ => []
    named.getD defaultSettingsFile :: (seeds ++ more)
  | _ => []

/-- The database file that a run opens, as far as the settings are known. -/
def databaseOpened? (m : Machine) (args : List String) : Option String :=
  match Invocation.ofArguments args with
  | .ok (.run _ named) =>
    match loadSettings m named with
    | .ok { database := .sqlite file, .. } =>
      if file.path = Machine.passingPath then none else some file.path
    | _ => none
  | _ => none

end RouteGuard.CommandLine
