import RouteGuard.Http.Header
import RouteGuard.Settings.Basic
import RouteGuard.Settings.Environment
import RouteGuard.Toml.Reader
import RouteGuard.Toml.Shape

/-! # Reading settings

Settings are read in three steps, and the first that fails is reported: values
from the environment are put in, the text is read as a document with no other
keys than the known ones, and the values are checked.
-/

namespace RouteGuard.Settings

open Toml (Value Fields optional?)

inductive Invalid
  | portZero
  | bodyLimitZero
  | emptyPath
  | noConnections
  | emptyHeader
  | badHeader (name : String)
  deriving DecidableEq, Repr

def Invalid.message : Invalid → String
  | portZero => "Server port cannot be 0"
  | bodyLimitZero => "Server body_limit_bytes cannot be 0"
  | emptyPath => "SQLite path cannot be empty"
  | noConnections => "SQLite max_connections must be at least 1"
  | emptyHeader => "Identity header cannot be empty"
  | badHeader name => "Identity header '" ++ name ++ "' is not a valid header name"

inductive Failure
  | unreadable (path reason : String)
  | malformed (detail : String)
  | unset (name : String)
  | invalid (fault : Invalid)
  deriving DecidableEq, Repr

def Failure.message : Failure → String
  | unreadable path reason => "Failed to read config file " ++ path ++ ": " ++ reason
  | malformed detail => "Failed to parse config: " ++ detail
  | unset name => "Environment variable not found: " ++ name
  | invalid fault => "Configuration validation error: " ++ fault.message

/-! ### From a document -/

/-- The largest number that a document can spell. -/
def maxInteger : Nat := Nat.pow 2 63 - 1

def Server.ofToml? (v : Value) : Option Server := do
  let d : Server := {}
  match ← (← Fields.of? v).exactly? ["host", "port", "body_limit_bytes"] with
  | [host, port, limit] =>
    return {
      host := ← optional? d.host (fun v => v.text?.bind Net.Address.parse?) host
      port := ← optional? d.port (Value.nat? 65535) port
      bodyLimit := ← optional? d.bodyLimit (Value.nat? maxInteger) limit }
  | _ => none

def optionalText? : Option Value → Option (Option String) :=
  optional? none fun v => v.text?.map some

def DatabaseFile.ofFields? : List (Option Value) → Option DatabaseFile
  | [some path, create, migrations, wal, timeout, connections, seedFile] => do
    let path ← path.text?
    let d : DatabaseFile := { path }
    return {
      path
      createIfMissing := ← optional? d.createIfMissing Value.bool? create
      runMigrations := ← optional? d.runMigrations Value.bool? migrations
      walMode := ← optional? d.walMode Value.bool? wal
      busyTimeoutMs := ← optional? d.busyTimeoutMs (Value.nat? maxInteger) timeout
      maxConnections := ← optional? d.maxConnections (Value.nat? (Nat.pow 2 32 - 1)) connections
      seedFile := ← optionalText? seedFile }
  | _ => none

/-- The fields of a record that starts with its type: the type, and the rest. -/
def typed? : Value → Option (Value × Fields)
  | .table _ entries => do
    let type ← entries.lookup "type"
    return (type, .byName (entries.filter fun e => e.1 != "type"))
  | v => do
    match ← v.items? with
    | type :: items => return (type, .byPlace items)
    | [] => none

/-- All fields of a typed record, where no more are given than it has. -/
def onlyFields? (names : List String) (fields : Fields) : Option (List (Option Value)) :=
  match fields with
  | .byPlace items => if names.length < items.length then none else fields.exactly? names
  | .byName _ => fields.exactly? names

def Backend.ofToml? (v : Value) : Option Backend := do
  let (type, fields) ← typed? v
  match ← type.text? with
  | "memory" =>
    match ← onlyFields? ["seed_file"] fields with
    | [seedFile] => return .memory (← optionalText? seedFile)
    | _ => none
  | "sqlite" =>
    return .sqlite (← DatabaseFile.ofFields? (← onlyFields?
      ["path", "create_if_missing", "run_migrations", "wal_mode", "busy_timeout_ms",
        "max_connections", "seed_file"] fields))
  | _ => none

def auditOfToml? (v : Value) : Option AuditSettings := do
  let d : AuditSettings := {}
  match ← (← Fields.of? v).exactly? ["log_allowed", "log_denied"] with
  | [allowed, denied] =>
    return ⟨← optional? d.logAllowed Value.bool? allowed,
      ← optional? d.logDenied Value.bool? denied⟩
  | _ => none

def enforcementOfToml? (v : Value) : Option EnforcementSettings := do
  let d : EnforcementSettings := {}
  match ← (← Fields.of? v).exactly? ["enabled", "case_sensitive", "preload", "audit"] with
  | [enabled, caseSensitive, preload, audit] =>
    return {
      enabled := ← optional? d.enabled Value.bool? enabled
      caseSensitive := ← optional? d.caseSensitive Value.bool? caseSensitive
      preload := ← optional? d.preload Value.bool? preload
      audit := ← optional? d.audit auditOfToml? audit }
  | _ => none

def Auth.ofToml? (v : Value) : Option Auth := do
  let d : Auth := {}
  match ← (← Fields.of? v).exactly? ["identity_header", "allow_anonymous", "authz"] with
  | [header, anonymous, authz] =>
    return {
      identityHeader := ← optional? d.identityHeader Value.text? header
      allowAnonymous := ← optional? d.allowAnonymous Value.bool? anonymous
      enforcement := ← optional? d.enforcement enforcementOfToml? authz }
  | _ => none

def levelWords : List (String × Log.Level) :=
  [("trace", .trace), ("debug", .debug), ("info", .info), ("warn", .warn), ("error", .error)]

def formatWords : List (String × LogFormat) :=
  [("pretty", .pretty), ("compact", .compact), ("json", .json)]

def Logging.ofToml? (v : Value) : Option Logging := do
  let d : Logging := {}
  match ← (← Fields.of? v).exactly? ["level", "format", "timestamps", "file_line", "filter"] with
  | [level, format, timestamps, fileLine, filter] =>
    return {
      level := ← optional? d.level (Value.word? levelWords) level
      format := ← optional? d.format (Value.word? formatWords) format
      timestamps := ← optional? d.timestamps Value.bool? timestamps
      fileLine := ← optional? d.fileLine Value.bool? fileLine
      filter := ← optionalText? filter }
  | _ => none

/-- The section on what can be observed holds the logging settings alone. -/
def loggingSection? (v : Value) : Option Logging := do
  match ← (← Fields.of? v).exactly? ["logging"] with
  | [logging] => optional? {} Logging.ofToml? logging
  | _ => none

def ofToml? (entries : Toml.Entries) : Option Settings := do
  match ← (Fields.byName entries).exactly? ["server", "database", "auth", "observability"] with
  | [server, database, auth, observability] =>
    return {
      server := ← optional? {} Server.ofToml? server
      database := ← optional? (.memory none) Backend.ofToml? database
      auth := ← optional? {} Auth.ofToml? auth
      logging := ← optional? {} loggingSection? observability }
  | _ => none

/-! ### Checks -/

/-- The first fault of the values: server before database before identity. -/
def invalid? (s : Settings) : Option Invalid :=
  if s.server.port = 0 then some .portZero
  else if s.server.bodyLimit = 0 then some .bodyLimitZero
  else
    let database : Option Invalid :=
      match s.database with
      | .memory _ => none
      | .sqlite file =>
        if file.path.isEmpty then some .emptyPath
        else if file.maxConnections = 0 then some .noConnections
        else none
    database.or <|
      if Text.isBlankText s.auth.identityHeader then some .emptyHeader
      else if Http.isHeaderName s.auth.identityHeader then none
      else some (.badHeader s.auth.identityHeader)

/-- Settings whose values are in order. A host that can be reached from
elsewhere is warned of. -/
def checked (s : Settings) : Logged (Except Failure Settings) := do
  match s.invalid? with
  | some fault => return .error (.invalid fault)
  | none =>
    unless s.server.host.isLoopback do
      Logged.tell ⟨.warn, "pathgate::config",
        "Server binds to a non-localhost address. The identity header is trusted as-is, " ++
          "so only expose this service behind a proxy that sets it.",
        [("header", .text s.auth.identityHeader)]⟩
    return .ok s

def read (env : Environment) (s : String) : Logged (Except Failure Settings) :=
  match expand env s with
  | .error missing => pure (.error (.unset missing.name))
  | .ok s =>
    match (Toml.read? s).bind ofToml? with
    | none => pure (.error (.malformed "the text does not spell settings"))
    | some settings => settings.checked

end RouteGuard.Settings
