import RouteGuard.Authorizer
import RouteGuard.Net.Address

/-! # Settings

What can be set, with the values that hold when nothing is said.
-/

namespace RouteGuard.Settings

structure Server where
  host : Net.Address := .v4 127 0 0 1
  port : Nat := 8080
  bodyLimit : Nat := 65536
  deriving DecidableEq, Repr

def Server.socketAddress (s : Server) : String := s.host.renderWithPort s.port

structure DatabaseFile where
  path : String
  createIfMissing : Bool := true
  runMigrations : Bool := true
  walMode : Bool := true
  busyTimeoutMs : Nat := 5000
  maxConnections : Nat := 5
  seedFile : Option String := none
  deriving DecidableEq, Repr

inductive Backend
  | memory (seedFile : Option String)
  | sqlite (file : DatabaseFile)
  deriving DecidableEq, Repr

def Backend.seedFile : Backend → Option String
  | memory seedFile => seedFile
  | sqlite file => file.seedFile

structure Auth where
  identityHeader : String := "x-authenticated-user"
  allowAnonymous : Bool := false
  enforcement : EnforcementSettings := {}
  deriving DecidableEq, Repr

inductive LogFormat
  | pretty
  | compact
  | json
  deriving DecidableEq, Repr

structure Logging where
  level : Log.Level := .info
  format : LogFormat := .compact
  timestamps : Bool := true
  fileLine : Bool := false
  filter : Option String := none
  deriving DecidableEq, Repr

end RouteGuard.Settings

namespace RouteGuard

structure Settings where
  server : Settings.Server := {}
  database : Settings.Backend := .memory none
  auth : Settings.Auth := {}
  logging : Settings.Logging := {}
  deriving DecidableEq, Repr

end RouteGuard
