import RouteGuard.Decision
import RouteGuard.Directory.Store
import RouteGuard.Path.Canonical
import RouteGuard.Rules.Cache

/-! # Authorization of requests

A request is judged in a fixed order: the caller's authorities are resolved
first, then the path is brought to canonical form, then the rules are asked. A
fault at any point ends the judgement without a decision. When enforcement is
off everything is permitted and nothing is read.
-/

namespace RouteGuard

open Directory (Failure Store)
open Rules (Cache LoadError)

/-- Why a request could not be permitted. -/
inductive AccessError
  | principalNotFound (username : String)
  | noRolesAssigned (username : String)
  | accessDenied (reason : DenyReason)
  | invalidPath (target : String)
  | rules (e : LoadError)
  | store (failure : Failure)
  deriving DecidableEq, Repr

namespace AccessError

def message : AccessError → String
  | principalNotFound username => "Principal not found: " ++ username
  | noRolesAssigned username => "Principal '" ++ username ++ "' has no roles assigned"
  | accessDenied reason => "Access denied: " ++ reason.message
  | invalidPath target => "Invalid request path: " ++ target
  | rules e => e.message
  | store failure => "Identity store error: " ++ failure.message

/-- Does the error lie with the caller's identity? -/
def isIdentityFault : AccessError → Bool
  | principalNotFound _ => true
  | noRolesAssigned _ => true
  | _ => false

/-- Is it that rules or identities could not be read? -/
def isUnavailable : AccessError → Bool
  | rules _ => true
  | store _ => true
  | _ => false

end AccessError

/-- Which decisions are told to the audit log. -/
structure AuditSettings where
  logAllowed : Bool := false
  logDenied : Bool := true
  deriving DecidableEq, Repr

structure EnforcementSettings where
  enabled : Bool := true
  caseSensitive : Bool := true
  preload : Bool := false
  audit : AuditSettings := {}
  deriving DecidableEq, Repr

/-- The case mode in which patterns are read. -/
def EnforcementSettings.mode (s : EnforcementSettings) : Glob.CaseMode :=
  if s.caseSensitive then .exact else .folded

/-- A judgement with all that it rests on. -/
structure Verdict where
  decision : Decision
  principal : Option String
  path : String
  pattern : Option String
  required : Option AuthoritySet
  granted : AuthoritySet
  deriving DecidableEq

/-- The state that judging depends on and may change: the store is only read,
the cache may be filled. -/
structure Guard where
  settings : EnforcementSettings := {}
  store : Store
  cache : Cache := { mode := settings.mode }

namespace Guard

/-- The authorities granted to a principal. A principal with an empty role
collection has none; one without a collection cannot be judged. -/
def resolve (g : Guard) (username : String) : Except AccessError AuthoritySet :=
  match g.store.find? username with
  | .error failure => .error (.store failure)
  | .ok none => .error (.principalNotFound username)
  | .ok (some p) =>
    match p.roles with
    | none => .error (.noRolesAssigned p.username)
    | some roles => .ok (Directory.grantedBy roles)

/-- The current rules, loaded if need be. -/
def rules (g : Guard) : Logged (Guard × Rules.Outcome) := do
  let (cache, outcome) ← g.cache.rules g.store.list
  return ({ g with cache }, outcome)

def reload (g : Guard) : Logged (Guard × Rules.Outcome) := do
  let (cache, outcome) ← g.cache.reload g.store.list
  return ({ g with cache }, outcome)

def invalidate (g : Guard) : Logged Guard := do
  return { g with cache := ← g.cache.invalidate }

def ruleFor (g : Guard) (path : String) :
    Logged (Guard × Except LoadError (Option Rules.Rule)) := do
  match ← g.rules with
  | (g, .error e) => return (g, .error e)
  | (g, .ok set) => return (g, .ok (set.table.find? path))

/-- The canonical form of a request target and the rule for it. -/
def matchTarget (g : Guard) (target : String) :
    Logged (Guard × Except AccessError (String × Option Rules.Rule)) := do
  match Path.canonical? target with
  | none => return (g, .error (.invalidPath target))
  | some path =>
    match ← g.ruleFor path with
    | (g, .error e) => return (g, .error (.rules e))
    | (g, .ok rule) => return (g, .ok (path, rule))

def verdict (principal : Option String) (granted : AuthoritySet) (path : String)
    (rule : Option Rules.Rule) : Verdict :=
  { decision := decideAccess granted (rule.map (·.required))
    principal
    path
    pattern := rule.map (·.pattern.text)
    required := rule.map (·.required)
    granted }

/-- The verdict while enforcement is off. A target without canonical form is
reported as it was sent. -/
def permissiveVerdict (principal : Option String) (target : String) : Verdict :=
  { decision := .permit
    principal
    path := (Path.canonical? target).getD target
    pattern := none
    required := none
    granted := {} }

/-- Judges a request under enforcement. A caller without identity has no
authorities. -/
def judge (g : Guard) (principal : Option String) (target : String) :
    Logged (Guard × Except AccessError Verdict) := do
  let granted :=
    match principal with
    | some username => g.resolve username
    | none => .ok {}
  match granted with
  | .error e => return (g, .error e)
  | .ok granted =>
    match ← g.matchTarget target with
    | (g, .error e) => return (g, .error e)
    | (g, .ok (path, rule)) => return (g, .ok (verdict principal granted path rule))

/-- The audit events of a judgement: every fault, and the decisions that the
settings ask for. -/
def auditEvents (audit : AuditSettings) (principal : Option String) (target : String) :
    Except AccessError Verdict → List Log.Event
  | .error e =>
    [⟨.warn, "pathgate::audit", "Authorization fault",
      [("principal", .quoted (principal.getD "-")), ("path", .text target),
        ("error", .text e.message)]⟩]
  | .ok v =>
    let head : List (String × Log.Field) :=
      [("principal", .quoted (v.principal.getD "-")), ("path", .text v.path),
        ("pattern", .quoted (v.pattern.getD "-"))]
    match v.decision with
    | .permit =>
      if audit.logAllowed then
        [⟨.info, "pathgate::audit", "Authorization decision",
          head ++ [("decision", .quoted "permit")]⟩]
      else []
    | .deny reason =>
      if audit.logDenied then
        [⟨.warn, "pathgate::audit", "Authorization decision",
          head ++ [("required", .text (v.required.getD {}).render),
            ("granted", .text v.granted.render), ("decision", .quoted "deny"),
            ("reason", .text reason.message)]⟩]
      else []

/-- Judges a request, or permits it while enforcement is off. -/
def evaluate (g : Guard) (principal : Option String) (target : String) :
    Logged (Guard × Except AccessError Verdict) :=
  if g.settings.enabled then
    let judged := g.judge principal target
    ⟨judged.value,
      judged.events ++ auditEvents g.settings.audit principal target judged.value.2⟩
  else return (g, .ok (permissiveVerdict principal target))

/-- Like `evaluate`, with a denial as an error. -/
def require (g : Guard) (principal : Option String) (target : String) :
    Logged (Guard × Except AccessError Verdict) := do
  match ← g.evaluate principal target with
  | (g, .ok v) =>
    match v.decision with
    | .permit => return (g, .ok v)
    | .deny reason => return (g, .error (.accessDenied reason))
  | failed => return failed

end Guard

end RouteGuard
