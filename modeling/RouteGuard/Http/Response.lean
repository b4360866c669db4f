import RouteGuard.Authorizer
import RouteGuard.Json.Value

/-! # Responses

A response has a status and, mostly, a JSON body. Faults are reported in one
form: a class, a code for programs and a message for people.
-/

namespace RouteGuard.Http

open Json (Value)

structure Response where
  status : Nat
  /-- is the body declared to be JSON? -/
  isJson : Bool := false
  /-- the JSON body; `none` if there is none or it is withheld -/
  body : Option Value := none
  /-- the methods that the resource has, when another one was asked for -/
  allow : Option String := none
  deriving Repr

namespace Response

def json (status : Nat) (v : Value) : Response := { status, isJson := true, body := some v }

def fault (status : Nat) (kind code message : String) : Response :=
  json status (.object [("error", .object
    [("type", .text kind), ("message", .text message), ("code", .text code)])])

/-- The response without its body, as a `HEAD` request gets it. -/
def withoutBody (r : Response) : Response := { r with body := none }

end Response

inductive Refusal
  | unauthenticated
  | denied (e : AccessError)
  deriving DecidableEq, Repr

/-- The response to a refused request. What could not be read is not disclosed. -/
def Refusal.response : Refusal → Response
  | unauthenticated =>
    .fault 401 "authentication_error" "unauthenticated" "Authentication required"
  | denied e =>
    match e with
    | .principalNotFound username =>
      .fault 401 "authentication_error" "principal_not_found"
        ("Unknown principal '" ++ username ++ "'")
    | .noRolesAssigned username =>
      .fault 401 "authentication_error" "no_roles_assigned"
        ("Principal '" ++ username ++ "' has no roles assigned")
    | .accessDenied reason =>
      .fault 403 "permission_error" "access_denied" ("Access denied: " ++ reason.message)
    | .invalidPath target =>
      .fault 400 "invalid_request_error" "invalid_path" ("Invalid request path: " ++ target)
    | .rules _ | .store _ =>
      .fault 503 "server_error" "authorization_unavailable"
        "Authorization is temporarily unavailable"

/-- Why an administrative request failed after it was let through. -/
inductive AdminError
  | notFound (message : String)
  | conflict (message : String)
  | invalid (message : String)
  | unavailable (message : String)
  | internal
  deriving DecidableEq, Repr

namespace AdminError

/-- Faults of the request are passed on; other store failures are logged and
kept from the caller. -/
def ofFailure (failure : Directory.Failure) : Logged AdminError :=
  match failure with
  | .notFound => return .notFound "Resource not found"
  | .conflict detail => return .conflict detail
  | .invalid detail => return .invalid detail
  | _ => do
    Logged.tell ⟨.error, "pathgate::routes::error", "Store error",
      [("error", .text failure.message)]⟩
    return .internal

def ofLoadError (e : Rules.LoadError) : Logged AdminError := do
  Logged.tell ⟨.error, "pathgate::routes::error", "Resource rule load failed",
    [("error", .text e.message)]⟩
  return .unavailable e.message

def response : AdminError → Response
  | notFound message => .fault 404 "invalid_request_error" "not_found" message
  | conflict message => .fault 409 "invalid_request_error" "conflict" message
  | invalid message => .fault 400 "invalid_request_error" "validation_error" message
  | unavailable message => .fault 503 "server_error" "rules_unavailable" message
  | internal => .fault 500 "server_error" "internal_error" "An internal error occurred"

end AdminError

/-- A verdict as a JSON value. A reason is present only in a denial. -/
def verdictValue (v : Verdict) : Value :=
  .object ([("decision", Value.text v.decision.code)]
    ++ (v.decision.reason?.map fun r => ("reason", Value.text r.code)).toList
    ++ [("principal", .optText v.principal), ("path", .text v.path),
      ("matched_pattern", .optText v.pattern),
      ("required", (v.required.map fun s => Value.texts s.names).getD .null),
      ("granted", .texts v.granted.names)])

/-- The time at which rules were loaded. Time is no part of the state, so a
fixed word stands for it. -/
def someTime : Value := .text "<time>"

/-- The rules in match order with the collisions met in loading. -/
def tableValue (t : Rules.Table) : Value :=
  .object [("loaded_at", someTime),
    ("rules", .list (t.rules.map fun r =>
      .object [("pattern", .text r.pattern.text), ("required", .texts r.required.names)])),
    ("collisions", .list (t.collisions.map fun c =>
      .object [("pattern", .text c.pattern), ("overwritten", .text c.overwritten),
        ("winner", .text c.winner)]))]

def statusValue (s : Rules.Cache.Status) : Value :=
  .object [("loaded", .bool s.loaded), ("loading", .bool s.loading),
    ("rule_count", (s.ruleCount.map Value.nat).getD .null),
    ("collision_count", (s.collisionCount.map Value.nat).getD .null),
    ("loaded_at", if s.loaded then someTime else .null)]

end RouteGuard.Http
