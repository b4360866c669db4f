import RouteGuard.Http.MediaType
import RouteGuard.Http.Response
import RouteGuard.Json.Form
import RouteGuard.Settings.Basic

/-! # The HTTP service

A request is routed by its raw path. The public resources are open to everyone.
The administrative resources, and every path without a resource, are guarded:
the caller must be permitted on the path of the request before anything else is
looked at, the method included. The service only ever changes its records in
the two administrative writes, and each of them invalidates the rules.

The body of a request is a text here. Bytes that are not UTF-8 are outside the
model: the one resource that reads its body refuses them like any other form
that cannot be read.
-/

namespace RouteGuard.Http

open Directory (Authority)
open Json (Value)

structure Request where
  method : String := "GET"
  /-- the raw path, still percent-encoded and without the query -/
  path : String
  headers : List Header := []
  /-- the body, which is read as UTF-8 -/
  body : String := ""
  deriving DecidableEq, Repr

/-- The raw path in a request target. A target with a scheme has its path after
the authority, the root if nothing follows; an authority alone has none. -/
def pathOfTarget (target : String) : String :=
  let cs := Path.pathPart target.toList
  if cs.head? = some '/' || cs = ['*'] then String.ofList cs
  else
    match cs.dropWhile (· != ':') with
    | ':' :: '/' :: '/' :: rest =>
      let path := rest.dropWhile (· != '/')
      if path = [] then "/" else String.ofList path
    | _ => ""

inductive Resource
  | health
  | liveness
  | check
  | ruleList
  | ruleReload
  | authorities
  /-- one authority, by its raw path segment -/
  | authority (segment : String)
  deriving DecidableEq, Repr

namespace Resource

/-- The resource at a raw path. No segment may be missing or empty. -/
def at? (path : String) : Option Resource :=
  match (Path.segments path.toList).map String.ofList with
  | ["", "health"] => some health
  | ["", "health", "live"] => some liveness
  | ["", "authz", "check"] => some check
  | ["", "admin", "authz", "rules"] => some ruleList
  | ["", "admin", "authz", "reload"] => some ruleReload
  | ["", "admin", "authorities"] => some authorities
  | ["", "admin", "authorities", segment] =>
    if segment.isEmpty then none else some (authority segment)
  | _ => none

def isGuarded : Resource → Bool
  | health | liveness | check => false
  | _ => true

def method : Resource → String
  | health | liveness | check | ruleList => "GET"
  | ruleReload | authorities => "POST"
  | authority _ => "DELETE"

/-- A resource that can be got can be asked for its head. -/
def hasMethod (r : Resource) (method : String) : Bool :=
  method == r.method || (r.method == "GET" && method == "HEAD")

def allowed (r : Resource) : String := if r.method == "GET" then "GET,HEAD" else r.method

end Resource

structure Service where
  settings : Settings
  guard : Guard

namespace Service

def new (settings : Settings) (store : Directory.Store) : Service :=
  { settings, guard := { settings := settings.auth.enforcement, store } }

/-- Judges a caller for a target. A caller without identity is turned away
unless such callers are allowed. -/
def authorize (s : Service) (caller : Option String) (target : String) :
    Logged (Service × Except Refusal Verdict) := do
  if caller.isNone && !s.settings.auth.allowAnonymous then
    Logged.tell ⟨.debug, "pathgate::middleware::authz", "Rejecting request without identity",
      [("path", .quoted target)]⟩
    return (s, .error .unauthenticated)
  let (guard, result) ← s.guard.require caller target
  return ({ s with guard }, result.mapError .denied)

/-- The caller that the configured header names. -/
def caller (s : Service) (headers : List Header) : Logged (Option String) :=
  identity headers s.settings.auth.identityHeader

/-- Lets a request pass if its caller is permitted on its own path. -/
def letPass (s : Service) (r : Request) : Logged (Service × Except Refusal Verdict) := do
  s.authorize (← s.caller r.headers) r.path

/-! ### Handlers -/

def showHealth (s : Service) : Response :=
  let health := s.guard.store.health
  let healthy := health.isOk
  let message : List (String × Value) :=
    match health with
    | .ok () => []
    | .error failure => [("message", .text failure.message)]
  .json (if healthy then 200 else 503) (.object
    [("status", .text (if healthy then "healthy" else "unhealthy")),
      ("version", .text "0.1.0"),
      ("authz_enabled", .bool s.guard.settings.enabled),
      ("database", .object ([("backend", Value.text s.guard.store.backend),
        ("healthy", .bool healthy)] ++ message ++ [("latency_ms", .nat 0)])),
      ("registry", statusValue s.guard.cache.status)])

def check (s : Service) (r : Request) : Logged (Service × Response) := do
  match ← s.authorize (← s.caller r.headers) (forwardedTarget r.headers) with
  | (s, .ok v) => return (s, .json 200 (verdictValue v))
  | (s, .error refusal) => return (s, refusal.response)

def listRules (s : Service) : Logged (Service × Response) := do
  match ← s.guard.rules with
  | (guard, .ok set) => return ({ s with guard }, .json 200 (tableValue set.table))
  | (guard, .error e) => return ({ s with guard }, (← AdminError.ofLoadError e).response)

def reloadRules (s : Service) : Logged (Service × Response) := do
  match ← s.guard.reload with
  | (guard, .ok set) =>
    Logged.tell ⟨.info, "pathgate::routes::admin", "Resource rules reloaded by admin request",
      [("rules", .count set.table.rules.length)]⟩
    return ({ s with guard }, .json 200 (tableValue set.table))
  | (guard, .error e) => return ({ s with guard }, (← AdminError.ofLoadError e).response)

/-- The authority to create, trimmed, if its pattern can be read in the mode
that the rules are read in. -/
def authorityOf (s : Service) (name url : String) : Except AdminError Authority := do
  if Text.isBlankText name then throw (.invalid "Authority name cannot be empty")
  if Text.isBlankText url then throw (.invalid "Authority url cannot be empty")
  let a : Authority := ⟨Text.trim name, Text.trim url⟩
  match Pattern.compile s.settings.auth.enforcement.mode a.url with
  | .error e => throw (.invalid e.message)
  | .ok _ => return a

def createAuthority (s : Service) (name url : String) : Logged (Service × Response) := do
  match s.authorityOf name url with
  | .error e => return (s, e.response)
  | .ok a =>
    match s.guard.store.create a with
    | .error failure => return (s, (← AdminError.ofFailure failure).response)
    | .ok store =>
      let guard ← { s.guard with store }.invalidate
      return ({ s with guard },
        .json 201 (.object [("name", .text a.name), ("url", .text a.url)]))

/-- Deletes an authority with its grants and then invalidates the rules. -/
def deleteAuthority (s : Service) (name : String) : Logged (Service × Response) := do
  match s.guard.store.delete name with
  | .error failure => return (s, (← AdminError.ofFailure failure).response)
  | .ok store =>
    let guard ← { s.guard with store }.invalidate
    return ({ s with guard }, { status := 204 })

/-! ### Requests -/

/-- A declared body length. A plus sign may stand before the digits. -/
def declaredLength? (headers : List Header) : Option Nat := do
  let value ← textOf? (← firstValue? headers "content-length")
  let digits := if value.toList.head? = some '+' then value.toList.tail else value.toList
  if digits ≠ [] && digits.all Char.isDigit then
    let n := digits.foldl (fun n c => n * 10 + (c.toNat - 48)) 0
    if n < Nat.pow 2 64 then some n else none
  else none

/-- No body is longer than this, whatever the settings allow. -/
def largestBody : Nat := 2097152

/-- The two texts of a request to create an authority, or the refusal to read
it. The type is looked at first, then the length, then the text. -/
def formOf (s : Service) (r : Request) : Except Response (String × String) :=
  let length := r.body.utf8ByteSize
  let limit := min s.settings.server.bodyLimit ((declaredLength? r.headers).getD largestBody)
  let declared := ((firstValue? r.headers "content-type").bind textOf?).bind MediaType.ofText?
  if !declared.any MediaType.isJson then .error { status := 415 }
  else if limit < length || largestBody < length then .error { status := 413 }
  else
    match Json.readForm ["name", "url"] r.body with
    | .error .malformed => .error { status := 400 }
    | .error .wrongShape => .error { status := 422 }
    | .ok fields =>
      .ok ((fields.lookup "name").getD "", (fields.lookup "url").getD "")

/-- Answers a request that has passed the guard and has the right method. -/
def serve (s : Service) (r : Request) : Resource → Logged (Service × Response)
  | .health => return (s, s.showHealth)
  | .liveness => return (s, { status := 200 })
  | .check => s.check r
  | .ruleList => s.listRules
  | .ruleReload => s.reloadRules
  | .authorities =>
    match s.formOf r with
    | .error response => return (s, response)
    | .ok (name, url) => s.createAuthority name url
  | .authority segment =>
    match Text.decode? (Path.percentDecode (Text.bytes segment)) with
    | none => return (s, { status := 400 })
    | some name => s.deleteAuthority (String.ofList name)

/-- Answers a request that has passed the guard, or needs not pass it. -/
def serveMethod (s : Service) (r : Request) (resource : Resource) :
    Logged (Service × Response) :=
  if resource.hasMethod r.method then s.serve r resource
  else return (s, { status := 405 })

/-- Answers a request by its resource, guarded where the resource is. -/
def dispatch (s : Service) (r : Request) : Logged (Service × Response) := do
  match Resource.at? r.path with
  | some resource =>
    if resource.isGuarded then
      match ← s.letPass r with
      | (s, .error refusal) => return (s, refusal.response)
      | (s, .ok _) => s.serveMethod r resource
    else s.serveMethod r resource
  | none =>
    match ← s.letPass r with
    | (s, .error refusal) => return (s, refusal.response)
    | (s, .ok _) => return (s, { status := 404 })

def answer (s : Service) (r : Request) : Logged (Service × Response) :=
  if (declaredLength? r.headers).any (s.settings.server.bodyLimit < ·) then
    return (s, { status := 413 })
  else s.dispatch r

/-- The methods that a request is told of: those of its resource, if its own is
not among them. -/
def methodsFor (r : Request) : Option String :=
  (Resource.at? r.path).bind fun resource =>
    if resource.hasMethod r.method then none else some resource.allowed

/-- Answers a request. Whoever asks with a wrong method is told the right ones,
whatever the answer is, and nothing is sent after the head of a `HEAD` request. -/
def handle (s : Service) (r : Request) : Logged (Service × Response) := do
  let (s, response) ← s.answer r
  let response := { response with allow := methodsFor r }
  return (s, if r.method == "HEAD" then response.withoutBody else response)

end Service

end RouteGuard.Http
