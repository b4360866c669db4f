import RouteGuard.Proofs.Authorities
import RouteGuard.Proofs.Http.Guarded
import RouteGuard.Proofs.Path.Canonical
import RouteGuard.Proofs.Rules.Choice

/-! # The answer to a check

A check is answered by the first of a row of conditions that applies. They are
stated on the settings, the stored records and the headers alone, without the
guard, the cache or the sorted table, and the service is shown to answer so.
-/

namespace RouteGuard.Http

open Directory (Authority Store Grants)
open Rules (Cache Chosen Claim claimsOf)

/-- A check, with all that its answer rests on. -/
structure Inquiry where
  settings : Settings
  store : Store
  /-- the authority records of the store -/
  records : List Authority
  headers : List Header
  body : String := ""

namespace Inquiry

variable (q : Inquiry)

def request : Request :=
  { method := "GET", path := "/authz/check", headers := q.headers, body := q.body }

def service (cache : Cache) : Service where
  settings := q.settings
  guard := { settings := q.settings.auth.enforcement, store := q.store, cache }

def answer (cache : Cache) : Response := ((q.service cache).handle q.request).value.2

def mode : Glob.CaseMode := q.settings.auth.enforcement.mode

/-- The cache holds nothing, or what the records come to. -/
def Current (cache : Cache) : Prop :=
  cache.mode = q.mode ∧ (cache.phase = .unloaded ∨
    ∃ set, cache.phase = .loaded set ∧ Rules.Table.build q.mode q.records = .ok set.table)

/-! ### The conditions -/

/-- The trimmed first value of the identity header, if it is text and not blank. -/
def principal : Option String :=
  ((firstValue? q.headers q.settings.auth.identityHeader).bind textOf?).bind fun text =>
    if Text.isBlankText text then none else some (Text.trim text)

def target : String := forwardedTarget q.headers

/-- The body is declared to be longer than the settings allow. -/
def TooLong : Prop :=
  ∃ length, Service.declaredLength? q.headers = some length ∧ q.settings.server.bodyLimit < length

def Unidentified : Prop := q.principal = none ∧ q.settings.auth.allowAnonymous = false

/-- The store does not have the principal, or no role collection is assigned. -/
def Unresolved : Prop :=
  ∃ username, q.principal = some username ∧
    (q.store.find? username = .ok none ∨
      ∃ p, q.store.find? username = .ok (some p) ∧ p.roles = none)

/-- The target does not spell a text. -/
def Undecodable : Prop := Path.decoded? q.target.toList = none

/-- The pattern of some claim cannot be read. -/
def Unreadable : Prop :=
  ∃ c ∈ claimsOf q.mode q.records, ∀ p, Pattern.compile q.mode c.text ≠ .ok p

/-- A role of the principal grants the authority of this name. -/
def Holds (name : String) : Prop :=
  ∃ username p roles, q.principal = some username ∧ q.store.find? username = .ok (some p) ∧
    p.roles = some roles ∧ Grants roles name

/-- The principal lacks the authority of the claim that is chosen for the path. -/
def Denied : Prop :=
  ∃ path c p, Path.canonical? q.target = some path ∧ Chosen q.mode q.records path c p ∧
    ¬ q.Holds c.owner

open Classical in
/-- The first of the conditions that applies. -/
noncomputable def judgedStatus : Nat :=
  if q.Unidentified then 401
  else if q.settings.auth.enforcement.enabled = false then 200
  else if q.Unresolved then 401
  else if q.Undecodable then 400
  else if q.Unreadable then 503
  else if q.Denied then 403
  else 200

open Classical in
noncomputable def status : Nat := if q.TooLong then 413 else q.judgedStatus

/-- A verdict tells who is permitted where, by which rule, and what is granted. -/
structure Reports (v : Verdict) : Prop where
  decision : v.decision = .permit
  principal : v.principal = q.principal
  permissive : q.settings.auth.enforcement.enabled = false →
    v.path = (Path.canonical? q.target).getD q.target ∧ v.pattern = none ∧ v.required = none ∧
      v.granted.names = []
  path : q.settings.auth.enforcement.enabled = true → Path.canonical? q.target = some v.path
  granted : q.settings.auth.enforcement.enabled = true →
    ∀ name, name ∈ v.granted.names ↔ q.Holds name
  rule : q.settings.auth.enforcement.enabled = true →
    (v.pattern = none ∧ v.required = none ∧
      ∀ c ∈ claimsOf q.mode q.records, ∀ p, ¬ c.Covers q.mode p v.path) ∨
    ∃ c p required, Chosen q.mode q.records v.path c p ∧ v.pattern = some c.text ∧
      v.required = some required ∧ required.names = [c.owner] ∧ q.Holds c.owner

variable {q : Inquiry} {cache : Cache}

/-! ### What the conditions mean to the guard -/

theorem caller_service (q : Inquiry) (cache : Cache) :
    ((q.service cache).caller q.headers).value = q.principal := by
  change (identity q.headers q.settings.auth.identityHeader).value = q.principal
  unfold identity principal
  cases firstValue? q.headers q.settings.auth.identityHeader with
  | none => rfl
  | some value =>
      cases htext : textOf? value with
      | none => simp [htext]
      | some text => simp [htext]

/-- The identity header is looked for among the headers in their order. -/
theorem principal_of_first {text : String} {rest : List Header}
    (hheaders : q.headers = ⟨q.settings.auth.identityHeader, text⟩ :: rest)
    (htext : textOf? text = some text) (hnamed : Text.isBlankText text = false) :
    q.principal = some (Text.trim text) := by
  have hfirst : firstValue? q.headers q.settings.auth.identityHeader = some text := by
    simp [hheaders, firstValue?]
  simp [principal, hfirst, htext, hnamed]

/-- A store that lists its records answers for principals too. -/
theorem exists_find? (hlist : q.store.list = .ok q.records) (username : String) :
    ∃ found, q.store.find? username = .ok found := by
  cases hstore : q.store with
  | memory s => exact ⟨_, rfl⟩
  | database d =>
      rw [hstore] at hlist
      simp only [Store.list, Store.find?, Directory.Database.opened] at hlist ⊢
      cases hclosed : d.closed with
      | true => simp [hclosed, Except.map] at hlist
      | false =>
          cases htables : d.tables with
          | none => simp [hclosed, htables, Except.map] at hlist
          | some tables => simp [Except.map]

theorem undecodable_iff : q.Undecodable ↔ Path.canonical? q.target = none := by
  rw [Undecodable, Path.canonical?_eq, Option.map_eq_none_iff]

/-- Either the principal cannot be resolved, or what it is granted is what it holds. -/
theorem grantedTo_cases (hlist : q.store.list = .ok q.records) :
    (q.Unresolved ∧ ∃ e, (q.service cache).guard.grantedTo q.principal = .error e ∧
        (Refusal.denied e).response.status = 401) ∨
      (¬ q.Unresolved ∧ ∃ granted,
        (q.service cache).guard.grantedTo q.principal = .ok granted ∧
          ∀ name, name ∈ granted.names ↔ q.Holds name) := by
  cases hprincipal : q.principal with
  | none =>
      right
      refine ⟨?_, {}, rfl, ?_⟩
      · rintro ⟨username, hsome, _⟩
        simp [hprincipal] at hsome
      · intro name
        simp [Holds, hprincipal]
  | some username =>
      obtain ⟨found, hfind⟩ := exists_find? hlist username
      have hresolve : (q.service cache).guard.grantedTo (some username) =
          (q.service cache).guard.resolve username := rfl
      have hstore : (q.service cache).guard.store = q.store := rfl
      rw [hresolve, Guard.resolve, hstore, hfind]
      cases found with
      | none =>
          exact Or.inl ⟨⟨username, hprincipal, Or.inl hfind⟩, .principalNotFound username, rfl, rfl⟩
      | some p =>
          cases hroles : p.roles with
          | none =>
              exact Or.inl ⟨⟨username, hprincipal, Or.inr ⟨p, hfind, hroles⟩⟩,
                .noRolesAssigned p.username, by simp [hroles], rfl⟩
          | some roles =>
              right
              refine ⟨?_, Directory.grantedBy roles, by simp [hroles], ?_⟩
              · rintro ⟨other, hother, hnone | ⟨p', hp, hunset⟩⟩
                · simp_all
                · simp_all
              · intro name
                rw [Directory.mem_grantedBy]
                constructor
                · intro hgrants
                  exact ⟨username, p, roles, hprincipal, hfind, hroles, hgrants⟩
                · rintro ⟨other, p', roles', hother, hp, hroles', hgrants⟩
                  simp_all

/-- Either the stored patterns cannot be read, or the current rules are made of them. -/
theorem currentRules_cases (hlist : q.store.list = .ok q.records) (hcurrent : q.Current cache) :
    (q.Unreadable ∧ ∃ e, (q.service cache).guard.currentRules = .error e) ∨
      (¬ q.Unreadable ∧ ∃ set, (q.service cache).guard.currentRules = .ok set ∧
        Rules.Table.build q.mode q.records = .ok set.table) := by
  have hreadable : ∀ t, Rules.Table.build q.mode q.records = .ok t → ¬ q.Unreadable := by
    rintro t hbuild ⟨c, hc, hnone⟩
    obtain ⟨p, hp⟩ := Rules.exists_build_iff.mp ⟨t, hbuild⟩ c hc
    exact hnone p hp
  obtain ⟨hmode, hunloaded | ⟨set, hloaded, hbuild⟩⟩ := hcurrent
  · have hguard : (q.service cache).guard.currentRules =
        Cache.outcomeOf q.mode (cache.attempt + 1) (.ok q.records) := by
      rw [Guard.currentRules_of_unloaded _ hunloaded, ← hlist, ← hmode]
      rfl
    rw [hguard, Cache.outcomeOf]
    cases hbuild : Rules.Table.build q.mode q.records with
    | error e =>
        -- a table that cannot be made is the fault of some pattern
        refine Or.inl ⟨?_, e, rfl⟩
        by_contra hall
        have hexists := (@Rules.exists_build_iff q.mode q.records).mpr
          (by simpa [Unreadable] using hall)
        simp [hbuild] at hexists
    | ok t => exact Or.inr ⟨hreadable t hbuild, ⟨cache.attempt + 1, t⟩, rfl, rfl⟩
  · exact Or.inr ⟨hreadable _ hbuild, set, Guard.currentRules_of_loaded _ hloaded, hbuild⟩

/-! ### The judgement -/

def statusOf : Except Refusal Verdict → Nat
  | .ok _ => 200
  | .error refusal => refusal.response.status

def judged (q : Inquiry) (cache : Cache) : Except Refusal Verdict :=
  ((q.service cache).authorize q.principal q.target).value.2

/-- Without a required identity nothing is judged. -/
theorem judged_of_unidentified (hunidentified : q.Unidentified) :
    q.judged cache = .error .unauthenticated := by
  obtain ⟨hnone, hclosed⟩ := hunidentified
  have hsettings : (q.service cache).settings.auth.allowAnonymous = false := hclosed
  rw [judged, Service.outcome_authorize, hnone, hsettings]
  rfl

/-- With one, the guard judges. -/
theorem judged_of_identified (hidentified : ¬ q.Unidentified) :
    q.judged cache =
      (((q.service cache).guard.require q.principal q.target).value.2).mapError .denied := by
  have hsettings : (q.service cache).settings = q.settings := rfl
  rw [judged, Service.outcome_authorize, hsettings]
  rw [if_neg]
  simpa [Unidentified] using hidentified

/-- Reads off the chosen claim whether the caller is let through, and by which
rule. -/
theorem verdict_cases {t : Rules.Table} {path : String} {granted : AuthoritySet}
    (hbuild : Rules.Table.build q.mode q.records = .ok t)
    (hpath : Path.canonical? q.target = some path)
    (hgranted : ∀ name, name ∈ granted.names ↔ q.Holds name) :
    (q.Denied ∧ (Guard.verdict q.principal granted path (t.find? path)).decision =
        .deny .insufficientAuthority) ∨
      (¬ q.Denied ∧ (Guard.verdict q.principal granted path (t.find? path)).decision = .permit ∧
        ((t.find? path = none ∧ ∀ c ∈ claimsOf q.mode q.records, ∀ p, ¬ c.Covers q.mode p path) ∨
          ∃ c r, t.find? path = some r ∧ Chosen q.mode q.records path c r.pattern ∧
            r.pattern.text = c.text ∧ r.required.names = [c.owner] ∧ q.Holds c.owner)) := by
  cases hfind : t.find? path with
  | none =>
      have hnone := (Rules.find?_eq_none_iff hbuild).mp hfind
      refine Or.inr ⟨?_, rfl, Or.inl ⟨rfl, hnone⟩⟩
      rintro ⟨other, c, p, hother, hchosen, _⟩
      obtain rfl := Option.some.inj (hpath.symm.trans hother)
      exact hnone c hchosen.1 p hchosen.2.1
  | some r =>
      obtain ⟨c, hchosen, hrequired⟩ := Rules.chosen_of_find? hbuild hfind
      have hformed := (Rules.Draft.Formed.ofRecords q.mode q.records).claims c hchosen.1
      -- the rule requires the owner of its claim, and nothing else
      have hdecision : (Guard.verdict q.principal granted path (some r)).decision =
          if c.owner ∈ granted.names then .permit else .deny .insufficientAuthority := by
        rw [← decideAccess_ofList_singleton hformed.owner_trimmed hformed.owner_named granted,
          ← hrequired]
        rfl
      by_cases hholds : q.Holds c.owner
      · right
        refine ⟨?_, ?_, Or.inr ⟨c, r, rfl, hchosen, ?_, ?_, hholds⟩⟩
        · rintro ⟨other, c', p, hother, hchosen', hlacks⟩
          obtain rfl := Option.some.inj (hpath.symm.trans hother)
          obtain rfl := hchosen.unique hchosen'
          exact hlacks hholds
        · rw [hdecision, if_pos ((hgranted c.owner).mpr hholds)]
        · rw [Rules.text_of_compile hchosen.2.1.1, hformed.text_canonical]
        · rw [hrequired, AuthoritySet.names_ofList_singleton hformed.owner_trimmed
            hformed.owner_named]
      · left
        refine ⟨⟨path, c, r.pattern, hpath, hchosen, hholds⟩, ?_⟩
        rw [hdecision, if_neg (mt (hgranted c.owner).mp hholds)]

/-- Where enforcement is off, every judgement is a permission that reports the request. -/
theorem judged_permissive (hidentified : ¬ q.Unidentified)
    (hdisabled : q.settings.auth.enforcement.enabled = false) :
    ∃ v, q.judged cache = .ok v ∧ q.Reports v := by
  have hsettings : (q.service cache).guard.settings.enabled = false := hdisabled
  refine ⟨Guard.permissiveVerdict q.principal q.target, ?_, ?_⟩
  · rw [judged_of_identified hidentified, Guard.outcome_require, Guard.outcome_evaluate, hsettings]
    rfl
  · refine ⟨rfl, rfl, fun _ => ⟨rfl, rfl, rfl, rfl⟩, ?_, ?_, ?_⟩ <;> simp [hdisabled]

open Classical in
/-- Under enforcement the faults come in their order, and only then is the rule
asked. -/
theorem judged_enforced (hidentified : ¬ q.Unidentified)
    (henabled : q.settings.auth.enforcement.enabled = true)
    (hlist : q.store.list = .ok q.records) (hcurrent : q.Current cache) :
    statusOf (q.judged cache) =
        (if q.Unresolved then 401 else if q.Undecodable then 400 else if q.Unreadable then 503
          else if q.Denied then 403 else 200) ∧
      ∀ v, q.judged cache = .ok v → q.Reports v := by
  have hsettings : (q.service cache).guard.settings.enabled = true := henabled
  rw [judged_of_identified hidentified, Guard.outcome_require, Guard.outcome_evaluate,
    if_pos hsettings, Guard.outcome_judge]
  rcases @grantedTo_cases q cache hlist with
    ⟨hunresolved, e, hgrantedTo, hstatus⟩ | ⟨hresolved, granted, hgrantedTo, hgranted⟩
  · rw [hgrantedTo, if_pos hunresolved]
    exact ⟨hstatus, by simp [Except.mapError]⟩
  rw [hgrantedTo, if_neg hresolved]
  cases hpath : Path.canonical? q.target with
  | none =>
      rw [if_pos (undecodable_iff.mpr hpath)]
      exact ⟨rfl, by simp [Except.mapError]⟩
  | some path =>
      have hdecodable : ¬ q.Undecodable := by simp [undecodable_iff, hpath]
      rw [if_neg hdecodable]
      rcases currentRules_cases hlist hcurrent with
        ⟨hunreadable, e, hrules⟩ | ⟨hreadable, set, hrules, hbuild⟩
      · rw [hrules, if_pos hunreadable]
        exact ⟨rfl, by simp [Except.mapError]⟩
      rw [hrules, if_neg hreadable]
      dsimp only
      rcases verdict_cases hbuild hpath hgranted with
        ⟨hdenied, hdecision⟩ | ⟨hpermitted, hdecision, hrule⟩
      · rw [hdecision, if_pos hdenied]
        exact ⟨rfl, by simp [Except.mapError]⟩
      · rw [hdecision, if_neg hpermitted]
        refine ⟨rfl, ?_⟩
        rintro v ⟨⟩
        refine ⟨hdecision, rfl, by simp [henabled], fun _ => hpath, fun _ => hgranted, fun _ => ?_⟩
        rcases hrule with ⟨hfind, hnone⟩ | ⟨c, r, hfind, hchosen, htext, hrequired, hholds⟩
        · exact Or.inl ⟨by simp [Guard.verdict, hfind], by simp [Guard.verdict, hfind], hnone⟩
        · refine Or.inr ⟨c, r.pattern, r.required, hchosen, ?_, ?_, hrequired, hholds⟩
          · simp [Guard.verdict, hfind, htext]
          · simp [Guard.verdict, hfind]

/-! ### The answer -/

/-- The check is answered with the verdict, or as the refusal tells. -/
theorem outcome_check (s : Service) (r : Request) :
    (s.check r).value.2 =
      match (s.authorize (s.caller r.headers).value (forwardedTarget r.headers)).value.2 with
      | .ok v => .json 200 (verdictValue v)
      | .error refusal => refusal.response := by
  simp only [Service.check, Logged.value_bind]
  generalize (s.authorize (s.caller r.headers).value (forwardedTarget r.headers)).value = judged
  obtain ⟨next, outcome⟩ := judged
  cases outcome <;> rfl

/-- The resource of a check needs no guard to pass. -/
theorem dispatch_request (s : Service) : s.dispatch q.request = s.check q.request := by
  have hrouted : Resource.at? q.request.path = some .check :=
    show Resource.at? "/authz/check" = some .check by decide
  have hguarded : Resource.check.isGuarded = false := rfl
  have hmethod : Resource.check.hasMethod q.request.method = true :=
    show Resource.check.hasMethod "GET" = true by decide
  rw [Service.dispatch, hrouted]
  simp only [hguarded, Bool.false_eq_true, if_false, Service.serveMethod, hmethod, if_true,
    Service.serve]

theorem status_answer (q : Inquiry) (cache : Cache) :
    (q.answer cache).status = ((q.service cache).answer q.request).value.2.status := rfl

theorem body_answer (q : Inquiry) (cache : Cache) :
    (q.answer cache).body = ((q.service cache).answer q.request).value.2.body := rfl

theorem tooLong_iff (cache : Cache) :
    (Service.declaredLength? q.request.headers).any
      ((q.service cache).settings.server.bodyLimit < ·) = true ↔ q.TooLong := by
  have hsame : Service.declaredLength? q.request.headers = Service.declaredLength? q.headers := rfl
  rw [hsame, Option.any_eq_true]
  simp only [decide_eq_true_eq]
  rfl

/-- A body that is declared too long is answered 413. -/
theorem answer_of_tooLong (hlong : q.TooLong) : (q.answer cache).status = 413 := by
  rw [status_answer, Service.answer, if_pos ((tooLong_iff cache).mpr hlong)]
  rfl

/-- Any other request is answered by the judgement. -/
theorem answer_of_short (hshort : ¬ q.TooLong) :
    (q.answer cache).status = statusOf (q.judged cache) ∧
      ∀ v, q.judged cache = .ok v → (q.answer cache).body = some (verdictValue v) := by
  have hcaller : ((q.service cache).caller q.request.headers).value = q.principal :=
    caller_service q cache
  have hpassed : (q.service cache).answer q.request = (q.service cache).check q.request := by
    rw [Service.answer, if_neg (mt (tooLong_iff cache).mp hshort), dispatch_request]
  have hjudged : ((q.service cache).authorize q.principal
      (forwardedTarget q.request.headers)).value.2 = q.judged cache := rfl
  rw [status_answer, body_answer, hpassed, outcome_check, hcaller, hjudged]
  cases q.judged cache with
  | ok v => exact ⟨rfl, by rintro _ ⟨⟩; rfl⟩
  | error refusal => exact ⟨rfl, by simp⟩

/-- The judgement has the status that the inquiry calls for, and reports the request. -/
theorem judged_status (hlist : q.store.list = .ok q.records) (hcurrent : q.Current cache) :
    statusOf (q.judged cache) = q.judgedStatus ∧ ∀ v, q.judged cache = .ok v → q.Reports v := by
  unfold judgedStatus
  by_cases hunidentified : q.Unidentified
  · rw [if_pos hunidentified, judged_of_unidentified hunidentified]
    exact ⟨rfl, by simp⟩
  rw [if_neg hunidentified]
  cases henabled : q.settings.auth.enforcement.enabled with
  | true => simpa using judged_enforced hunidentified henabled hlist hcurrent
  | false =>
      obtain ⟨v, hjudged, hreports⟩ := @judged_permissive q cache hunidentified henabled
      rw [if_pos rfl, hjudged]
      refine ⟨rfl, ?_⟩
      rintro _ ⟨⟩
      exact hreports

theorem statusOf_eq_ok {outcome : Except Refusal Verdict} (hstatus : statusOf outcome = 200) :
    ∃ v, outcome = .ok v := by
  cases outcome with
  | ok v => exact ⟨v, rfl⟩
  | error refusal =>
      have hfault := refusal.status_ge
      simp only [statusOf] at hstatus
      omega

/-- A check is answered with the status of the first condition that applies, and
with a verdict whose every field is what the records and the headers say. -/
theorem answer_status (hlist : q.store.list = .ok q.records) (hcurrent : q.Current cache) :
    (q.answer cache).status = q.status ∧
      ((q.answer cache).status = 200 →
        ∃ v, (q.answer cache).body = some (verdictValue v) ∧ q.Reports v) := by
  -- the length is looked at before anything else, then the judgement decides
  by_cases hlong : q.TooLong
  · have hanswer := @answer_of_tooLong q cache hlong
    rw [hanswer, status, if_pos hlong]
    exact ⟨rfl, by simp⟩
  obtain ⟨hanswer, hbody⟩ := @answer_of_short q cache hlong
  obtain ⟨hjudged, hreports⟩ := judged_status hlist hcurrent
  rw [status, if_neg hlong]
  refine ⟨hanswer.trans hjudged, ?_⟩
  intro hok
  obtain ⟨v, hv⟩ := statusOf_eq_ok (hanswer.symm.trans hok)
  exact ⟨v, hbody v hv, hreports v hv⟩

/-- The caller `alice` asks for the root, under one rule for `/admin/**`. -/
def ofAlice (headers : List Header) : Inquiry where
  settings := {}
  store := .memory
    { authorities := [⟨"ROLE_ADMIN", "/admin/**"⟩]
      roles := [⟨"admin", ["ROLE_ADMIN"]⟩]
      principals := [⟨"alice", some ["admin"]⟩] }
  records := [⟨"ROLE_ADMIN", "/admin/**"⟩]
  headers := ⟨"x-authenticated-user", "alice"⟩ :: headers

def unloaded : Cache := { mode := .exact }

theorem principal_ofAlice (headers : List Header) :
    (ofAlice headers).principal = some "alice" := by
  rw [principal_of_first (q := ofAlice headers) rfl (by decide) (by decide +kernel)]
  decide +kernel

/-- Asked for a path under the rule, it is told its authority and the rule. -/
theorem answer_ofAlice :
    ∃ v, ((ofAlice [⟨"x-forwarded-uri", "/admin/users"⟩]).answer unloaded).body =
        some (verdictValue v) ∧
      (ofAlice [⟨"x-forwarded-uri", "/admin/users"⟩]).Reports v := by
  have hlist : (ofAlice [⟨"x-forwarded-uri", "/admin/users"⟩]).store.list =
      .ok (ofAlice [⟨"x-forwarded-uri", "/admin/users"⟩]).records := rfl
  have hcurrent : (ofAlice [⟨"x-forwarded-uri", "/admin/users"⟩]).Current unloaded :=
    ⟨rfl, Or.inl rfl⟩
  have htarget : (ofAlice [⟨"x-forwarded-uri", "/admin/users"⟩]).target = "/admin/users" := by
    decide +kernel
  have hshort : ¬ (ofAlice [⟨"x-forwarded-uri", "/admin/users"⟩]).TooLong := by
    rw [← tooLong_iff unloaded]
    decide +kernel
  apply (answer_status hlist hcurrent).2
  rw [(answer_of_short hshort).1, judged, principal_ofAlice, htarget]
  decide +kernel

/-- Were it not for the length that is declared for the body, the answer would be
another one. -/
theorem status_ne_judgedStatus :
    ((ofAlice [⟨"content-length", "70000"⟩]).answer unloaded).status = 413 ∧
      (ofAlice [⟨"content-length", "70000"⟩]).judgedStatus = 200 := by
  have hlist : (ofAlice [⟨"content-length", "70000"⟩]).store.list =
      .ok (ofAlice [⟨"content-length", "70000"⟩]).records := rfl
  have hcurrent : (ofAlice [⟨"content-length", "70000"⟩]).Current unloaded := ⟨rfl, Or.inl rfl⟩
  have htarget : (ofAlice [⟨"content-length", "70000"⟩]).target = "/" := by decide +kernel
  constructor
  · apply answer_of_tooLong
    exact ⟨70000, by decide +kernel, by decide⟩
  · rw [← (judged_status hlist hcurrent).1, judged, principal_ofAlice, htarget]
    decide +kernel

end Inquiry

end RouteGuard.Http
