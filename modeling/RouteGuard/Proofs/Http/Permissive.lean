import RouteGuard.Proofs.Http.Check

/-! # A service that enforces nothing

While enforcement is off, every caller whom the settings let in at all is
permitted everywhere, whatever the store says and whatever is loaded. What is
looked at before a caller is judged holds as ever: the length that is declared
for the body, and the rule on callers without identity.
-/

namespace RouteGuard.Http

open Directory (Store)
open Rules (Cache)

/-- Judging neither asks the store nor the rules, and changes nothing. -/
theorem Service.authorize_of_disabled (s : Service) (caller : Option String) (target : String)
    (hdisabled : s.guard.settings.enabled = false) :
    s.authorize caller target =
      if caller.isNone && !s.settings.auth.allowAnonymous then
        ⟨(s, .error .unauthenticated), [⟨.debug, "pathgate::middleware::authz",
          "Rejecting request without identity", [("path", .quoted target)]⟩]⟩
      else ⟨(s, .ok (Guard.permissiveVerdict caller target)), []⟩ := by
  unfold authorize
  split
  · rfl
  · rw [Guard.require, Guard.evaluate, hdisabled]
    rfl

namespace Inquiry

/-- What a service answers and does while enforcement is off. -/
structure Permissive (q : Inquiry) (cache : Cache) : Prop where
  tooLong : q.TooLong → (q.answer cache).status = 413
  unidentified : ¬ q.TooLong → q.Unidentified → (q.answer cache).status = 401
  /-- every other check is answered with a permission, malformed targets included -/
  permitted : ¬ q.TooLong → ¬ q.Unidentified → (q.answer cache).status = 200 ∧
    ∃ v, (q.answer cache).body = some (verdictValue v) ∧ q.Reports v
  /-- a request that is routed to a guarded resource comes to its handler -/
  handed : ∀ {r : Request} {resource : Resource}, r.headers = q.headers →
    Resource.at? r.path = some resource → resource.isGuarded = true →
    resource.hasMethod r.method = true →
    (Handed (q.service cache) r resource ↔ ¬ q.TooLong ∧ ¬ q.Unidentified)
  /-- and the handler finds the service as it was -/
  served : ∀ {r : Request} {resource : Resource}, Handed (q.service cache) r resource →
    ((q.service cache).answer r).value = ((q.service cache).serve r resource).value
  untouched : ∀ (caller : Option String) (target : String),
    ((q.service cache).authorize caller target).value.1 = q.service cache
  /-- whatever else the store held and whatever else were loaded, a judgement
  would come to the same and tell the same -/
  unread : ∀ (store : Store) (other : Cache) (caller : Option String) (target : String),
    (({ q with store }.service other).authorize caller target).value.2 =
        ((q.service cache).authorize caller target).value.2 ∧
      (({ q with store }.service other).authorize caller target).events =
        ((q.service cache).authorize caller target).events

variable {q : Inquiry} {cache : Cache}

theorem letPass_of_disabled (hdisabled : q.settings.auth.enforcement.enabled = false)
    {r : Request} (hheaders : r.headers = q.headers) :
    (∃ v, ((q.service cache).letPass r).value.2 = .ok v) ↔ ¬ q.Unidentified := by
  have hcaller : ((q.service cache).caller r.headers).value = q.principal := by
    rw [hheaders]
    exact caller_service q cache
  have hanonymous : (q.service cache).settings.auth.allowAnonymous =
      q.settings.auth.allowAnonymous := rfl
  rw [Service.outcome_letPass, hcaller, Service.authorize_of_disabled _ _ _ hdisabled, hanonymous,
    Unidentified]
  cases q.principal <;> cases q.settings.auth.allowAnonymous <;> simp

theorem value_letPass_of_disabled (hdisabled : q.settings.auth.enforcement.enabled = false)
    (r : Request) : ((q.service cache).letPass r).value.1 = q.service cache := by
  simp only [Service.letPass, Logged.value_bind]
  rw [Service.authorize_of_disabled _ _ _ hdisabled]
  split <;> rfl

/-- With enforcement off, nothing but the length that is declared for the body
and a missing identity keeps a request from being permitted. -/
theorem permissive_of_disabled (cache : Cache) (hdisabled : q.settings.auth.enforcement.enabled = false) :
    q.Permissive cache where
  tooLong := answer_of_tooLong
  unidentified := by
    intro hshort hunidentified
    rw [(answer_of_short hshort).1, judged_of_unidentified hunidentified]
    rfl
  permitted := by
    intro hshort hidentified
    obtain ⟨v, hjudged, hreports⟩ := @judged_permissive q cache hidentified hdisabled
    obtain ⟨hstatus, hbody⟩ := @answer_of_short q cache hshort
    refine ⟨?_, v, hbody v hjudged, hreports⟩
    rw [hstatus, hjudged]
    rfl
  handed := by
    intro r resource hheaders hrouted hguarded hmethod
    have hpassed := @letPass_of_disabled q cache hdisabled r hheaders
    have hlong := @tooLong_iff q cache
    rw [show q.request.headers = r.headers from hheaders.symm] at hlong
    constructor
    · intro hhanded
      refine ⟨?_, hpassed.mp hhanded.passed⟩
      intro htooLong
      exact absurd (hlong.mpr htooLong) (by simp [hhanded.short])
    · intro hallowed
      obtain ⟨hshort, hidentified⟩ := hallowed
      exact ⟨Bool.eq_false_iff.mpr (mt hlong.mp hshort), hrouted, hguarded, hmethod,
        hpassed.mpr hidentified⟩
  served := by
    intro r resource hhanded
    rw [Service.value_answer_of_handed _ _ hhanded, value_letPass_of_disabled hdisabled]
  untouched := by
    intro caller target
    rw [Service.authorize_of_disabled _ _ _ hdisabled]
    split <;> rfl
  unread := by
    intro store other caller target
    rw [Service.authorize_of_disabled _ _ _ hdisabled, Service.authorize_of_disabled _ _ _ hdisabled]
    have hanonymous : ({ q with store }.service other).settings = (q.service cache).settings := rfl
    rw [hanonymous]
    split <;> exact ⟨rfl, rfl⟩

/-- A service that enforces nothing is asked, and its database is closed. -/
def unenforced (headers : List Header) : Inquiry where
  settings := { auth := { enforcement := { enabled := false } } }
  store := .database { closed := true }
  records := []
  headers

/-- Somebody whom no store knows is permitted on a path that spells no text, and
comes to the handler that deletes an authority. -/
theorem permissive_unenforced :
    let q := unenforced [⟨"x-authenticated-user", "mallory"⟩, ⟨"x-forwarded-uri", "/admin/%ff"⟩]
    let deletion : Request :=
      { method := "DELETE", path := "/admin/authorities/ROLE_ADMIN", headers := q.headers }
    (∃ v, (q.answer unloaded).body = some (verdictValue v) ∧ v.decision = .permit ∧
      v.principal = some "mallory" ∧ v.path = "/admin/%ff") ∧
    Handed (q.service unloaded) deletion (.authority "ROLE_ADMIN") := by
  intro q deletion
  have hpermissive : q.Permissive unloaded := permissive_of_disabled unloaded rfl
  have hprincipal : q.principal = some "mallory" := by
    rw [principal_of_first (q := q) rfl (by decide) (by decide +kernel)]
    decide +kernel
  have htarget : q.target = "/admin/%ff" := by decide +kernel
  have hundecodable : q.Undecodable := by
    rw [Undecodable, htarget]
    decide +kernel
  have hshort : ¬ q.TooLong := by
    rw [← tooLong_iff unloaded]
    decide +kernel
  have hidentified : ¬ q.Unidentified := by simp [Unidentified, hprincipal]
  obtain ⟨_, v, hbody, hreports⟩ := hpermissive.permitted hshort hidentified
  refine ⟨⟨v, hbody, hreports.decision, hreports.principal.trans hprincipal, ?_⟩, ?_⟩
  · rw [(hreports.permissive rfl).1, undecodable_iff.mp hundecodable, htarget]
    rfl
  · exact (hpermissive.handed rfl (by decide +kernel) rfl (by decide)).mpr ⟨hshort, hidentified⟩

/-- Enforcement is off, and yet two checks are refused: one without identity,
and one that declares too long a body. The first caller does not come to the
handler of a guarded resource either. -/
theorem refused_unenforced :
    ((unenforced []).answer unloaded).status = 401 ∧
      ((unenforced [⟨"x-authenticated-user", "alice"⟩, ⟨"content-length", "70000"⟩]).answer
        unloaded).status = 413 ∧
      ¬ Handed ((unenforced []).service unloaded) { path := "/admin/authz/rules" } .ruleList := by
  have hunidentified : (unenforced []).Unidentified := ⟨by decide +kernel, rfl⟩
  have hshort : ¬ (unenforced []).TooLong := by
    rw [← tooLong_iff unloaded]
    decide +kernel
  refine ⟨?_, ?_, ?_⟩
  · rw [(answer_of_short hshort).1, judged_of_unidentified hunidentified]
    rfl
  · apply answer_of_tooLong
    exact ⟨70000, by decide +kernel, by decide⟩
  · intro hhanded
    exact (letPass_of_disabled rfl rfl).mp hhanded.passed hunidentified

end Inquiry

end RouteGuard.Http
