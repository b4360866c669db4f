import RouteGuard.Http.Service
import RouteGuard.Proofs.Judgement

/-! # Requests to guarded resources

When a request comes to the handler of a guarded resource, and what its answer
is then.
-/

namespace RouteGuard.Http

open Directory (Authority)

/-- A request comes to the handler of a guarded resource. -/
structure Handed (s : Service) (r : Request) (resource : Resource) : Prop where
  short : (Service.declaredLength? r.headers).any (s.settings.server.bodyLimit < ·) = false
  routed : Resource.at? r.path = some resource
  guarded : resource.isGuarded = true
  method : resource.hasMethod r.method = true
  passed : ∃ v, (s.letPass r).value.2 = .ok v

/-- No refusal is answered below 400. -/
theorem Refusal.status_ge (refusal : Refusal) : 400 ≤ refusal.response.status := by
  cases refusal with
  | unauthenticated => decide
  | denied e => cases e <;> simp [response, Response.fault, Response.json]

namespace Service

variable (s : Service) (caller : Option String) (target : String) (r : Request)

/-- A caller without an identity is turned away first, unless that is allowed. -/
theorem outcome_authorize :
    (s.authorize caller target).value.2 =
      if caller.isNone && !s.settings.auth.allowAnonymous then .error .unauthenticated
      else (s.guard.require caller target).value.2.mapError .denied := by
  unfold authorize
  split <;> rfl

/-- Who is turned away for want of an identity is not judged. -/
theorem service_authorize :
    (s.authorize caller target).value.1 = s ∨ (s.authorize caller target).value.1 =
      { s with guard := (s.guard.require caller target).value.1 } := by
  unfold authorize
  split
  · exact Or.inl rfl
  · exact Or.inr rfl

theorem outcome_letPass :
    (s.letPass r).value.2 = (s.authorize (s.caller r.headers).value r.path).value.2 := rfl

/-- Guarding a request changes neither the settings nor the store, and discards
no rules. -/
structure Untouched (s t : Service) : Prop where
  settings : t.settings = s.settings
  store : t.guard.store = s.guard.store
  invalidations : t.guard.cache.invalidations = s.guard.cache.invalidations

theorem Untouched.refl : Untouched s s := ⟨rfl, rfl, rfl⟩

/-- Whether it is let pass or not, a request leaves the service untouched. -/
theorem untouched_letPass : Untouched s (s.letPass r).value.1 := by
  have hauthorize : (s.letPass r).value.1 =
      (s.authorize (s.caller r.headers).value r.path).value.1 := rfl
  rw [hauthorize]
  rcases s.service_authorize (s.caller r.headers).value r.path with hsame | hjudged
  · rw [hsame]
    exact .refl s
  · rw [hjudged]
    exact ⟨rfl, s.guard.store_require _ _, s.guard.invalidations_require _ _⟩

/-- The answer to a request that comes to a handler is what the handler says,
but for the body of a `HEAD` request. -/
theorem value_answer_of_handed {resource : Resource} (hhanded : Handed s r resource) :
    (s.answer r).value = ((s.letPass r).value.1.serve r resource).value := by
  obtain ⟨v, hpassed⟩ := hhanded.passed
  have hdispatch : (s.dispatch r).value = ((s.letPass r).value.1.serve r resource).value := by
    simp only [dispatch, hhanded.routed, hhanded.guarded, if_true, Logged.value_bind]
    generalize (s.letPass r).value = passed at hpassed ⊢
    obtain ⟨next, outcome⟩ := passed
    subst hpassed
    simp [serveMethod, hhanded.method]
  simp [answer, hhanded.short, hdispatch]

/-- A request to a guarded resource that does not come to its handler is refused. -/
theorem answer_of_not_handed {resource : Resource} (hrouted : Resource.at? r.path = some resource)
    (hguarded : resource.isGuarded = true) (hnot : ¬ Handed s r resource) :
    Untouched s (s.answer r).value.1 ∧ 400 ≤ (s.answer r).value.2.status := by
  unfold answer
  split
  · exact ⟨.refl s, by simp⟩
  · next hshort =>
      have huntouched := s.untouched_letPass r
      simp only [dispatch, hrouted, hguarded, if_true, Logged.value_bind]
      cases hpassed : (s.letPass r).value with
      | mk next outcome =>
          rw [hpassed] at huntouched
          cases outcome with
          | error refusal => exact ⟨huntouched, refusal.status_ge⟩
          | ok v =>
              have hmethod : resource.hasMethod r.method = false := by
                rw [Bool.eq_false_iff]
                intro hmethod
                exact hnot ⟨by simpa using hshort, hrouted, hguarded, hmethod, v, by rw [hpassed]⟩
              simpa [serveMethod, hmethod] using huntouched

end Service

end RouteGuard.Http
