import RouteGuard.Authorizer
import RouteGuard.Proofs.Rules.Request

/-! # What a judgement comes to

The outcome of judging a request, read off the store and the rules: who is
permitted, and which fault comes first.
-/

namespace RouteGuard.Guard

open Rules (Outcome)

variable (g : Guard) (principal : Option String) (target : String)

/-- The authorities of a caller. One without identity has none. -/
def grantedTo : Except AccessError AuthoritySet :=
  match principal with
  | some username => g.resolve username
  | none => .ok {}

def currentRules : Outcome := g.rules.value.2

/-- Where nothing is loaded, the rules are those of the store at the moment. -/
theorem currentRules_of_unloaded (hphase : g.cache.phase = .unloaded) :
    g.currentRules = Rules.Cache.outcomeOf g.cache.mode (g.cache.attempt + 1) g.store.list := by
  rw [← g.cache.outcome_rules_of_unloaded g.store.list hphase]
  rfl

theorem currentRules_of_loaded {set : Rules.Loaded} (hphase : g.cache.phase = .loaded set) :
    g.currentRules = .ok set := by
  have hrules := g.cache.rules_of_loaded g.store.list hphase
  simp [currentRules, rules, hrules]

/-- A target without a path is refused before the rules are asked for. -/
theorem outcome_matchTarget :
    (g.matchTarget target).value.2 =
      match Path.canonical? target with
      | none => .error (.invalidPath target)
      | some path =>
        match g.currentRules with
        | .error e => .error (.rules e)
        | .ok set => .ok (path, set.table.find? path) := by
  unfold matchTarget
  cases Path.canonical? target with
  | none => rfl
  | some path =>
      simp only [ruleFor, currentRules, Logged.value_bind]
      obtain ⟨next, outcome⟩ := g.rules.value
      cases outcome <;> rfl

/-- The principal is resolved before the target is looked at. -/
theorem judge_eq :
    g.judge principal target =
      match g.grantedTo principal with
      | .error e => pure (g, .error e)
      | .ok granted => do
        match ← g.matchTarget target with
        | (g, .error e) => return (g, .error e)
        | (g, .ok (path, rule)) => return (g, .ok (verdict principal granted path rule)) := by
  cases principal <;> rfl

/-- The principal, the target and the rules can fail, in this order. -/
theorem outcome_judge :
    (g.judge principal target).value.2 =
      match g.grantedTo principal with
      | .error e => .error e
      | .ok granted =>
        match Path.canonical? target with
        | none => .error (.invalidPath target)
        | some path =>
          match g.currentRules with
          | .error e => .error (.rules e)
          | .ok set => .ok (verdict principal granted path (set.table.find? path)) := by
  rw [judge_eq]
  cases g.grantedTo principal with
  | error e => rfl
  | ok granted =>
      have hmatch := g.outcome_matchTarget target
      simp only [Logged.value_bind]
      generalize g.matchTarget target = matched at hmatch ⊢
      obtain ⟨⟨next, found⟩, events⟩ := matched
      subst hmatch
      cases Path.canonical? target with
      | none => rfl
      | some path => cases g.currentRules <;> rfl

/-- What is told of a judgement does not bear on it. -/
theorem outcome_evaluate :
    (g.evaluate principal target).value.2 =
      if g.settings.enabled then (g.judge principal target).value.2
      else .ok (permissiveVerdict principal target) := by
  unfold evaluate
  split <;> rfl

/-- A denial is an error to who requires a permission. -/
theorem outcome_require :
    (g.require principal target).value.2 =
      match (g.evaluate principal target).value.2 with
      | .error e => .error e
      | .ok v =>
        match v.decision with
        | .permit => .ok v
        | .deny reason => .error (.accessDenied reason) := by
  simp only [require, Logged.value_bind]
  cases hresult : (g.evaluate principal target).value with
  | mk next result =>
      cases result with
      | error e => rfl
      | ok v => cases hdecision : v.decision <;> simp [hdecision]

/-- What a permitted caller can rely on: its authorities are resolved, its
target has a canonical path, and the rule for that path lets it through. -/
theorem require_eq_ok_iff (henabled : g.settings.enabled = true) (v : Verdict) :
    (g.require principal target).value.2 = .ok v ↔
      ∃ granted path set, g.grantedTo principal = .ok granted ∧
        Path.canonical? target = some path ∧ g.currentRules = .ok set ∧
        v = verdict principal granted path (set.table.find? path) ∧ v.decision = .permit := by
  rw [outcome_require, outcome_evaluate, if_pos henabled, outcome_judge]
  cases g.grantedTo principal with
  | error e => simp
  | ok granted =>
      cases Path.canonical? target with
      | none => simp
      | some path =>
          cases g.currentRules with
          | error e => simp
          | ok set =>
              dsimp only
              cases hdecision :
                (verdict principal granted path (set.table.find? path)).decision with
              | permit =>
                  constructor
                  · rintro ⟨⟩
                    exact ⟨granted, path, set, rfl, rfl, rfl, rfl, hdecision⟩
                  · rintro ⟨_, _, _, ⟨⟩, ⟨⟩, ⟨⟩, rfl, _⟩
                    rfl
              | deny reason =>
                  constructor
                  · rintro ⟨⟩
                  · rintro ⟨_, _, _, ⟨⟩, ⟨⟩, ⟨⟩, rfl, hpermit⟩
                    simp [hdecision] at hpermit

/-- Where no rule covers the path, whoever can be resolved is permitted. -/
theorem require_of_uncovered (henabled : g.settings.enabled = true) {granted : AuthoritySet}
    {path : String} {set : Rules.Loaded} (hgranted : g.grantedTo principal = .ok granted)
    (hpath : Path.canonical? target = some path) (hrules : g.currentRules = .ok set)
    (hnone : ∀ r ∈ set.table.rules, r.pattern.covers path = false) :
    (g.require principal target).value.2 = .ok (verdict principal granted path none) := by
  have hfind : set.table.find? path = none := by
    rw [Rules.Table.find?, List.find?_eq_none]
    intro r hr
    simp [hnone r hr]
  rw [require_eq_ok_iff g principal target henabled]
  exact ⟨granted, path, set, hgranted, hpath, hrules, by rw [hfind], rfl⟩

/-! ### Judging leaves the store alone -/

theorem store_matchTarget : (g.matchTarget target).value.1.store = g.store := by
  unfold matchTarget
  cases Path.canonical? target with
  | none => rfl
  | some path =>
      have hrules : g.rules.value.1.store = g.store := rfl
      simp only [ruleFor, Logged.value_bind]
      generalize g.rules.value = asked at hrules ⊢
      obtain ⟨next, outcome⟩ := asked
      cases outcome <;> exact hrules

/-- A judgement leaves the store as it is. -/
theorem store_judge : (g.judge principal target).value.1.store = g.store := by
  rw [judge_eq]
  cases g.grantedTo principal with
  | error e => rfl
  | ok granted =>
      have hmatch := g.store_matchTarget target
      simp only [Logged.value_bind]
      generalize (g.matchTarget target).value = matched at hmatch ⊢
      obtain ⟨next, found⟩ := matched
      cases found <;> exact hmatch

theorem guard_require :
    (g.require principal target).value.1 = (g.evaluate principal target).value.1 := by
  simp only [require, Logged.value_bind]
  generalize (g.evaluate principal target).value = evaluated
  obtain ⟨next, result⟩ := evaluated
  cases result with
  | error e => rfl
  | ok v => cases hdecision : v.decision <;> simp [hdecision]

theorem store_require : (g.require principal target).value.1.store = g.store := by
  rw [guard_require, evaluate]
  split
  · exact g.store_judge principal target
  · rfl

/-! ### What judging rests on -/

theorem cache_matchTarget : (g.matchTarget target).value.1.cache =
    match Path.canonical? target with
    | none => g.cache
    | some _ => (g.cache.rules g.store.list).value.1 := by
  unfold matchTarget
  cases Path.canonical? target with
  | none => rfl
  | some path =>
      have hrules : g.rules.value.1.cache = (g.cache.rules g.store.list).value.1 := rfl
      simp only [ruleFor, Logged.value_bind]
      generalize g.rules.value = asked at hrules ⊢
      obtain ⟨next, outcome⟩ := asked
      cases outcome <;> exact hrules

/-- A judgement touches the cache only if the principal is resolved. -/
theorem cache_judge : (g.judge principal target).value.1.cache =
    match g.grantedTo principal with
    | .error _ => g.cache
    | .ok _ => (g.matchTarget target).value.1.cache := by
  rw [judge_eq]
  cases g.grantedTo principal with
  | error e => rfl
  | ok granted =>
      simp only [Logged.value_bind]
      generalize (g.matchTarget target).value = matched
      obtain ⟨next, found⟩ := matched
      cases found <;> rfl

/-- Whoever is judged, no rules are discarded. -/
theorem invalidations_require :
    (g.require principal target).value.1.cache.invalidations = g.cache.invalidations := by
  have hmatch : (g.matchTarget target).value.1.cache.invalidations = g.cache.invalidations := by
    rw [cache_matchTarget]
    split
    · rfl
    · exact g.cache.invalidations_rules _
  rw [guard_require, evaluate]
  split
  · rw [cache_judge]
    split
    · rfl
    · exact hmatch
  · rfl

/-- Two guards judge alike if their stores list the same authorities and resolve
every caller alike, and their caches stay alike. -/
theorem evaluate_congr {g h : Guard} (hsettings : g.settings = h.settings)
    (hcache : g.cache = h.cache) (hlist : g.store.list = h.store.list)
    (hresolve : ∀ username, g.resolve username = h.resolve username) :
    (g.evaluate principal target).value.2 = (h.evaluate principal target).value.2 ∧
      (g.evaluate principal target).value.1.cache =
        (h.evaluate principal target).value.1.cache := by
  have hgranted : g.grantedTo principal = h.grantedTo principal := by
    cases principal with
    | none => rfl
    | some username => exact hresolve username
  have hrules : g.currentRules = h.currentRules := by
    simp [currentRules, rules, hcache, hlist]
  refine ⟨?_, ?_⟩
  · simp only [outcome_evaluate, outcome_judge, hsettings, hgranted, hrules]
  · have hjudge : (g.judge principal target).value.1.cache =
        (h.judge principal target).value.1.cache := by
      simp only [cache_judge, cache_matchTarget, hgranted, hcache, hlist]
    unfold evaluate
    rw [hsettings]
    split
    · exact hjudge
    · exact hcache

end RouteGuard.Guard
