import RouteGuard.Proofs.Http.AdminPattern
import RouteGuard.Proofs.Http.Guarded
import RouteGuard.Proofs.Path.Canonical

/-! # The guard of the administrative resources

Requests are routed by their raw path but judged by its canonical form. One
rule for `/admin/**` protects a request exactly when its canonical path is still
an administrative one. An escaped slash inside the last segment of a request to
delete an authority can lead it away.
-/

namespace RouteGuard.Http

open Directory (Authority Store)
open Glob (CaseMode)

/-- The rule for `/admin/**` requires an authority, and no other rule covers an
administrative path. -/
structure Protects (mode : CaseMode) (t : Rules.Table) (authority : String) : Prop where
  rule : ∃ r ∈ t.rules,
    Pattern.compile mode "/admin/**" = .ok r.pattern ∧ r.required.names = [authority]
  alone : ∀ r ∈ t.rules, ∀ path, UnderAdmin path → r.pattern.covers path = true →
    Pattern.compile mode "/admin/**" = .ok r.pattern ∧ r.required.names = [authority]

/-- The service enforces its rules, which protect the administrative paths. -/
structure AdminProtected (s : Service) (authority : String) : Prop where
  enabled : s.guard.settings.enabled = true
  rules : ∀ set, s.guard.currentRules = .ok set →
    Protects s.guard.settings.mode set.table authority

/-- The caller is a known principal to whom the authority is granted. -/
def CallerHolds (s : Service) (r : Request) (authority : String) : Prop :=
  ∃ username granted, (s.caller r.headers).value = some username ∧
    s.guard.resolve username = .ok granted ∧ authority ∈ granted.names

/-- Wherever the administrative paths are protected, a request comes to its
handler only for callers who hold the authority. -/
def AdminSafe (r : Request) : Prop :=
  ∀ s authority resource, AdminProtected s authority → Handed s r resource →
    CallerHolds s r authority

variable {s : Service} {r : Request} {resource : Resource}

/-- An administrative path is left to the rule for `/admin/**`. -/
theorem Protects.find? {mode : CaseMode} {t : Rules.Table} {authority path : String}
    (hprotects : Protects mode t authority) (hunder : UnderAdmin path) :
    ∃ r, t.find? path = some r ∧ r.required.names = [authority] := by
  obtain ⟨rule, hmem, hcompile, _⟩ := hprotects.rule
  cases hfind : t.find? path with
  | none =>
      have hpattern : rule.pattern = adminPattern mode := by
        rw [compile_admin] at hcompile
        exact (Except.ok.inj hcompile).symm
      have hcovers : rule.pattern.covers path = true := hpattern ▸ covers_admin mode hunder
      have hnone := List.find?_eq_none.mp hfind rule hmem
      exact absurd hcovers hnone
  | some found =>
      have hcovers := List.find?_some hfind
      have hfound := List.mem_of_find?_eq_some hfind
      exact ⟨found, rfl, (hprotects.alone found hfound path hunder hcovers).2⟩

/-- A request that is judged by an administrative path is protected. -/
theorem AdminProtected.callerHolds {authority : String} (hprotected : AdminProtected s authority)
    (hhanded : Handed s r resource)
    (hunder : ∀ path, Path.canonical? r.path = some path → UnderAdmin path) :
    CallerHolds s r authority := by
  obtain ⟨v, hpassed⟩ := hhanded.passed
  rw [Service.outcome_letPass, Service.outcome_authorize] at hpassed
  split at hpassed
  · cases hpassed
  · obtain ⟨verdict, hrequire⟩ : ∃ verdict,
        (s.guard.require (s.caller r.headers).value r.path).value.2 = .ok verdict := by
      cases hresult : (s.guard.require (s.caller r.headers).value r.path).value.2 with
      | error e => rw [hresult] at hpassed; cases hpassed
      | ok verdict => exact ⟨verdict, rfl⟩
    obtain ⟨granted, path, set, hgranted, hpath, hrules, rfl, hpermit⟩ :=
      (s.guard.require_eq_ok_iff _ _ hprotected.enabled verdict).mp hrequire
    obtain ⟨rule, hfind, hrequired⟩ := (hprotected.rules set hrules).find? (hunder path hpath)
    have hholds : authority ∈ granted.names := by
      have hdecide : (decideAccess granted (some rule.required)).isPermit = true := by
        simp only [Guard.verdict, hfind, Option.map_some] at hpermit
        rw [hpermit]
        rfl
      rcases (decideAccess_isPermit_iff granted _).mp hdecide rule.required rfl with
        hempty | ⟨name, hname, hmem⟩
      · simp [hrequired] at hempty
      · rw [hrequired, List.mem_singleton] at hmem
        exact hmem ▸ hname
    cases hcaller : (s.caller r.headers).value with
    | none =>
        -- nothing is granted to a caller without identity
        rw [hcaller] at hgranted
        cases hgranted
        simp at hholds
    | some username =>
        rw [hcaller] at hgranted
        exact ⟨username, granted, hcaller, hgranted, hholds⟩

/-! ### Paths that lead away -/

/-- A service that has just started and is open to callers without identity. The
only rule is the one for `/admin/**`, and whoever calls is known but has no
authorities. -/
def openService (r : Request) : Service :=
  let caller := (identity r.headers "x-authenticated-user").value
  .new
    { server := { bodyLimit := (Service.declaredLength? r.headers).getD 0 }
      auth := { allowAnonymous := true } }
    (.memory
      { authorities := [⟨"ROLE_ADMIN", "/admin/**"⟩]
        principals := caller.toList.map fun username => ⟨username, some []⟩ })

theorem build_admin : Rules.Table.build .exact [⟨"ROLE_ADMIN", "/admin/**"⟩] =
    .ok { rules := [⟨adminPattern .exact, .ofList ["ROLE_ADMIN"]⟩] } := by
  have hdraft : Rules.Draft.ofRecords .exact [⟨"ROLE_ADMIN", "/admin/**"⟩] =
      { claims := [⟨"/admin/**", "/admin/**", "ROLE_ADMIN"⟩] } := by
    decide +kernel
  simp [Rules.Table.build, Rules.Table.ofDraft, hdraft, Rules.Claim.rule, compile_admin,
    Except.map, List.mapM_cons, bind, Except.bind, pure, Except.pure, Rules.Draft.collisions]

/-- The rules of the service have the one rule of the administrative paths. -/
theorem currentRules_openService (r : Request) :
    (openService r).guard.currentRules =
      .ok ⟨1, { rules := [⟨adminPattern .exact, .ofList ["ROLE_ADMIN"]⟩] }⟩ := by
  rw [Guard.currentRules_of_unloaded _ rfl]
  change Rules.Cache.outcomeOf .exact 1 (.ok [⟨"ROLE_ADMIN", "/admin/**"⟩]) = _
  rw [Rules.Cache.outcomeOf, build_admin]
  rfl

theorem adminProtected_openService (r : Request) :
    AdminProtected (openService r) "ROLE_ADMIN" where
  enabled := rfl
  rules := by
    intro set hrules
    rw [currentRules_openService] at hrules
    obtain rfl := Except.ok.inj hrules
    have hrequired : (AuthoritySet.ofList ["ROLE_ADMIN"]).names = ["ROLE_ADMIN"] := by
      decide +kernel
    refine ⟨⟨_, List.mem_singleton_self _, compile_admin _, hrequired⟩, ?_⟩
    intro rule hrule _ _ _
    obtain rfl := List.mem_singleton.mp hrule
    exact ⟨compile_admin _, hrequired⟩

theorem grantedTo_openService (r : Request) :
    (openService r).guard.grantedTo ((openService r).caller r.headers).value = .ok {} := by
  have hcaller : ((openService r).caller r.headers).value =
      (identity r.headers "x-authenticated-user").value := rfl
  rw [hcaller]
  cases hname : (identity r.headers "x-authenticated-user").value with
  | none => rfl
  | some username =>
      simp [Guard.grantedTo, Guard.resolve, openService, Service.new, hname, Store.find?,
        Directory.Seed.findAssigned?, Directory.grantedBy, AuthoritySet.ofList,
        AuthoritySet.insertMany]

/-- Its callers hold nothing. -/
theorem not_callerHolds_openService (r : Request) (authority : String) :
    ¬ CallerHolds (openService r) r authority := by
  rintro ⟨username, granted, hcaller, hresolve, hholds⟩
  have hgranted := grantedTo_openService r
  rw [hcaller, Guard.grantedTo, hresolve] at hgranted
  cases hgranted
  simp at hholds

/-- A request whose canonical path is no administrative one passes the open service. -/
theorem handed_openService (hrouted : Resource.at? r.path = some resource)
    (hguarded : resource.isGuarded = true) (hmethod : resource.hasMethod r.method = true)
    {path : String} (hpath : Path.canonical? r.path = some path) (haway : ¬ UnderAdmin path) :
    Handed (openService r) r resource where
  short := by
    cases hlength : Service.declaredLength? r.headers with
    | none => rfl
    | some n => simp [openService, Service.new, hlength]
  routed := hrouted
  guarded := hguarded
  method := hmethod
  passed := by
    have hnone : ∀ rule ∈ [(⟨adminPattern .exact, .ofList ["ROLE_ADMIN"]⟩ : Rules.Rule)],
        rule.pattern.covers path = false := by
      intro rule hrule
      obtain rfl := List.mem_singleton.mp hrule
      rw [Bool.eq_false_iff]
      exact fun hcovers => haway (underAdmin_of_covers hcovers)
    have hrequire := Guard.require_of_uncovered _ _ r.path rfl (grantedTo_openService r) hpath
      (currentRules_openService r) hnone
    have hopen : (openService r).settings.auth.allowAnonymous = true := rfl
    rw [Service.outcome_letPass, Service.outcome_authorize, hrequire, hopen, Bool.not_true,
      Bool.and_false]
    exact ⟨_, rfl⟩

/-! ### Requests that lead away -/

theorem toList_of_segments {path : String} {names : List String}
    (hnames : (Path.segments path.toList).map String.ofList = names) :
    path.toList = Text.joined '/' (names.map String.toList) := by
  rw [← hnames, List.map_map]
  have hid : String.toList ∘ String.ofList = id := by
    funext cs
    simp
  rw [hid, List.map_id]
  exact (Text.joined_pieces '/' path.toList).symm

/-- A fixed administrative path is read as itself. -/
theorem underAdmin_of_fixed {path fixed : String} (hfixed : path.toList = fixed.toList)
    (hcanonical : Path.canonical? fixed = some fixed) (hunder : UnderAdmin fixed) :
    ∀ canonical, Path.canonical? path = some canonical → UnderAdmin canonical := by
  intro canonical hpath
  rw [String.toList_injective hfixed, hcanonical] at hpath
  exact Option.some.inj hpath ▸ hunder

theorem decoded?_authority (segment : List Char) :
    Path.decoded? ("/admin/authorities/".toList ++ segment) =
      (Path.decoded? segment).map ("/admin/authorities/".toList ++ ·) := by
  apply Path.decoded?_append
  simp

/-- A last segment without a slash leads at most back to `/admin`. -/
theorem underAdmin_of_plain {path : String} {segment cs : List Char}
    (hpath : path.toList = "/admin/authorities/".toList ++ segment)
    (hdecoded : Path.decoded? segment = some cs) (hplain : '/' ∉ cs) :
    ∀ canonical, Path.canonical? path = some canonical → UnderAdmin canonical := by
  have hwhole : Path.decoded? path.toList = some ("/admin/authorities/".toList ++ cs) := by
    rw [hpath, decoded?_authority, hdecoded]
    rfl
  have hsegments : Path.segments ("/admin/authorities/".toList ++ cs) =
      [[], "admin".toList, "authorities".toList, cs] := by
    have hlast := Text.pieces_of_not_mem hplain
    simp [Path.segments, Text.pieces, hlast]
  intro canonical hcanonical
  have hsame : canonical = String.ofList (Path.render (Path.resolve
      [[], "admin".toList, "authorities".toList, cs])) := by
    rw [Path.canonical?_eq, hwhole, Option.map_some, hsegments] at hcanonical
    exact (Option.some.inj hcanonical).symm
  -- the last segment is walked into, passed over, or leads one segment back
  rw [hsame]
  by_cases hstay : cs = [] ∨ cs = ['.']
  · right
    rcases hstay with rfl | rfl <;> decide
  · by_cases hback : cs = ['.', '.']
    · left
      subst hback
      decide
    · right
      have hresolve : Path.resolve [[], "admin".toList, "authorities".toList, cs] =
          ["admin".toList, "authorities".toList, cs] := by
        simp [Path.resolve, Path.walk, not_or.mp hstay, hback]
      rw [hresolve, String.toList_ofList]
      exact ⟨"authorities/".toList ++ cs, by simp [Path.render]⟩

/-- Only a request to delete an authority can lead away, and only if its last
segment holds an escaped slash. -/
theorem underAdmin_or_escaped {path : String} (hrouted : Resource.at? path = some resource)
    (hguarded : resource.isGuarded = true) :
    (∀ canonical, Path.canonical? path = some canonical → UnderAdmin canonical) ∨
      ∃ segment cs, resource = .authority segment ∧ Path.decoded? segment.toList = some cs ∧
        '/' ∈ cs := by
  -- the fixed paths are canonical already; only the last segment can vary
  unfold Resource.at? at hrouted
  split at hrouted
  case h_4 hnames =>
    exact Or.inl (@underAdmin_of_fixed _ "/admin/authz/rules" (toList_of_segments hnames)
      (by decide +kernel) (Or.inr (by decide)))
  case h_5 hnames =>
    exact Or.inl (@underAdmin_of_fixed _ "/admin/authz/reload" (toList_of_segments hnames)
      (by decide +kernel) (Or.inr (by decide)))
  case h_6 hnames =>
    exact Or.inl (@underAdmin_of_fixed _ "/admin/authorities" (toList_of_segments hnames)
      (by decide +kernel) (Or.inr (by decide)))
  case h_7 segment hnames =>
    have hpath : path.toList = "/admin/authorities/".toList ++ segment.toList := by
      rw [toList_of_segments hnames]
      rfl
    have hresource : resource = .authority segment := by
      split at hrouted
      · cases hrouted
      · exact (Option.some.inj hrouted).symm
    cases hdecoded : Path.decoded? segment.toList with
    | none =>
        left
        intro canonical hcanonical
        have hwhole : Path.decoded? path.toList = none := by
          rw [hpath, decoded?_authority, hdecoded]
          rfl
        rw [Path.canonical?_eq, hwhole] at hcanonical
        cases hcanonical
    | some cs =>
        by_cases hslash : '/' ∈ cs
        · exact Or.inr ⟨segment, cs, hresource, hdecoded, hslash⟩
        · exact Or.inl (underAdmin_of_plain hpath hdecoded hslash)
  case h_8 => cases hrouted
  all_goals
    obtain rfl := Option.some.inj hrouted
    simp [Resource.isGuarded] at hguarded

/-- A request for a guarded resource is protected, unless it names an authority by a segment
that decodes to one with a slash. -/
theorem adminSafe_or_escaped (hrouted : Resource.at? r.path = some resource)
    (hguarded : resource.isGuarded = true) :
    AdminSafe r ∨ ∃ segment cs, resource = .authority segment ∧
      Path.decoded? segment.toList = some cs ∧ '/' ∈ cs := by
  apply (underAdmin_or_escaped hrouted hguarded).imp_left
  intro hunder s authority resource hprotected hhanded
  exact hprotected.callerHolds hhanded hunder

/-- A request for a guarded resource is protected exactly if it is judged by an
administrative path. -/
theorem adminSafe_iff (hrouted : Resource.at? r.path = some resource)
    (hguarded : resource.isGuarded = true) (hmethod : resource.hasMethod r.method = true) :
    AdminSafe r ↔ ∀ path, Path.canonical? r.path = some path → UnderAdmin path := by
  constructor
  · intro hsafe path hpath
    apply Classical.byContradiction
    intro haway
    have hhanded := handed_openService hrouted hguarded hmethod hpath haway
    exact not_callerHolds_openService r _
      (hsafe (openService r) "ROLE_ADMIN" resource (adminProtected_openService r) hhanded)
  · intro hunder s authority resource hprotected hhanded
    exact hprotected.callerHolds hhanded hunder

/-- The list of the rules is protected; a deletion that climbs out of its path
with escaped slashes is not. -/
theorem not_adminSafe_of_escape :
    AdminSafe { path := "/admin/authz/rules" } ∧
      ¬ AdminSafe { method := "DELETE", path := "/admin/authorities/..%2F..%2Fx" } := by
  constructor
  · rw [@adminSafe_iff { path := "/admin/authz/rules" } .ruleList (by decide) rfl rfl]
    exact @underAdmin_of_fixed _ "/admin/authz/rules" rfl (by decide +kernel) (Or.inr (by decide))
  · rw [@adminSafe_iff { method := "DELETE", path := "/admin/authorities/..%2F..%2Fx" }
      (.authority "..%2F..%2Fx") (by decide) rfl rfl]
    intro hunder
    have haway := hunder "/x" (by decide +kernel)
    simp [UnderAdmin] at haway

end RouteGuard.Http
