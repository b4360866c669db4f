import RouteGuard.Proofs.Directory.Consistency
import RouteGuard.Proofs.Directory.Upsert

/-! # Failed imports

A database takes a seed in as a whole or not at all. A memory store takes it in
record by record and stops at the first reference that leads nowhere, and keeps
what it has taken in by then. So a failed import leaves no trace there only if
what it took in was there already, as far as it is seen.
-/

namespace RouteGuard.Directory

/-- A listing and all lookups answer in one store as in the other. -/
structure Store.Untraced (store next : Store) : Prop where
  list : next.list = store.list
  find? : ∀ username, next.find? username = store.find? username

namespace Seed

/-! ### Where an import breaks off -/

/-- The import of a seed into the records breaks off at its first reference to
what is neither stored nor listed. Grants are checked when all authorities have
been put in, and assignments when all roles have been. The part in front of that
record is taken in. -/
inductive BrokenOff (s seed : Seed) : Seed → SeedFault → Prop
  | atRole {before after : List SeedRole} {r : SeedRole} {known more : List String}
      {missing : String} (split : seed.roles = before ++ r :: after)
      (earlier : ∀ q ∈ before, ∀ name ∈ q.authorities,
        ∃ a ∈ seed.authorities ++ s.authorities, a.name = name)
      (granted : r.authorities = known ++ missing :: more)
      (found : ∀ name ∈ known, ∃ a ∈ seed.authorities ++ s.authorities, a.name = name)
      (unknown : ∀ a ∈ seed.authorities ++ s.authorities, a.name ≠ missing) :
      BrokenOff s seed { authorities := seed.authorities, roles := before }
        (.unknownAuthority r.name missing)
  | atPrincipal {before after : List SeedPrincipal} {p : SeedPrincipal} {known more : List String}
      {missing : String} (split : seed.principals = before ++ p :: after)
      (granted : ∀ r ∈ seed.roles, ∀ name ∈ r.authorities,
        ∃ a ∈ seed.authorities ++ s.authorities, a.name = name)
      (earlier : ∀ q ∈ before, ∀ name ∈ q.roles.getD [],
        ∃ r ∈ seed.roles ++ s.roles, r.name = name)
      (assigned : p.roles = some (known ++ missing :: more))
      (found : ∀ name ∈ known, ∃ r ∈ seed.roles ++ s.roles, r.name = name)
      (unknown : ∀ r ∈ seed.roles ++ s.roles, r.name ≠ missing) :
      BrokenOff s seed { seed with principals := before } (.unknownRole p.username missing)

variable {s next seed taken : Seed} {fault : SeedFault}

/-- Changes that all are made can be told apart from those behind them. -/
theorem runChanges_append {α : Type} {change : Seed → α → Except SeedFault Seed}
    {xs : List α} {mid : Seed} (hfirst : runChanges change s xs = (mid, none)) (ys : List α) :
    runChanges change s (xs ++ ys) = runChanges change mid ys := by
  induction xs generalizing s with
  | nil =>
      cases hfirst
      rfl
  | cons x xs ih =>
      rw [runChanges] at hfirst
      rw [List.cons_append, runChanges]
      cases hx : change s x with
      | error first =>
          rw [hx] at hfirst
          cases hfirst
      | ok changed =>
          rw [hx] at hfirst
          exact ih hfirst

/-- Changes run up to the first that is refused. -/
theorem runChanges_eq_some_iff {α : Type} {change : Seed → α → Except SeedFault Seed}
    {xs : List α} :
    runChanges change s xs = (next, some fault) ↔
      ∃ before x after, xs = before ++ x :: after ∧ runChanges change s before = (next, none) ∧
        change next x = .error fault := by
  constructor
  · intro hbroken
    induction xs generalizing s with
    | nil => cases hbroken
    | cons x xs ih =>
        rw [runChanges] at hbroken
        cases hx : change s x with
        | error first =>
            rw [hx] at hbroken
            cases hbroken
            exact ⟨[], x, xs, rfl, rfl, hx⟩
        | ok changed =>
            rw [hx] at hbroken
            obtain ⟨before, y, after, rfl, hbefore, hy⟩ := ih hbroken
            exact ⟨x :: before, y, after, rfl, by rw [runChanges, hx, ← hbefore], hy⟩
  · rintro ⟨before, x, after, rfl, hbefore, hx⟩
    rw [runChanges_append hbefore, runChanges, hx]

theorem find?_eq_unknown? {α : Type} (key : α → String) (xs : List α) (names : List String) :
    names.find? (fun name => !xs.any (key · == name)) = unknown? (xs.map key) names := by
  rw [unknown?]
  congr 1
  ext name
  rw [Bool.eq_iff_iff]
  simp

theorem upsertRole_eq_error_iff {r : SeedRole} :
    s.upsertRole r = .error fault ↔
      ∃ missing, unknown? (s.authorities.map (·.name)) r.authorities = some missing ∧
        fault = .unknownAuthority r.name missing := by
  rw [upsertRole, find?_eq_unknown? Authority.name]
  cases unknown? (s.authorities.map (·.name)) r.authorities <;> simp [eq_comm]

theorem upsertPrincipal_eq_error_iff {p : SeedPrincipal} :
    s.upsertPrincipal p = .error fault ↔
      ∃ missing, unknown? (s.roles.map (·.name)) (p.roles.getD []) = some missing ∧
        fault = .unknownRole p.username missing := by
  rw [upsertPrincipal, find?_eq_unknown? SeedRole.name]
  cases unknown? (s.roles.map (·.name)) (p.roles.getD []) <;> simp [eq_comm]

/-- What is put in is known, and so is what was there. -/
theorem mem_map_putAll_iff_exists {α : Type} {key : α → String} {xs ys : List α} {k : String} :
    k ∈ (putAll key xs ys).map key ↔ ∃ x ∈ xs ++ ys, key x = k := by
  rw [mem_map_putAll, ← List.mem_append, ← List.map_append, List.mem_map]

theorem unknown?_putAll_iff {α : Type} {key : α → String} {xs ys : List α} {names : List String}
    {missing : String} :
    unknown? ((putAll key xs ys).map key) names = some missing ↔
      ∃ known more, names = known ++ missing :: more ∧
        (∀ n ∈ known, ∃ x ∈ xs ++ ys, key x = n) ∧ ∀ x ∈ xs ++ ys, key x ≠ missing := by
  simp only [unknown?_eq_some_iff, mem_map_putAll_iff_exists, not_exists, not_and, ne_eq]

theorem absorb_eq_some_iff :
    s.absorb seed = (next, some fault) ↔
      runChanges upsertRole (seed.authorities.foldl upsertAuthority s) seed.roles =
          (next, some fault) ∨
        ∃ written, runChanges upsertRole (seed.authorities.foldl upsertAuthority s) seed.roles =
            (written, none) ∧
          runChanges upsertPrincipal written seed.principals = (next, some fault) := by
  rw [absorb]
  split
  next broken first hroles => simp [hroles]
  next written hroles => simp [hroles]

/-- An import that fails has taken in the part of the seed in front of the record
that it failed at. -/
theorem absorb_eq_some_iff_brokenOff :
    s.absorb seed = (next, some fault) ↔
      ∃ taken, s.BrokenOff seed taken fault ∧ next = s.upsert taken := by
  rw [absorb_eq_some_iff, foldl_upsertAuthority]
  simp only [runChanges_eq_some_iff, runChanges_upsertRole_iff, runChanges_upsertPrincipal_iff,
    upsertRole_eq_error_iff, upsertPrincipal_eq_error_iff]
  constructor
  · rintro (⟨before, r, after, hsplit, ⟨hearlier, rfl⟩, missing, hmissing, rfl⟩ |
      ⟨_, ⟨hgranted, rfl⟩, before, p, after, hsplit, ⟨hearlier, rfl⟩, missing, hmissing, rfl⟩)
    · obtain ⟨known, more, hgrants, hfound, hunknown⟩ := unknown?_putAll_iff.mp hmissing
      refine ⟨_, .atRole hsplit ?_ hgrants hfound hunknown, rfl⟩
      exact fun q hq name hname => mem_map_putAll_iff_exists.mp (hearlier q hq name hname)
    · obtain ⟨known, more, hassigned, hfound, hunknown⟩ := unknown?_putAll_iff.mp hmissing
      refine ⟨_, .atPrincipal hsplit ?_ ?_ (roles_of_getD hassigned) hfound hunknown, rfl⟩
      · exact fun r hr name hname => mem_map_putAll_iff_exists.mp (hgranted r hr name hname)
      · exact fun q hq name hname => mem_map_putAll_iff_exists.mp (hearlier q hq name hname)
  · rintro ⟨_, hbroken, rfl⟩
    cases hbroken with
    | atRole hsplit hearlier hgrants hfound hunknown =>
        refine Or.inl ⟨_, _, _, hsplit, ⟨?_, rfl⟩, _,
          unknown?_putAll_iff.mpr ⟨_, _, hgrants, hfound, hunknown⟩, rfl⟩
        exact fun q hq name hname => mem_map_putAll_iff_exists.mpr (hearlier q hq name hname)
    | atPrincipal hsplit hgranted hearlier hassigned hfound hunknown =>
        have hmissing := unknown?_putAll_iff.mpr
          ⟨_, _, congrArg (·.getD []) hassigned, hfound, hunknown⟩
        refine Or.inr ⟨_, ⟨?_, rfl⟩, _, _, _, hsplit, ⟨?_, rfl⟩, _, hmissing, rfl⟩
        · exact fun r hr name hname => mem_map_putAll_iff_exists.mpr (hgranted r hr name hname)
        · exact fun q hq name hname => mem_map_putAll_iff_exists.mpr (hearlier q hq name hname)

/-! ### What a lookup shows -/

/-- A role as it is shown: with those of its grants that are stored. -/
def shownRole (s : Seed) (r : SeedRole) : Role where
  name := r.name
  authorities := s.authoritiesNamed r.authorities

def shownRole? (s : Seed) (name : String) : Option Role :=
  (s.roles.find? (·.name == name)).map s.shownRole

/-- A principal as it is shown: with those of its roles that are stored. -/
def shownPrincipal (s : Seed) (p : SeedPrincipal) : Principal where
  username := p.username
  roles := p.roles.map (·.filterMap s.shownRole?)

theorem findAssigned?_eq (s : Seed) (username : String) :
    s.findAssigned? username =
      (s.principals.find? (·.username == username)).map s.shownPrincipal := by
  simp only [findAssigned?, List.map_filterMap]
  rfl

theorem name_of_shownRole? {name : String} {role : Role} (hshown : s.shownRole? name = some role) :
    role.name = name := by
  obtain ⟨r, hfind, rfl⟩ := Option.map_eq_some_iff.mp hshown
  have hname : r.name = name := by simpa using List.find?_some hfind
  exact hname

/-- Some principal that a lookup finds holds the role. -/
def Held (s : Seed) (name : String) : Prop :=
  ∃ username p, s.principals.find? (·.username == username) = some p ∧ name ∈ p.roles.getD []

/-- What is taken in was there already, as far as it is seen: where several
records have one name, the last of them counts, and a role only if it is held. -/
structure Redundant (s taken : Seed) : Prop where
  authorities : ∀ name a, lastBy (·.name) taken.authorities name = some a →
    s.authorities.find? (·.name == name) = some a
  roles : ∀ name r, lastBy (·.name) taken.roles name = some r → (s.upsert taken).Held name →
    s.shownRole? name = some (s.shownRole r)
  principals : ∀ username p, lastBy (·.username) taken.principals username = some p →
    s.findAssigned? username = some (s.shownPrincipal p)

/-- With the same authorities, a role is shown as it was unless one of its name
has been put in. -/
theorem shownRole?_upsert (hlist : (s.upsert taken).authorities = s.authorities) (name : String) :
    (s.upsert taken).shownRole? name =
      ((lastBy (·.name) taken.roles name).map s.shownRole).or (s.shownRole? name) := by
  have hshown : (s.upsert taken).shownRole = s.shownRole := by
    funext r
    rw [shownRole, shownRole, authoritiesNamed, authoritiesNamed, hlist]
  rw [shownRole?, hshown, upsert, find?_putAll, Option.map_or, shownRole?]

/-- A principal is shown with the roles that were there, where those that it
holds were shown already. -/
theorem shownPrincipal_upsert (hlist : (s.upsert taken).authorities = s.authorities)
    (hroles : ∀ name r, lastBy (·.name) taken.roles name = some r → (s.upsert taken).Held name →
      s.shownRole? name = some (s.shownRole r))
    {username : String} {p : SeedPrincipal}
    (hfind : (s.upsert taken).principals.find? (·.username == username) = some p) :
    (s.upsert taken).shownPrincipal p = s.shownPrincipal p := by
  rw [shownPrincipal, shownPrincipal]
  cases hnames : p.roles with
  | none => rfl
  | some names =>
      have hsame : names.filterMap (s.upsert taken).shownRole? = names.filterMap s.shownRole? := by
        refine List.filterMap_congr fun name hname => ?_
        rw [shownRole?_upsert hlist]
        cases hlast : lastBy (·.name) taken.roles name with
        | none => rfl
        | some r =>
            have hheld : (s.upsert taken).Held name := ⟨username, p, hfind, by simpa [hnames]⟩
            exact (hroles name r hlast hheld).symm
      rw [Option.map_some, Option.map_some, hsame]

theorem find?_principals_upsert (s taken : Seed) (username : String) :
    (s.upsert taken).principals.find? (·.username == username) =
      (lastBy (·.username) taken.principals username).or
        (s.principals.find? (·.username == username)) :=
  find?_putAll ..

/-- A role that a principal holds is shown to be the one that was there. -/
theorem shownRole?_of_untraced (hlist : (s.upsert taken).authorities = s.authorities)
    (hfind : ∀ username, (s.upsert taken).findAssigned? username = s.findAssigned? username)
    {name : String} {r : SeedRole} (hlast : lastBy (·.name) taken.roles name = some r)
    (hheld : (s.upsert taken).Held name) : s.shownRole? name = some (s.shownRole r) := by
  obtain ⟨username, p, hp, hname⟩ := hheld
  have hshown : (s.upsert taken).shownRole? name = some (s.shownRole r) := by
    rw [shownRole?_upsert hlist, hlast]
    rfl
  have hfound := hfind username
  rw [findAssigned?_eq, findAssigned?_eq, hp, Option.map_some, eq_comm,
    Option.map_eq_some_iff] at hfound
  obtain ⟨q, _, hsame⟩ := hfound
  cases hnames : p.roles with
  | none => simp [hnames] at hname
  | some names =>
      -- the role is among those shown before, and there it can only stand under its name
      rw [hnames, Option.getD_some] at hname
      have hroles : q.roles.map (·.filterMap s.shownRole?) =
          some (names.filterMap (s.upsert taken).shownRole?) := by
        have := congrArg Principal.roles hsame
        rwa [shownPrincipal, shownPrincipal, hnames] at this
      obtain ⟨earlier, _, hearlier⟩ := Option.map_eq_some_iff.mp hroles
      have hmem : s.shownRole r ∈ earlier.filterMap s.shownRole? := by
        rw [hearlier]
        exact List.mem_filterMap.mpr ⟨name, hname, hshown⟩
      obtain ⟨other, _, hother⟩ := List.mem_filterMap.mp hmem
      rwa [← (name_of_shownRole? hother).symm.trans (name_of_shownRole? hshown)]

theorem untraced_upsert_iff :
    (Store.memory s).Untraced (.memory (s.upsert taken)) ↔ s.Redundant taken := by
  constructor
  · rintro ⟨hlist, hfind⟩
    replace hlist : (s.upsert taken).authorities = s.authorities := Except.ok.inj hlist
    replace hfind : ∀ username, (s.upsert taken).findAssigned? username =
        s.findAssigned? username := fun username => Except.ok.inj (hfind username)
    have hroles : ∀ name r, lastBy (·.name) taken.roles name = some r →
        (s.upsert taken).Held name → s.shownRole? name = some (s.shownRole r) :=
      fun _ _ => shownRole?_of_untraced hlist hfind
    refine ⟨putAll_eq_self_iff.mp hlist, hroles, fun username p hlast => ?_⟩
    have hp : (s.upsert taken).principals.find? (·.username == username) = some p := by
      rw [find?_principals_upsert, hlast, Option.some_or]
    rw [← hfind, findAssigned?_eq, hp, Option.map_some, shownPrincipal_upsert hlist hroles hp]
  · intro hredundant
    have hlist : (s.upsert taken).authorities = s.authorities :=
      putAll_eq_self_iff.mpr hredundant.authorities
    refine ⟨congrArg Except.ok hlist, fun username => congrArg Except.ok ?_⟩
    rw [findAssigned?_eq]
    cases hp : (s.upsert taken).principals.find? (·.username == username) with
    | none =>
        rw [find?_principals_upsert, Option.or_eq_none_iff] at hp
        rw [findAssigned?_eq, hp.2]
        rfl
    | some p =>
        rw [Option.map_some, shownPrincipal_upsert hlist hredundant.roles hp]
        rw [find?_principals_upsert, Option.or_eq_some_iff] at hp
        rcases hp with hlast | ⟨_, hstored⟩
        · exact (hredundant.principals username p hlast).symm
        · rw [findAssigned?_eq, hstored, Option.map_some]

end Seed

namespace Store

theorem importSeed_memory_eq_error_iff {s seed : Seed} {next : Store} {failure : Failure} :
    ((memory s).importSeed seed).value = (next, .error failure) ↔
      ∃ taken fault, s.BrokenOff seed taken fault ∧ failure = .invalid fault.message ∧
        next = memory (s.upsert taken) := by
  have habsorb : ((memory s).importSeed seed).value = (next, .error failure) ↔
      ∃ after fault, s.absorb seed = (after, some fault) ∧ failure = .invalid fault.message ∧
        next = memory after := by
    rw [importSeed]
    obtain ⟨after, _ | fault⟩ := s.absorb seed
    · simp
    · simp [eq_comm, and_comm]
  rw [habsorb]
  simp only [Seed.absorb_eq_some_iff_brokenOff]
  constructor
  · rintro ⟨_, fault, ⟨taken, hbroken, rfl⟩, hfailure, hnext⟩
    exact ⟨taken, fault, hbroken, hfailure, hnext⟩
  · rintro ⟨taken, fault, hbroken, hfailure, hnext⟩
    exact ⟨_, fault, ⟨taken, hbroken, rfl⟩, hfailure, hnext⟩

theorem eq_of_importSeed_database {d : Database} {seed : Seed} {next : Store} {failure : Failure}
    (hfailed : ((database d).importSeed seed).value = (next, .error failure)) :
    next = database d := by
  rw [importSeed] at hfailed
  cases himport : d.importSeed seed with
  | error first =>
      rw [himport] at hfailed
      cases hfailed
      rfl
  | ok written =>
      rw [himport] at hfailed
      cases hfailed

/-- A failed import leaves no trace in a database. In a memory store it leaves
none exactly if what it took in, up to the reference that it broke off at, was
there already. -/
theorem untraced_iff {store next : Store} {seed : Seed} {failure : Failure}
    (hfailed : (store.importSeed seed).value = (next, .error failure)) :
    (store.Untraced next ↔ ∀ s taken fault, store = memory s → s.BrokenOff seed taken fault →
      s.Redundant taken) ∧
    (∀ d, store = database d → next = store) ∧
    ∀ s, store = memory s → ∃ taken fault, s.BrokenOff seed taken fault ∧
      failure = .invalid fault.message ∧ next = memory (s.upsert taken) := by
  cases store with
  | memory s =>
      have heffect := importSeed_memory_eq_error_iff.mp hfailed
      refine ⟨⟨?_, ?_⟩, nofun, fun _ hs => Store.memory.inj hs ▸ heffect⟩
      · rintro huntraced _ taken fault ⟨⟩ hbroken
        -- an import breaks off in one way only
        have hagain := importSeed_memory_eq_error_iff.mpr ⟨taken, fault, hbroken, rfl, rfl⟩
        obtain rfl := congrArg Prod.fst (hfailed.symm.trans hagain)
        exact Seed.untraced_upsert_iff.mp huntraced
      · intro hredundant
        obtain ⟨taken, fault, hbroken, _, rfl⟩ := heffect
        exact Seed.untraced_upsert_iff.mpr (hredundant s taken fault rfl hbroken)
  | database d =>
      obtain rfl := eq_of_importSeed_database hfailed
      exact ⟨⟨nofun, fun _ => ⟨rfl, fun _ => rfl⟩⟩, fun _ _ => rfl, nofun⟩

/-- An authority that is there. -/
def listed : Seed where
  authorities := [⟨"ROLE_A", "/a/**"⟩]

/-- A role that grants an authority which is nowhere, behind a new one. -/
def ghostGrant : Seed where
  authorities := [⟨"ROLE_B", "/b/**"⟩]
  roles := [⟨"r", ["ROLE_GHOST"]⟩]

/-- The import of the role fails, and the authority in front of it stays. -/
theorem not_untraced_ghostGrant :
    ∃ next failure, ((memory listed).importSeed ghostGrant).value = (next, .error failure) ∧
      ¬(memory listed).Untraced next ∧
      next.list = .ok [⟨"ROLE_A", "/a/**"⟩, ⟨"ROLE_B", "/b/**"⟩] := by
  have hbroken : listed.BrokenOff ghostGrant { authorities := ghostGrant.authorities }
      (.unknownAuthority "r" "ROLE_GHOST") :=
    .atRole (r := ⟨"r", ["ROLE_GHOST"]⟩) rfl nofun (List.nil_append _).symm nofun (by decide)
  refine ⟨_, _, rfl, fun huntraced => ?_, by decide +kernel⟩
  have hredundant := (untraced_iff rfl).1.mp huntraced _ _ _ rfl hbroken
  cases hredundant.authorities "ROLE_B" _ rfl

end Store

end RouteGuard.Directory
