import RouteGuard.Proofs.Directory.Revocation

/-! # References in a memory store

A memory store keeps references by name, and a lookup passes over a name that is
not stored. Every change checks the names that it brings in and takes away those
that it makes void. So in a store that starts from a checked seed there is
nothing to pass over, whatever is done to it.
-/

namespace RouteGuard.Directory

namespace Seed

/-- No name is used twice, and every name that is referred to is stored. -/
structure Intact (s : Seed) : Prop where
  distinct : s.Distinct
  granted : ∀ r ∈ s.roles, s.content.KnowsGrants r
  assigned : ∀ p ∈ s.principals, s.content.KnowsRoles p

/-- The stored authority of a name. -/
def AuthorityOf (s : Seed) (name : String) (a : Authority) : Prop :=
  a ∈ s.authorities ∧ a.name = name

/-- The stored role of a name, with each of its authorities in the order granted. -/
def RoleOf (s : Seed) (name : String) (role : Role) : Prop :=
  role.name = name ∧ ∃ r ∈ s.roles, r.name = name ∧
    List.Forall₂ s.AuthorityOf r.authorities role.authorities

/-- A principal as it is stored, with each of its roles in the order assigned. -/
structure PrincipalOf (s : Seed) (p : SeedPrincipal) (found : Principal) : Prop where
  username : found.username = p.username
  unset : found.roles = none ↔ p.roles = none
  roles : ∀ names roles, p.roles = some names → found.roles = some roles →
    List.Forall₂ s.RoleOf names roles

/-- A lookup finds the principals that are stored, and shows all that is stored
of them. -/
structure ShownWhole (s : Seed) : Prop where
  stranger : ∀ username, username ∉ s.principals.map (·.username) →
    (Store.memory s).find? username = .ok none
  stored : ∀ p ∈ s.principals, ∃ found,
    (Store.memory s).find? p.username = .ok (some found) ∧ s.PrincipalOf p found

variable {s next : Seed}

/-- A check passes the seeds that can be stored as they are. -/
theorem fault?_eq_none_iff : s.fault? = none ↔ NamesApart s.authorities ∧ s.Intact := by
  simp only [fault?, Option.or_eq_none_iff, authorityFault?_eq_none_iff,
    roleFault?_eq_none_iff, principalFault?_eq_none_iff]
  constructor
  · rintro ⟨⟨⟨hapart, _⟩, hroles, _, hgranted⟩, hprincipals, _, hassigned⟩
    exact ⟨hapart, ⟨hapart.nodup_names, hroles, hprincipals⟩, hgranted, hassigned⟩
  · rintro ⟨hapart, hdistinct, hgranted, hassigned⟩
    refine ⟨⟨⟨hapart, ?_⟩, hdistinct.roles, ?_, hgranted⟩, hdistinct.principals, ?_, hassigned⟩
    all_goals simp

/-! ### Changes keep the references -/

namespace Intact

variable {a : Authority} {r : SeedRole} {p : SeedPrincipal} {name : String}

theorem upsertAuthority (hintact : s.Intact) (a : Authority) : (s.upsertAuthority a).Intact where
  distinct := hintact.distinct.upsertAuthority a
  granted := by
    intro r hr name hname
    exact mem_map_putBy.mpr (Or.inr (hintact.granted r hr name hname))
  assigned := hintact.assigned

theorem withAuthority (hintact : s.Intact) (hnew : ∀ b ∈ s.authorities, b.name ≠ a.name) :
    (s.withAuthority a).Intact := by
  have hput : s.withAuthority a = s.upsertAuthority a := by
    rw [Seed.withAuthority, Seed.upsertAuthority, putBy_eq_append hnew]
  rw [hput]
  exact hintact.upsertAuthority a

/-- The grants of an authority go with it. -/
theorem withoutAuthority (hintact : s.Intact) (name : String) :
    (s.withoutAuthority name).Intact where
  distinct := hintact.distinct.withoutAuthority name
  granted := by
    intro r hr granted hgranted
    obtain ⟨stored, hstored, rfl⟩ := List.mem_map.mp hr
    obtain ⟨hlisted, hother⟩ := List.mem_filter.mp hgranted
    obtain ⟨b, hb, rfl⟩ := List.mem_map.mp (hintact.granted stored hstored granted hlisted)
    exact List.mem_map_of_mem (List.mem_filter.mpr ⟨hb, hother⟩)
  assigned := by
    intro p hp role hrole
    simpa [Seed.withoutAuthority, content] using hintact.assigned p hp role hrole

theorem upsertRole (hintact : s.Intact) (hupsert : s.upsertRole r = .ok next) :
    next.Intact := by
  obtain ⟨hknown, rfl⟩ := upsertRole_eq_ok_iff.mp hupsert
  refine ⟨⟨hintact.distinct.authorities, nodup_map_putBy hintact.distinct.roles,
    hintact.distinct.principals⟩, ?_, ?_⟩
  · intro other hother
    rcases mem_of_mem_putBy hother with rfl | hbefore
    · exact hknown
    · exact hintact.granted other hbefore
  · intro p hp role hrole
    exact mem_map_putBy.mpr (Or.inr (hintact.assigned p hp role hrole))

theorem upsertPrincipal (hintact : s.Intact) (hupsert : s.upsertPrincipal p = .ok next) :
    next.Intact := by
  obtain ⟨hknown, rfl⟩ := upsertPrincipal_eq_ok_iff.mp hupsert
  refine ⟨⟨hintact.distinct.authorities, hintact.distinct.roles,
    nodup_map_putBy hintact.distinct.principals⟩, hintact.granted, ?_⟩
  intro other hother
  rcases mem_of_mem_putBy hother with rfl | hbefore
  · exact hknown
  · exact hintact.assigned other hbefore

/-- An import may be broken off at any of its references. -/
theorem absorb (hintact : s.Intact) (seed : Seed) : (s.absorb seed).1.Intact := by
  have hauthorities : (seed.authorities.foldl Seed.upsertAuthority s).Intact :=
    List.foldlRecOn _ _ hintact fun _ hbefore a _ => hbefore.upsertAuthority a
  have hroles : (runChanges Seed.upsertRole (seed.authorities.foldl Seed.upsertAuthority s)
      seed.roles).1.Intact :=
    runChanges_keeps hauthorities seed.roles fun _ _ _ _ hbefore hchange =>
      hbefore.upsertRole hchange
  simp only [Seed.absorb]
  split
  next broken fault hbroken =>
    rw [hbroken] at hroles
    exact hroles
  next written hwritten =>
    rw [hwritten] at hroles
    exact runChanges_keeps (motive := Intact) hroles seed.principals
      fun _ _ _ _ hbefore hchange => hbefore.upsertPrincipal hchange

/-- A change keeps the references, whether or not it succeeds. -/
theorem apply (hintact : s.Intact) (c : Change) :
    ∃ t, c.apply (.memory s) = .memory t ∧ t.Intact := by
  cases c with
  | importSeed seed =>
      have habsorbed := hintact.absorb seed
      simp only [Change.apply, Store.importSeed]
      generalize s.absorb seed = absorbed at habsorbed
      obtain ⟨after, fault⟩ := absorbed
      cases fault <;> exact ⟨after, rfl, habsorbed⟩
  | create a =>
      rw [Change.apply]
      cases hcreate : (Store.memory s).create a with
      | error failure => exact ⟨s, rfl, hintact⟩
      | ok store =>
          obtain ⟨hnew, rfl⟩ := (Store.create_memory_iff s).mp hcreate
          exact ⟨_, rfl, hintact.withAuthority hnew⟩
  | delete name =>
      rw [Change.apply]
      cases hdelete : (Store.memory s).delete name with
      | error failure => exact ⟨s, rfl, hintact⟩
      | ok store =>
          obtain ⟨_, rfl⟩ := (Store.delete_memory_iff s).mp hdelete
          exact ⟨_, rfl, hintact.withoutAuthority name⟩
  | upsertAuthority a => exact ⟨_, rfl, hintact.upsertAuthority a⟩
  | upsertRole r =>
      rw [Change.apply]
      cases hupsert : s.upsertRole r with
      | error fault => exact ⟨s, rfl, hintact⟩
      | ok next => exact ⟨next, rfl, hintact.upsertRole hupsert⟩
  | upsertPrincipal p =>
      rw [Change.apply]
      cases hupsert : s.upsertPrincipal p with
      | error fault => exact ⟨s, rfl, hintact⟩
      | ok next => exact ⟨next, rfl, hintact.upsertPrincipal hupsert⟩
  | migrate => exact ⟨s, rfl, hintact⟩
  | close => exact ⟨s, rfl, hintact⟩

theorem run (hintact : s.Intact) (changes : List Change) :
    ∃ t, Change.run (.memory s) changes = .memory t ∧ t.Intact := by
  induction changes generalizing s with
  | nil => exact ⟨s, rfl, hintact⟩
  | cons c changes ih =>
      obtain ⟨next, happly, hnext⟩ := hintact.apply c
      obtain ⟨t, hrun, ht⟩ := ih hnext
      refine ⟨t, ?_, ht⟩
      rw [← hrun, ← happly]
      rfl

end Intact

/-! ### Lookups in an intact store -/

/-- Where every key is stored, none is passed over. -/
theorem forall₂_filterMap_find? {α : Type} {key : α → String} {xs : List α} {keys : List String}
    (hknown : ∀ k ∈ keys, k ∈ xs.map key) :
    List.Forall₂ (fun k x => x ∈ xs ∧ key x = k) keys
      (keys.filterMap fun k => xs.find? (key · == k)) := by
  induction keys with
  | nil => exact .nil
  | cons k keys ih =>
      rw [List.forall_mem_cons] at hknown
      obtain ⟨x, hx, hkey⟩ := List.mem_map.mp hknown.1
      cases hfind : xs.find? (key · == k) with
      | none => simpa [hkey] using List.find?_eq_none.mp hfind x hx
      | some found =>
          simp only [List.filterMap_cons, hfind]
          refine .cons ⟨List.mem_of_find?_eq_some hfind, ?_⟩ (ih hknown.2)
          simpa using List.find?_some hfind

namespace Intact

theorem authoritiesNamed (hintact : s.Intact) {r : SeedRole} (hr : r ∈ s.roles) :
    List.Forall₂ s.AuthorityOf r.authorities (s.authoritiesNamed r.authorities) :=
  forall₂_filterMap_find? (hintact.granted r hr)

theorem shownWhole (hintact : s.Intact) : s.ShownWhole where
  stranger := by
    intro username hstranger
    have hfind : s.principals.find? (·.username == username) = none := by
      rw [List.find?_eq_none]
      intro p hp hname
      exact hstranger (List.mem_map.mpr ⟨p, hp, by simpa using hname⟩)
    simp [Store.find?, findAssigned?, hfind]
  stored := by
    intro p hp
    have hfind := (find?_key_eq_some_iff hintact.distinct.principals).mpr ⟨hp, rfl⟩
    refine ⟨_, by rw [Store.find?, findAssigned?, hfind, Option.map_some], rfl, by simp, ?_⟩
    intro names roles hnames hroles
    have hknown : ∀ name ∈ names, name ∈ s.roles.map (·.name) := by
      intro name hname
      exact hintact.assigned p hp name (by simpa [hnames] using hname)
    simp only [hnames, Option.map_some, Option.some.injEq] at hroles
    subst roles
    rw [List.forall₂_map_right_iff]
    refine (forall₂_filterMap_find? hknown).imp ?_
    intro name r hr
    exact ⟨hr.2, r, hr.1, hr.2, hintact.authoritiesNamed hr.1⟩

end Intact

/-- Whatever is attempted on a memory store that starts from a checked seed, no
name is used twice in it, every name referred to is stored, and lookups show all
that is stored. A new store is that of the empty seed. -/
theorem run_intact (hchecked : s.fault? = none) (changes : List Change) :
    ∃ t, Change.run (.memory s) changes = .memory t ∧ t.Intact ∧ t.ShownWhole := by
  obtain ⟨_, hintact⟩ := fault?_eq_none_iff.mp hchecked
  obtain ⟨t, hrun, ht⟩ := hintact.run changes
  exact ⟨t, hrun, ht, ht.shownWhole⟩

/-- An import that breaks off at its second grant, a principal that is refused,
and then changes of what a role grants. -/
def troubled : List Change :=
  [.importSeed {
      authorities := [⟨"ROLE_LATE", "/late/**"⟩]
      roles := [⟨"auditor", ["ROLE_LATE", "ROLE_GHOST"]⟩] },
    .upsertPrincipal ⟨"bob", some ["auditor"]⟩, .delete "ROLE_ADMIN",
    .upsertAuthority ⟨"ROLE_REPORTS", "/moved/**"⟩,
    .upsertRole ⟨"admin", ["ROLE_REPORTS", "ROLE_REPORTS"]⟩]

/-- A principal of the seed keeps its role, which shows an authority as often as
it is granted and with the url that it has now. A store that was empty at first
stays as good. -/
theorem run_intact_troubled :
    (Store.granting.fault? = none ∧ ∃ t found roles,
        Change.run (.memory Store.granting) troubled = .memory t ∧ t.Intact ∧
        (Store.memory t).find? "alice" = .ok (some found) ∧ found.roles = some roles ∧
        List.Forall₂ t.RoleOf ["admin"] roles ∧
        roles = [⟨"admin",
          [⟨"ROLE_REPORTS", "/moved/**"⟩, ⟨"ROLE_REPORTS", "/moved/**"⟩]⟩]) ∧
      ({} : Seed).fault? = none ∧
        ∃ t, Change.run (.memory {}) troubled = .memory t ∧ t.Intact ∧ t.ShownWhole := by
  have hgranting : Store.granting.fault? = none := by decide +kernel
  refine ⟨⟨hgranting, ?_⟩, rfl, run_intact rfl troubled⟩
  obtain ⟨t, hrun, hintact, hwhole⟩ := run_intact hgranting troubled
  have hstored : (⟨"alice", some ["admin"]⟩ : SeedPrincipal) ∈ t.principals := by
    cases hrun
    decide +kernel
  obtain ⟨found, hfind, hfound⟩ := hwhole.stored _ hstored
  cases hroles : found.roles with
  | none => cases hfound.unset.mp hroles
  | some roles =>
      refine ⟨t, found, roles, hrun, hintact, hfind, hroles, hfound.roles _ _ rfl hroles, ?_⟩
      cases hrun
      cases hfind
      cases hroles
      decide +kernel

end Seed

end RouteGuard.Directory
