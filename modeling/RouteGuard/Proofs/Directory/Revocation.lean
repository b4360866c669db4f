import RouteGuard.Proofs.Directory.Lookup

/-! # Authorities that are deleted

Deleting an authority takes it from every role for good. Neither its name stored
anew nor roles assigned anew bring a grant back; that takes a change that lists
the name among the grants of a role.
-/

namespace RouteGuard.Directory

/-- An attempt to change a store. Single records can be written into a memory
store alone. -/
inductive Change
  | importSeed (seed : Seed)
  | create (a : Authority)
  | delete (name : String)
  | upsertAuthority (a : Authority)
  | upsertRole (r : SeedRole)
  | upsertPrincipal (p : SeedPrincipal)
  | migrate
  | close
  deriving DecidableEq

namespace Change

/-- The store after the attempt. What fails leaves it as it was, except for an
import, which a memory store may break off. -/
def apply (store : Store) : Change → Store
  | importSeed seed => (store.importSeed seed).value.1
  | create a => (store.create a).toOption.getD store
  | delete name => (store.delete name).toOption.getD store
  | upsertAuthority a =>
    match store with
    | .memory s => .memory (s.upsertAuthority a)
    | .database d => .database d
  | upsertRole r =>
    match store with
    | .memory s => .memory ((s.upsertRole r).toOption.getD s)
    | .database d => .database d
  | upsertPrincipal p =>
    match store with
    | .memory s => .memory ((s.upsertPrincipal p).toOption.getD s)
    | .database d => .database d
  | migrate => store.migrate.value.1
  | close => store.close

/-- The store after attempts in turn. -/
def run (store : Store) (changes : List Change) : Store := changes.foldl apply store

/-- The change lists the name among the grants of a role. -/
def Lists (name : String) : Change → Prop
  | importSeed seed => ∃ r ∈ seed.roles, name ∈ r.authorities
  | upsertRole r => name ∈ r.authorities
  | _ => False

end Change

/-- No role grants an authority of the name. -/
def Content.Ungranted (c : Content) (name : String) : Prop := ∀ role, ¬ c.Grants role name

namespace Content.Ungranted

variable {c : Content} {name : String}

/-- After its deletion an authority is granted to no role. -/
theorem deleted (c : Content) (name : String) : (c.deleteAuthority name).Ungranted name :=
  fun _ hgrant => hgrant.2 rfl

/-- Deleting another authority grants nothing. -/
theorem deleteAuthority (hnone : c.Ungranted name) (other : String) :
    (c.deleteAuthority other).Ungranted name :=
  fun role hgrant => hnone role hgrant.1

/-- A role that does not list the name is not granted it. -/
theorem writeRole (hnone : c.Ungranted name) {r : SeedRole} (hother : name ∉ r.authorities) :
    (c.writeRole r).Ungranted name := by
  rintro role (⟨hbefore, _⟩ | ⟨_, hlisted, _⟩)
  · exact hnone role hbefore
  · exact hother hlisted

/-- Only the roles of a seed bear on what is granted. -/
theorem write (hnone : c.Ungranted name) {seed : Seed}
    (hother : ∀ r ∈ seed.roles, name ∉ r.authorities) : (c.write seed).Ungranted name := by
  refine write_keeps (motive := fun c => c.Ungranted name) hnone seed ?_ ?_ ?_
  · exact fun _ _ hbefore => hbefore
  · exact fun _ r hr hbefore => writeRole hbefore (hother r hr)
  · exact fun _ _ hbefore => hbefore

end Content.Ungranted

/-! ### The memory store -/

namespace Seed

variable {s next : Seed} {name : String}

/-- What every change keeps is kept by those that are made before a fault. -/
theorem runChanges_keeps {α : Type} {change : Seed → α → Except SeedFault Seed}
    {motive : Seed → Prop} (hs : motive s) (xs : List α)
    (hchange : ∀ s x next, x ∈ xs → motive s → change s x = .ok next → motive next) :
    motive (runChanges change s xs).1 := by
  induction xs generalizing s with
  | nil => exact hs
  | cons x xs ih =>
      unfold runChanges
      cases hx : change s x with
      | error fault => exact hs
      | ok next =>
          apply ih (hchange s x next List.mem_cons_self hs hx)
          exact fun s y next hy => hchange s y next (List.mem_cons_of_mem _ hy)

/-- What is there after an element was put in was there before, or is that element. -/
theorem mem_of_mem_putBy {α : Type} {key : α → String} {x y : α} {xs : List α}
    (hmem : y ∈ putBy key x xs) : y = x ∨ y ∈ xs := by
  induction xs with
  | nil => simpa [putBy] using hmem
  | cons z xs ih =>
      unfold putBy at hmem
      split at hmem <;> grind

theorem ungranted_upsertRole (hnone : s.content.Ungranted name) {r : SeedRole}
    (hother : name ∉ r.authorities) (hupsert : s.upsertRole r = .ok next) :
    next.content.Ungranted name := by
  obtain ⟨_, rfl⟩ := upsertRole_eq_ok_iff.mp hupsert
  rintro role ⟨stored, hstored, rfl, hgrant⟩
  rcases mem_of_mem_putBy hstored with rfl | hbefore
  · exact hother hgrant
  · exact hnone stored.name ⟨stored, hbefore, rfl, hgrant⟩

theorem ungranted_upsertPrincipal (hnone : s.content.Ungranted name) {p : SeedPrincipal}
    (hupsert : s.upsertPrincipal p = .ok next) : next.content.Ungranted name := by
  obtain ⟨_, rfl⟩ := upsertPrincipal_eq_ok_iff.mp hupsert
  exact hnone

/-- An import whose roles do not list the name does not grant it, even one that breaks off. -/
theorem ungranted_absorb (hnone : s.content.Ungranted name) {seed : Seed}
    (hother : ∀ r ∈ seed.roles, name ∉ r.authorities) :
    (s.absorb seed).1.content.Ungranted name := by
  let Kept (s : Seed) : Prop := s.content.Ungranted name
  have hauthorities : Kept (seed.authorities.foldl upsertAuthority s) :=
    List.foldlRecOn _ _ hnone fun _ hbefore _ _ => hbefore
  have hroles : Kept (runChanges upsertRole (seed.authorities.foldl upsertAuthority s)
      seed.roles).1 :=
    runChanges_keeps hauthorities seed.roles fun _ r _ hr hbefore =>
      ungranted_upsertRole hbefore (hother r hr)
  simp only [absorb]
  split
  next broken fault hbroken =>
    rw [hbroken] at hroles
    exact hroles
  next written hwritten =>
    rw [hwritten] at hroles
    exact runChanges_keeps (motive := Kept) hroles seed.principals fun _ _ _ _ hbefore =>
      ungranted_upsertPrincipal hbefore

/-- What a lookup shows of a role, the store grants. -/
theorem grants_of_findAssigned {username : String} {p : Principal} {roles : List Role}
    (hfind : s.findAssigned? username = some p) (hroles : p.roles = some roles) {r : Role}
    (hr : r ∈ roles) {a : Authority} (ha : a ∈ r.authorities) :
    s.content.Grants r.name a.name := by
  obtain ⟨stored, _, rfl⟩ := Option.map_eq_some_iff.mp hfind
  obtain ⟨names, _, rfl⟩ := Option.map_eq_some_iff.mp hroles
  obtain ⟨role, hrole, rfl⟩ := List.mem_map.mp hr
  obtain ⟨_, _, hfound⟩ := List.mem_filterMap.mp hrole
  obtain ⟨name, hname, hauthority⟩ := List.mem_filterMap.mp ha
  have hsame : a.name = name := by simpa using List.find?_some hauthority
  exact ⟨role, List.mem_of_find?_eq_some hfound, rfl, hsame ▸ hname⟩

end Seed

/-- What a lookup shows under a role is granted to it. -/
theorem Tables.grants_of_findBetween {t : Tables} {username : String} {p : Principal}
    {roles : List Role} (hfind : t.findBetween? t username = some p)
    (hroles : p.roles = some roles) {r : Role} (hr : r ∈ roles) {a : Authority}
    (ha : a ∈ r.authorities) : t.content.Grants r.name a.name := by
  have hview := t.view_findBetween username
  rw [hfind, Option.map_some, eq_comm, Content.find?] at hview
  obtain ⟨row, _, hrow⟩ := Option.map_eq_some_iff.mp hview
  have hset := congrArg Prod.snd hrow
  simp only [Principal.view, hroles, Option.map_some] at hset
  split at hset
  · have hmem : (r.name, {b | b ∈ r.authorities}) ∈ t.content.rolesOf row.username := by
      rw [Option.some.inj hset]
      exact ⟨r, hr, rfl⟩
    obtain ⟨role, _, _, hsame⟩ := hmem
    obtain ⟨hname, hauthorities⟩ := Prod.mk.inj hsame
    have hgranted : a ∈ {b | b ∈ r.authorities} := ha
    rw [hauthorities] at hgranted
    exact hname ▸ hgranted.2
  · cases hset

/-! ### Either backend -/

/-- No role that the store keeps grants an authority of the name. -/
def Store.Ungranted (store : Store) (name : String) : Prop :=
  ∀ c, store.content? = some c → c.Ungranted name

namespace Store

variable {store next : Store} {name : String}

/-- After a deletion the name is ungranted on either backend. -/
theorem ungranted_of_delete (hdelete : store.delete name = .ok next) : next.Ungranted name := by
  obtain ⟨c, _, hnext⟩ := content?_delete hdelete
  intro c' hc'
  obtain rfl := Option.some.inj (hnext.symm.trans hc')
  exact .deleted c name

namespace Ungranted

/-- Creating an authority grants it to no role. -/
theorem create (hnone : store.Ungranted name) {a : Authority}
    (hcreate : store.create a = .ok next) : next.Ungranted name := by
  obtain ⟨c, hc, hnext⟩ := content?_create hcreate
  intro c' hc'
  obtain rfl := Option.some.inj (hnext.symm.trans hc')
  exact hnone c hc

theorem delete (hnone : store.Ungranted name) {removed : String}
    (hdelete : store.delete removed = .ok next) : next.Ungranted name := by
  obtain ⟨c, hc, hnext⟩ := content?_delete hdelete
  intro c' hc'
  obtain rfl := Option.some.inj (hnext.symm.trans hc')
  exact (hnone c hc).deleteAuthority removed

/-- An import whose roles do not list the name does not grant it. -/
theorem importSeed (hnone : store.Ungranted name) {seed : Seed}
    (hother : ∀ r ∈ seed.roles, name ∉ r.authorities) :
    (store.importSeed seed).value.1.Ungranted name := by
  cases store with
  | memory s =>
      have hkept := Seed.ungranted_absorb (hnone _ rfl) hother
      simp only [Store.importSeed]
      split
      next after habsorb =>
        rw [habsorb] at hkept
        rintro _ ⟨⟩
        exact hkept
      next after fault habsorb =>
        rw [habsorb] at hkept
        rintro _ ⟨⟩
        exact hkept
  | database d =>
      simp only [Store.importSeed]
      split
      next failure hfailed => exact hnone
      next after himport =>
        unfold Database.importSeed at himport
        split at himport
        · split at himport
          · cases himport
          · cases himport
            exact hnone
        next table _ =>
          cases hopened : d.opened table with
          | error failure => simp [hopened, Except.map] at himport
          | ok t =>
              rw [hopened] at himport
              cases himport
              rintro _ ⟨⟩
              rw [Tables.content_write]
              exact (hnone _ (content?_of_opened hopened)).write hother

theorem migrate (hnone : store.Ungranted name) : store.migrate.value.1.Ungranted name := by
  cases store with
  | memory s => exact hnone
  | database d =>
      cases hmigrate : d.migrate with
      | error failure => simpa [Store.migrate, hmigrate] using hnone
      | ok after =>
          have hafter : (Store.database d).migrate.value.1 = .database after := by
            simp [Store.migrate, hmigrate]
          rw [hafter]
          unfold Database.migrate at hmigrate
          split at hmigrate
          · cases hmigrate
          · cases hmigrate
            cases htables : d.tables with
            | some t =>
                rintro _ ⟨⟩
                exact hnone _ (by simp [content?, htables])
            | none =>
                -- new tables hold no links
                rintro _ ⟨⟩ role ⟨_, _, hlink, _⟩
                cases hlink

theorem close (hnone : store.Ungranted name) : store.close.Ungranted name := by
  cases store <;> exact hnone

/-- An attempt that does not list the name brings no grant of it. -/
theorem apply (hnone : store.Ungranted name) {c : Change} (hother : ¬ c.Lists name) :
    (c.apply store).Ungranted name := by
  cases c with
  | importSeed seed => exact hnone.importSeed fun r hr hlisted => hother ⟨r, hr, hlisted⟩
  | create a =>
      rw [Change.apply]
      cases hcreate : store.create a with
      | error failure => exact hnone
      | ok next => exact hnone.create hcreate
  | delete removed =>
      rw [Change.apply]
      cases hdelete : store.delete removed with
      | error failure => exact hnone
      | ok next => exact hnone.delete hdelete
  | upsertAuthority a =>
      cases store with
      | memory s =>
          have hbefore : s.content.Ungranted name := hnone _ rfl
          rintro _ ⟨⟩
          exact hbefore
      | database d => exact hnone
  | upsertRole r =>
      cases store with
      | memory s =>
          rw [Change.apply]
          cases hupsert : s.upsertRole r with
          | error fault => exact hnone
          | ok next =>
              rintro _ ⟨⟩
              exact Seed.ungranted_upsertRole (hnone _ rfl) hother hupsert
      | database d => exact hnone
  | upsertPrincipal p =>
      cases store with
      | memory s =>
          rw [Change.apply]
          cases hupsert : s.upsertPrincipal p with
          | error fault => exact hnone
          | ok next =>
              rintro _ ⟨⟩
              exact Seed.ungranted_upsertPrincipal (hnone _ rfl) hupsert
      | database d => exact hnone
  | migrate => exact hnone.migrate
  | close => exact hnone.close

/-- The name stays ungranted along changes that do not list it. -/
theorem run (hnone : store.Ungranted name) {changes : List Change}
    (hother : ∀ c ∈ changes, ¬ c.Lists name) : (Change.run store changes).Ungranted name := by
  induction changes generalizing store with
  | nil => exact hnone
  | cons c changes ih =>
      rw [List.forall_mem_cons] at hother
      exact ih (hnone.apply hother.1) hother.2

/-- No lookup shows an authority that no role grants. -/
theorem name_ne (hnone : store.Ungranted name) {username : String} {p : Principal}
    {roles : List Role} (hfind : store.find? username = .ok (some p))
    (hroles : p.roles = some roles) : ∀ r ∈ roles, ∀ a ∈ r.authorities, a.name ≠ name := by
  rintro r hr a ha rfl
  cases store with
  | memory s =>
      have hassigned := Except.ok.inj hfind
      exact hnone _ rfl r.name (Seed.grants_of_findAssigned hassigned hroles hr ha)
  | database d =>
      cases hopened : d.opened "principals" with
      | error failure => simp [find?, hopened, Except.map] at hfind
      | ok t =>
          have hbetween : t.findBetween? t username = some p := by
            simpa [find?, hopened, Except.map] using hfind
          exact hnone _ (content?_of_opened hopened) r.name
            (Tables.grants_of_findBetween hbetween hroles hr ha)

end Ungranted

/-- Once an authority is deleted, no principal has it, whatever is done to the
store afterwards, until a change lists it for a role again. -/
theorem delete_revokes (hdelete : store.delete name = .ok next) {changes : List Change}
    (hother : ∀ c ∈ changes, ¬ c.Lists name) {username : String} {p : Principal}
    {roles : List Role} (hfind : (Change.run next changes).find? username = .ok (some p))
    (hroles : p.roles = some roles) : ∀ r ∈ roles, ∀ a ∈ r.authorities, a.name ≠ name :=
  ((ungranted_of_delete hdelete).run hother).name_ne hfind hroles

/-- A role with two authorities, held by one principal. -/
def granting : Seed where
  authorities := [⟨"ROLE_ADMIN", "/admin/**"⟩, ⟨"ROLE_REPORTS", "/reports/**"⟩]
  roles := [⟨"admin", ["ROLE_ADMIN", "ROLE_REPORTS"]⟩]
  principals := [⟨"alice", some ["admin"]⟩]

/-- The name is stored anew, and an import writes it again beside another role. -/
def recreation : List Change :=
  [.create ⟨"ROLE_ADMIN", "/other/**"⟩,
    .importSeed {
      authorities := [⟨"ROLE_ADMIN", "/admin/**"⟩, ⟨"ROLE_REPORTS", "/reports/**"⟩]
      roles := [⟨"auditor", ["ROLE_REPORTS"]⟩]
      principals := [⟨"bob", some ["auditor"]⟩] }]

theorem lists_recreation : ∀ c ∈ recreation, ¬ c.Lists "ROLE_ADMIN" := by
  simp [recreation, Change.Lists]

/-- On either backend a principal keeps the role without the deleted authority. -/
theorem delete_revokes_recreated :
    (∃ next p roles, (memory granting).delete "ROLE_ADMIN" = .ok next ∧
        (Change.run next recreation).find? "alice" = .ok (some p) ∧ p.roles = some roles ∧
        roles.map (·.name) = ["admin"] ∧
        ∀ r ∈ roles, ∀ a ∈ r.authorities, a.name ≠ "ROLE_ADMIN") ∧
      ∃ next p roles,
        (database { tables := some (Tables.empty.write granting) }).delete "ROLE_ADMIN" = .ok next ∧
        (Change.run next recreation).find? "alice" = .ok (some p) ∧ p.roles = some roles ∧
        roles.map (·.name) = ["admin"] ∧
        ∀ r ∈ roles, ∀ a ∈ r.authorities, a.name ≠ "ROLE_ADMIN" := by
  let left : List Role := [⟨"admin", [⟨"ROLE_REPORTS", "/reports/**"⟩]⟩]
  constructor
  · let deleted := Change.apply (memory granting) (.delete "ROLE_ADMIN")
    have hdelete : (memory granting).delete "ROLE_ADMIN" = .ok deleted := rfl
    have hfind : (Change.run deleted recreation).find? "alice" =
        .ok (some ⟨"alice", some left⟩) := rfl
    exact ⟨deleted, _, left, hdelete, hfind, rfl, rfl,
      delete_revokes hdelete lists_recreation hfind rfl⟩
  · let stored := database { tables := some (Tables.empty.write granting) }
    let deleted := Change.apply stored (.delete "ROLE_ADMIN")
    have hdelete : stored.delete "ROLE_ADMIN" = .ok deleted := rfl
    have hfind : (Change.run deleted recreation).find? "alice" =
        .ok (some ⟨"alice", some left⟩) := by decide +kernel
    exact ⟨deleted, _, left, hdelete, hfind, rfl, rfl,
      delete_revokes hdelete lists_recreation hfind rfl⟩

end Store

end RouteGuard.Directory
