import RouteGuard.Proofs.Directory.Backends
import RouteGuard.Proofs.Directory.Records
import RouteGuard.Proofs.Directory.Snapshot
import RouteGuard.Proofs.Directory.Upsert

/-! # Importing a seed

The import of a checked seed always succeeds on a store in use. It stores what
the seed lists, leaves everything else as it was, and changes nothing when it is
repeated.
-/

namespace RouteGuard.Directory

/-! ### What an import leaves behind -/

/-- The elements whose keys are none of the names. -/
def besides {α : Type} (key : α → String) (names : List String) (xs : List α) : List α :=
  xs.filter fun x => !names.contains (key x)

/-- The records are those from before with the records of a seed put in. What the
seed does not name is as it was. -/
structure Upserted (seed before after : Seed) : Prop where
  /-- what was there keeps its place, and the rest follows as the seed lists it -/
  placed : after.authorities =
    before.authorities.map (fun a => (seed.authorities.find? (·.name == a.name)).getD a) ++
      seed.authorities.filter fun a => !before.authorities.any (·.name == a.name)
  defined : ∀ a ∈ seed.authorities, a ∈ after.authorities
  granted : ∀ r ∈ seed.roles, ∃ stored ∈ after.roles, stored.name = r.name ∧
    ∀ a, a ∈ stored.authorities ↔ a ∈ r.authorities
  /-- an unset role collection stays apart from an empty one -/
  assigned : ∀ p ∈ seed.principals, ∃ stored ∈ after.principals, stored.username = p.username ∧
    (stored.roles = none ↔ p.roles = none) ∧ ∀ r, r ∈ stored.roles.getD [] ↔ r ∈ p.roles.getD []
  otherAuthorities : besides (·.name) (seed.authorities.map (·.name)) after.authorities =
    besides (·.name) (seed.authorities.map (·.name)) before.authorities
  otherRoles : besides (·.name) (seed.roles.map (·.name)) after.roles =
    besides (·.name) (seed.roles.map (·.name)) before.roles
  otherPrincipals : besides (·.username) (seed.principals.map (·.username)) after.principals =
    besides (·.username) (seed.principals.map (·.username)) before.principals

theorem besides_putBy {α : Type} {key : α → String} {names : List String} {x : α}
    (hx : key x ∈ names) (xs : List α) :
    besides key names (putBy key x xs) = besides key names xs := by
  induction xs with
  | nil => simp [besides, putBy, hx]
  | cons y xs ih =>
      rw [putBy]
      split
      next hsame => simp [besides, hsame, hx]
      next hother =>
        simp only [besides, List.filter_cons] at ih ⊢
        rw [ih]

/-- What stands besides the named elements is not touched by putting these in. -/
theorem besides_putAll {α : Type} {key : α → String} {names : List String} {xs : List α}
    (hxs : ∀ x ∈ xs, key x ∈ names) (ys : List α) :
    besides key names (putAll key xs ys) = besides key names ys := by
  induction xs generalizing ys with
  | nil => rfl
  | cons x xs ih =>
      rw [List.forall_mem_cons] at hxs
      rw [putAll_cons, ih hxs.2, besides_putBy hxs.1]

theorem Seed.upserted_upsert {s seed : Seed} (hs : s.Distinct) (hseed : seed.Distinct) :
    Upserted seed s (s.upsert seed) where
  placed := putAll_eq hseed.authorities hs.authorities
  defined := fun _ ha => (mem_putAll_iff hseed.authorities hs.authorities).mpr (Or.inl ha)
  granted := fun r hr =>
    ⟨r, (mem_putAll_iff hseed.roles hs.roles).mpr (Or.inl hr), rfl, fun _ => Iff.rfl⟩
  assigned := fun p hp =>
    ⟨p, (mem_putAll_iff hseed.principals hs.principals).mpr (Or.inl hp), rfl, Iff.rfl,
      fun _ => Iff.rfl⟩
  otherAuthorities := besides_putAll (fun _ ha => List.mem_map_of_mem ha) _
  otherRoles := besides_putAll (fun _ hr => List.mem_map_of_mem hr) _
  otherPrincipals := besides_putAll (fun _ hp => List.mem_map_of_mem hp) _

/-! ### The records of a database after an import -/

namespace Content

variable {c : Content} {seed : Seed}

/-- Records of what is put in and of what was there. -/
theorem besides_map_putAll {α β : Type} (key : α → String) (shown : β → String) {f g : α → β}
    (hf : ∀ x, shown (f x) = key x) (hg : ∀ x, shown (g x) = key x) (xs ys : List α)
    (hsame : ∀ y, key y ∉ xs.map key → f y = g y) :
    besides shown (xs.map key) ((putAll key xs ys).map f) =
      besides shown (xs.map key) (ys.map g) := by
  have hmap : ∀ (h : α → β), (∀ x, shown (h x) = key x) → ∀ zs,
      besides shown (xs.map key) (zs.map h) = (besides key (xs.map key) zs).map h := by
    intro h hh zs
    rw [besides, List.filter_map, besides]
    simp only [Function.comp_def, hh]
  rw [hmap f hf, hmap g hg, besides_putAll fun _ hx => List.mem_map_of_mem hx]
  refine List.map_congr_left fun y hy => hsame y ?_
  simpa using (List.mem_filter.mp hy).2

open Classical in
/-- What is linked to names that were there is not among those that are put in. -/
theorem filter_putAll_id {P Q : String → Prop} {ns ms : List String} (hsame : ∀ n, P n ↔ Q n)
    (hstored : ∀ n, Q n → n ∈ ms) : (putAll id ns ms).filter (P ·) = ms.filter (Q ·) := by
  obtain ⟨added, hadded, hapart⟩ := exists_putAll_id ns ms
  have hnone : added.filter (P ·) = [] := by
    simp only [List.filter_eq_nil_iff, decide_eq_true_eq]
    exact fun n hn hP => hapart n hn (hstored n ((hsame n).mp hP))
  rw [hadded, List.filter_append, hnone, List.append_nil]
  exact List.filter_congr fun n _ => decide_eq_decide.mpr (hsame n)

/-- A role of the seed has the grants that the seed tells. -/
theorem roleRecord_upsert_of_mem (hseed : seed.Intact) {r : SeedRole} (hr : r ∈ seed.roles)
    (a : String) :
    a ∈ ((c.upsert seed.content).roleRecord r.name).authorities ↔ a ∈ r.authorities := by
  have hstored : a ∈ r.authorities →
      a ∈ (c.upsert seed.content).authorities.map (·.name) := fun ha =>
    mem_map_putAll.mpr (Or.inl (hseed.granted r hr a ha))
  simp only [roleRecord, List.mem_filter, decide_eq_true_eq, grants_upsert,
    relinked_of_mem hseed.distinct.roles hr]
  exact and_iff_right_of_imp hstored

/-- Any other role keeps its grants. -/
theorem roleRecord_upsert_of_notMem (hclosed : c.Closed) {role : String}
    (hother : role ∉ seed.roles.map (·.name)) :
    (c.upsert seed.content).roleRecord role = c.roleRecord role := by
  have hgrants : ∀ a, (c.upsert seed.content).Grants role a ↔ c.Grants role a := fun a =>
    (grants_upsert c seed role a).trans (relinked_of_notMem hother)
  have hnames : (c.upsert seed.content).authorities.map (·.name) = _ := map_putAll ..
  rw [roleRecord, roleRecord, hnames, filter_putAll_id hgrants (hclosed.granted role)]

/-- A principal of the seed has the roles that the seed tells. -/
theorem principalRecord_upsert_of_mem (hseed : seed.Intact) {p : SeedPrincipal}
    (hp : p ∈ seed.principals) (r : String) :
    r ∈ ((c.upsert seed.content).principalRecord p.row).roles.getD [] ↔ r ∈ p.roles.getD [] := by
  have hassigns : (c.upsert seed.content).Assigns p.username r ↔ r ∈ p.roles.getD [] :=
    (assigns_upsert c seed p.username r).trans (relinked_of_mem hseed.distinct.principals hp)
  have hstored : r ∈ p.roles.getD [] → r ∈ (c.upsert seed.content).roles := fun hr =>
    mem_putAll_id.mpr (Or.inl (hseed.assigned p hp r hr))
  cases hroles : p.roles with
  | none => simp [principalRecord, SeedPrincipal.row, hroles]
  | some names =>
      rw [hroles] at hassigns hstored
      simp only [principalRecord, SeedPrincipal.row, hroles, Option.isSome_some, if_true,
        Option.getD_some, List.mem_filter, decide_eq_true_eq, hassigns]
      exact and_iff_right_of_imp hstored

/-- Any other principal keeps its roles. -/
theorem principalRecord_upsert_of_notMem (hclosed : c.Closed) {p : PrincipalRow}
    (hother : p.username ∉ seed.principals.map (·.username)) :
    (c.upsert seed.content).principalRecord p = c.principalRecord p := by
  have hassigns : ∀ r, (c.upsert seed.content).Assigns p.username r ↔ c.Assigns p.username r :=
    fun r => (assigns_upsert c seed p.username r).trans (relinked_of_notMem hother)
  have hroles : (c.upsert seed.content).roles = putAll id seed.content.roles c.roles := rfl
  rw [principalRecord, principalRecord, hroles,
    filter_putAll_id hassigns (hclosed.assigned p.username)]

/-- The records of a database come from those before as those of a memory store do. -/
theorem upserted_records (hc : c.Distinct) (hclosed : c.Closed) (hseed : seed.Intact) :
    Upserted seed c.records (c.upsert seed.content).records where
  placed := putAll_eq hseed.distinct.authorities hc.authorities
  defined := fun _ ha =>
    (mem_putAll_iff hseed.distinct.authorities hc.authorities).mpr (Or.inl ha)
  granted := by
    intro r hr
    have hput : r.name ∈ (c.upsert seed.content).roles :=
      mem_putAll_id.mpr (Or.inl (List.mem_map_of_mem hr))
    exact ⟨_, List.mem_map_of_mem hput, rfl, roleRecord_upsert_of_mem hseed hr⟩
  assigned := by
    intro p hp
    have hput : p.row ∈ (c.upsert seed.content).principals :=
      (mem_putAll_iff hseed.distinct.content.principals hc.principals).mpr
        (Or.inl (List.mem_map_of_mem hp))
    refine ⟨_, List.mem_map_of_mem hput, rfl, ?_, principalRecord_upsert_of_mem hseed hp⟩
    cases hroles : p.roles <;> simp [principalRecord, SeedPrincipal.row, hroles]
  otherAuthorities := besides_putAll (fun _ ha => List.mem_map_of_mem ha) _
  otherRoles := by
    rw [← List.map_id (seed.roles.map (·.name))]
    refine besides_map_putAll id SeedRole.name (fun _ => rfl) (fun _ => rfl) _ _ ?_
    intro role hother
    exact roleRecord_upsert_of_notMem hclosed (by rwa [List.map_id] at hother)
  otherPrincipals := by
    rw [← seed.usernames_content]
    refine besides_map_putAll PrincipalRow.username SeedPrincipal.username (fun _ => rfl)
      (fun _ => rfl) _ _ ?_
    intro p hother
    exact principalRecord_upsert_of_notMem hclosed (by rwa [seed.usernames_content] at hother)

/-- Only what is stored is in the records. -/
theorem intact_records (hc : c.Distinct) : c.records.Intact where
  distinct := by
    refine ⟨hc.authorities, ?_, ?_⟩
    · rw [records, List.map_map]
      exact (List.map_id c.roles).symm ▸ hc.roles
    · rw [records, List.map_map]
      exact hc.principals
  granted := by
    intro r hr a ha
    obtain ⟨role, _, rfl⟩ := List.mem_map.mp hr
    exact (List.mem_filter.mp ha).1
  assigned := by
    intro p hp r hr
    obtain ⟨row, _, rfl⟩ := List.mem_map.mp hp
    have hstored : r ∈ c.roles := by
      simp only [principalRecord] at hr
      split at hr
      · exact (List.mem_filter.mp hr).1
      · cases hr
    exact List.mem_map.mpr ⟨_, List.mem_map_of_mem hstored, rfl⟩

end Content

/-! ### Imports into either backend -/

namespace Store

variable {store : Store} {seed : Seed}

/-- The records of a store, as its listing and its lookups show them. -/
structure Shows (store : Store) (s : Seed) : Prop where
  intact : s.Intact
  records : store.records? = some s
  list : store.list = .ok s.authorities
  find? : ∀ username, store.find? username = .ok (s.findAssigned? username)

theorem shows_memory {s : Seed} (hintact : s.Intact) : (memory s).Shows s :=
  ⟨hintact, rfl, rfl, fun _ => rfl⟩

theorem shows_holding (t : Tables) : (holding t).Shows t.toSeed where
  intact := t.toSeed_eq ▸ Content.intact_records t.distinct_content
  records := rfl
  list := rfl
  find? := fun username => congrArg Except.ok (t.findBetween?_eq username)

/-- A store as it may be found in use: one that was made of a checked seed, or a
database with its tables, and whatever it has become since. It is in use until
it is closed. -/
inductive InService : Store → Prop
  | seeded {seed : Seed} (checked : seed.fault? = none) : InService (memory seed)
  | opened (t : Tables) : InService (holding t)
  | changed {store : Store} {c : Change} (hservice : InService store) (hopen : c ≠ .close) :
      InService (c.apply store)

/-- An open database keeps its tables open. -/
theorem apply_holding (t : Tables) {c : Change} (hopen : c ≠ .close) :
    ∃ u, c.apply (holding t) = holding u := by
  cases c with
  | importSeed seed => exact ⟨_, congrArg Prod.fst (importSeed_holding t seed)⟩
  | create a =>
      rw [Change.apply, create_holding]
      cases t.insertAuthority? a with
      | none => exact ⟨t, rfl⟩
      | some u => exact ⟨u, rfl⟩
  | delete name =>
      rw [Change.apply, delete_holding]
      split
      · exact ⟨_, rfl⟩
      · exact ⟨t, rfl⟩
  | upsertAuthority a => exact ⟨t, rfl⟩
  | upsertRole r => exact ⟨t, rfl⟩
  | upsertPrincipal p => exact ⟨t, rfl⟩
  | migrate => exact ⟨t, rfl⟩
  | close => exact absurd rfl hopen

/-- A store in service is an intact seed in memory, or an open database with tables. -/
theorem InService.shape (hservice : store.InService) :
    (∃ s, store = memory s ∧ s.Intact) ∨ ∃ t, store = holding t := by
  induction hservice with
  | seeded checked => exact Or.inl ⟨_, rfl, (Seed.fault?_eq_none_iff.mp checked).2⟩
  | opened t => exact Or.inr ⟨t, rfl⟩
  | @changed store c _ hopen ih =>
      rcases ih with ⟨s, rfl, hintact⟩ | ⟨t, rfl⟩
      · exact Or.inl (hintact.apply c)
      · exact Or.inr (apply_holding t hopen)

/-- The import of a seed succeeds, and the records of the seed are put in. -/
structure Takes (store : Store) (seed : Seed) (next : Store) : Prop where
  succeeds : (store.importSeed seed).value = (next, .ok ())
  upserted : ∃ before after, store.Shows before ∧ next.Shows after ∧ Upserted seed before after

theorem importSeed_memory (hchecked : seed.fault? = none) (s : Seed) :
    ((memory s).importSeed seed).value = (memory (s.upsert seed), .ok ()) := by
  rw [importSeed, Seed.absorb_eq_upsert hchecked]
  rfl

/-- In memory an import is an upsert. -/
theorem takes_memory {s : Seed} (hintact : s.Intact) (hchecked : seed.fault? = none) :
    (memory s).Takes seed (memory (s.upsert seed)) where
  succeeds := importSeed_memory hchecked s
  upserted := by
    have hdistinct := (Seed.fault?_eq_none_iff.mp hchecked).2.distinct
    exact ⟨s, s.upsert seed, shows_memory hintact, shows_memory (hintact.upsert hchecked),
      Seed.upserted_upsert hintact.distinct hdistinct⟩

theorem toSeed_write (hchecked : seed.fault? = none) (t : Tables) :
    (t.write seed).toSeed = (t.content.upsert seed.content).records := by
  rw [Tables.toSeed_eq, Tables.content_write, Content.write_of_checked hchecked]

/-- In a database an import is an upsert too. -/
theorem takes_holding (t : Tables) (hchecked : seed.fault? = none) :
    (holding t).Takes seed (holding (t.write seed)) where
  succeeds := importSeed_holding t seed
  upserted := by
    refine ⟨_, _, shows_holding t, shows_holding _, ?_⟩
    rw [toSeed_write hchecked, t.toSeed_eq]
    exact Content.upserted_records t.distinct_content t.closed_content
      (Seed.fault?_eq_none_iff.mp hchecked).2

/-- A second import leaves the records of the first. -/
theorem toSeed_write_write (hchecked : seed.fault? = none) (t : Tables) :
    ((t.write seed).write seed).toSeed = (t.write seed).toSeed := by
  have hdistinct := (Seed.fault?_eq_none_iff.mp hchecked).2.distinct
  rw [toSeed_write hchecked, toSeed_write hchecked, Tables.content_write,
    Content.write_of_checked hchecked, Content.upsert_upsert t.distinct_content hdistinct.content]

/-- The import of a checked seed into a store in use succeeds, puts the records
of the seed in and leaves all others as they were. A second import changes
nothing that a listing or a lookup shows. In a memory store that was empty there
are then the records of the seed and no others. -/
theorem import_upserts (hservice : store.InService) (hchecked : seed.fault? = none) :
    (∃ next again, store.Takes seed next ∧ next.Takes seed again ∧
      again.list = next.list ∧ ∀ username, again.find? username = next.find? username) ∧
    ((memory {}).importSeed seed).value = (memory seed, .ok ()) := by
  have hdistinct := (Seed.fault?_eq_none_iff.mp hchecked).2.distinct
  constructor
  · rcases hservice.shape with ⟨s, rfl, hintact⟩ | ⟨t, rfl⟩
    · have hsame := Seed.upsert_upsert hintact.distinct hdistinct
      refine ⟨_, _, takes_memory hintact hchecked,
        takes_memory (hintact.upsert hchecked) hchecked, ?_⟩
      rw [hsame]
      exact ⟨rfl, fun _ => rfl⟩
    · have hfirst := shows_holding (t.write seed)
      have hsecond := shows_holding ((t.write seed).write seed)
      rw [toSeed_write_write hchecked] at hsecond
      exact ⟨_, _, takes_holding t hchecked, takes_holding _ hchecked,
        hsecond.list.trans hfirst.list.symm,
        fun username => (hsecond.find? username).trans (hfirst.find? username).symm⟩
  · rw [importSeed_memory hchecked, Seed.empty_upsert hdistinct]

/-- An authority moves, a role of two authorities is new, and of two principals
one has no roles and one has none assigned. -/
def moving : Seed where
  authorities := [⟨"ROLE_AUDIT", "/audit/**"⟩, ⟨"ROLE_REPORTS", "/moved/**"⟩]
  roles := [⟨"auditor", ["ROLE_REPORTS", "ROLE_AUDIT"]⟩]
  principals := [⟨"bob", some []⟩, ⟨"carol", none⟩]

/-- On either backend the authority keeps its place, and so does the role that
grants it. -/
theorem import_upserts_moving :
    ∃ first second, (Change.apply (memory granting) (.delete "ROLE_ADMIN")).Takes moving first ∧
      (Change.apply (holding (.write .empty granting)) (.delete "ROLE_ADMIN")).Takes moving second ∧
      first.list = .ok [⟨"ROLE_REPORTS", "/moved/**"⟩, ⟨"ROLE_AUDIT", "/audit/**"⟩] ∧
      second.list = first.list ∧
      second.find? "alice" =
        .ok (some ⟨"alice", some [⟨"admin", [⟨"ROLE_REPORTS", "/moved/**"⟩]⟩]⟩) ∧
      first.find? "alice" = second.find? "alice" := by
  have hgranting : granting.fault? = none := by decide +kernel
  have hmoving : moving.fault? = none := by decide +kernel
  obtain ⟨⟨first, _, hfirst, _⟩, _⟩ :=
    import_upserts (.changed (.seeded hgranting) (c := .delete "ROLE_ADMIN") nofun) hmoving
  obtain ⟨⟨second, _, hsecond, _⟩, _⟩ := import_upserts
    (.changed (.opened (.write .empty granting)) (c := .delete "ROLE_ADMIN") nofun) hmoving
  refine ⟨first, second, hfirst, hsecond, ?_⟩
  obtain rfl := congrArg Prod.fst hfirst.succeeds
  obtain rfl := congrArg Prod.fst hsecond.succeeds
  refine ⟨rfl, rfl, ?_, ?_⟩ <;> decide +kernel

end Store

end RouteGuard.Directory
