import RouteGuard.Proofs.Directory.Checked
import RouteGuard.Proofs.Directory.Links

/-! # What a store holds

The content of a store is told by names: authorities, roles and principals in the
order in which they were first stored, which authorities a role grants, and which
roles a principal is assigned. The database and the memory store keep it in
different forms, but change it alike.
-/

namespace RouteGuard.Directory

@[ext]
structure Content where
  authorities : List Authority
  roles : List String
  principals : List PrincipalRow
  Grants : String → String → Prop
  Assigns : String → String → Prop

/-- A principal of a seed without its roles. -/
def SeedPrincipal.row (p : SeedPrincipal) : PrincipalRow := ⟨p.username, p.roles.isSome⟩

namespace Content

def putAuthority (c : Content) (a : Authority) : Content :=
  { c with authorities := putBy (·.name) a c.authorities }

def addAuthority (c : Content) (a : Authority) : Content :=
  { c with authorities := c.authorities ++ [a] }

def deleteAuthority (c : Content) (name : String) : Content :=
  { c with
    authorities := c.authorities.filter (·.name != name)
    Grants := fun role authority => c.Grants role authority ∧ authority ≠ name }

/-- A role is written with those of its grants that are stored, in place of the
grants that it had. -/
def writeRole (c : Content) (r : SeedRole) : Content :=
  { c with
    roles := putBy id r.name c.roles
    Grants := fun role authority =>
      (c.Grants role authority ∧ role ≠ r.name) ∨
        (role = r.name ∧ authority ∈ r.authorities ∧ authority ∈ c.authorities.map (·.name)) }

def writePrincipal (c : Content) (p : SeedPrincipal) : Content :=
  { c with
    principals := putBy (·.username) p.row c.principals
    Assigns := fun username role =>
      (c.Assigns username role ∧ username ≠ p.username) ∨
        (username = p.username ∧ role ∈ p.roles.getD [] ∧ role ∈ c.roles) }

def write (c : Content) (seed : Seed) : Content :=
  let c := seed.authorities.foldl putAuthority c
  let c := seed.roles.foldl writeRole c
  seed.principals.foldl writePrincipal c

/-- What each step of an import keeps is kept by the import. -/
theorem write_keeps {c : Content} {motive : Content → Prop} (hc : motive c) (seed : Seed)
    (hauthority : ∀ c a, motive c → motive (c.putAuthority a))
    (hrole : ∀ c, ∀ r ∈ seed.roles, motive c → motive (c.writeRole r))
    (hprincipal : ∀ c p, motive c → motive (c.writePrincipal p)) : motive (c.write seed) := by
  have hauthorities : motive (seed.authorities.foldl putAuthority c) :=
    List.foldlRecOn _ _ hc fun c hbefore a _ => hauthority c a hbefore
  have hroles : motive (seed.roles.foldl writeRole (seed.authorities.foldl putAuthority c)) :=
    List.foldlRecOn _ _ hauthorities fun c hbefore r hr => hrole c r hr hbefore
  exact List.foldlRecOn _ _ hroles fun c hbefore p _ => hprincipal c p hbefore

/-- Roles and principals leave the authorities alone. -/
theorem authorities_write (c : Content) (seed : Seed) :
    (c.write seed).authorities =
      seed.authorities.foldl (fun as a => putBy (·.name) a as) c.authorities := by
  let Same (c' : Content) : Prop :=
    c'.authorities = (seed.authorities.foldl putAuthority c).authorities
  have hroles : Same (seed.roles.foldl writeRole (seed.authorities.foldl putAuthority c)) :=
    List.foldlRecOn _ _ rfl fun _ hbefore _ _ => hbefore
  have hprincipals : Same (c.write seed) :=
    List.foldlRecOn (motive := Same) _ _ hroles fun _ hbefore _ _ => hbefore
  exact hprincipals.trans (List.foldl_hom Content.authorities fun _ _ => rfl).symm

/-- Every grant of a role is of a stored authority. -/
def KnowsGrants (c : Content) (r : SeedRole) : Prop :=
  ∀ a ∈ r.authorities, a ∈ c.authorities.map (·.name)

def KnowsRoles (c : Content) (p : SeedPrincipal) : Prop := ∀ r ∈ p.roles.getD [], r ∈ c.roles

/-- What is put in stays in. -/
theorem mem_foldl_of_putBy {α : Type} {step : Content → α → Content} (names : Content → List String)
    {name : α → String} (hstep : ∀ c x, names (step c x) = putBy id (name x) (names c))
    (xs : List α) (c : Content) {n : String} (hn : n ∈ names c ∨ n ∈ xs.map name) :
    n ∈ names (xs.foldl step c) := by
  induction xs generalizing c with
  | nil => simpa using hn
  | cons x xs ih =>
      apply ih
      rw [hstep, mem_putBy_id]
      rw [List.map_cons, List.mem_cons] at hn
      grind

theorem mem_names_foldl_putAuthority (as : List Authority) (c : Content) {n : String}
    (hn : n ∈ as.map (·.name)) : n ∈ (as.foldl putAuthority c).authorities.map (·.name) :=
  mem_foldl_of_putBy (fun c => c.authorities.map (·.name))
    (fun c a => @map_putBy _ _ (·.name) id (·.name) (fun _ => rfl) a c.authorities) as c (Or.inr hn)

theorem mem_roles_foldl_writeRole (rs : List SeedRole) (c : Content) {n : String}
    (hn : n ∈ rs.map (·.name)) : n ∈ (rs.foldl writeRole c).roles :=
  mem_foldl_of_putBy Content.roles (fun _ _ => rfl) rs c (Or.inr hn)

end Content

/-! ### The database -/

namespace Tables

open KeysLinked (linkKeys)

variable (t : Tables)

def content : Content where
  authorities := t.authorities.values
  roles := t.roles.values
  principals := t.principals.values
  Grants := KeysLinked t.roles t.authorities t.grants
  Assigns := KeysLinked t.principals t.roles t.assignments

theorem content_putAuthority (a : Authority) :
    (t.putAuthority a).content = t.content.putAuthority a := by
  ext1
  · exact t.authorities.values_upsert a
  · rfl
  · rfl
  · ext role authority
    exact KeysLinked.congr_rows t.grants_linked (fun _ _ _ => Iff.rfl)
      (fun _ hn _ => Rows.keyAt_upsert hn)
  · rfl

/-- An inserted record is added to the contents. -/
theorem content_insert {t u : Tables} {a : Authority} (hinsert : t.insertAuthority? a = some u) :
    u.content = t.content.addAuthority a := by
  unfold insertAuthority? at hinsert
  split at hinsert
  · cases hinsert
  next rows hrows =>
    cases hinsert
    obtain ⟨hnew, rfl⟩ := (Rows.insert?_eq_some_iff _ _ _).mp hrows
    ext1
    · exact Rows.values_append t.authorities a hnew
    · rfl
    · rfl
    · ext role authority
      exact KeysLinked.congr_rows t.grants_linked (fun _ _ _ => Iff.rfl)
        (fun _ hn _ => Rows.keyAt_append hnew hn)
    · rfl

theorem isNamed_iff (name : String) (n : Nat) :
    t.isNamed name n = true ↔ t.authorities.KeyAt n name := by
  simp only [isNamed, List.any_eq_true, Bool.and_eq_true, beq_iff_eq]
  constructor
  · rintro ⟨⟨_, a⟩, hrow, rfl, hname⟩
    exact ⟨a, hrow, hname⟩
  · rintro ⟨a, hrow, hname⟩
    exact ⟨(n, a), hrow, rfl, hname⟩

/-- A deletion takes the record and every grant of it out of the contents. -/
theorem content_deleteAuthority (name : String) :
    (t.deleteAuthority name).content = t.content.deleteAuthority name := by
  ext1
  · exact t.authorities.values_delete name
  · rfl
  · rfl
  · ext role authority
    apply KeysLinked.delete_right
    intro link _ k hk
    rw [Bool.not_eq_true', ← Bool.not_eq_true, isNamed_iff, not_iff_not]
    exact ⟨fun hname => hk.key_eq hname, fun hname => hname ▸ hk⟩
  · rfl

/-! ### Imports into the database -/

/-- A grant changes the links of roles and nothing else. -/
theorem grant_eq (role authority : String) :
    ∃ hlinked, t.grant role authority =
      { t with
        grants := linkKeys t.roles t.authorities role t.grants authority
        grants_linked := hlinked } := by
  unfold grant
  split
  next r a hr ha =>
    rw [KeysLinked.linkKeys_of_found hr ha]
    exact ⟨t.grants_linked.addLink (Rows.number_mem_of_find? hr) (Rows.number_mem_of_find? ha), rfl⟩
  next hmissing =>
    rw [KeysLinked.linkKeys_of_missing hmissing]
    exact ⟨t.grants_linked, rfl⟩

theorem assign_eq (username role : String) :
    ∃ hlinked, t.assign username role =
      { t with
        assignments := linkKeys t.principals t.roles username t.assignments role
        assignments_linked := hlinked } := by
  unfold assign
  split
  next p r hp hr =>
    rw [KeysLinked.linkKeys_of_found hp hr]
    exact ⟨t.assignments_linked.addLink (Rows.number_mem_of_find? hp)
      (Rows.number_mem_of_find? hr), rfl⟩
  next hmissing =>
    rw [KeysLinked.linkKeys_of_missing hmissing]
    exact ⟨t.assignments_linked, rfl⟩

/-- A role is granted those of the named authorities that are stored. -/
theorem content_foldl_grant (role : String) (names : List String) :
    (names.foldl (fun t a => t.grant role a) t).content =
      { t.content with
        Grants := KeysLinked t.roles t.authorities
          (names.foldl (linkKeys t.roles t.authorities role) t.grants) } := by
  induction names generalizing t with
  | nil => rfl
  | cons name names ih =>
      obtain ⟨hlinked, hgrant⟩ := t.grant_eq role name
      rw [List.foldl_cons, List.foldl_cons, ih, hgrant]
      rfl

/-- A principal is assigned those of the named roles that are stored. -/
theorem content_foldl_assign (username : String) (names : List String) :
    (names.foldl (fun t r => t.assign username r) t).content =
      { t.content with
        Assigns := KeysLinked t.principals t.roles
          (names.foldl (linkKeys t.principals t.roles username) t.assignments) } := by
  induction names generalizing t with
  | nil => rfl
  | cons name names ih =>
      obtain ⟨hlinked, hassign⟩ := t.assign_eq username name
      rw [List.foldl_cons, List.foldl_cons, ih, hassign]
      rfl

theorem content_writeRole (r : SeedRole) : (t.writeRole r).content = t.content.writeRole r := by
  rw [writeRole, content_foldl_grant]
  ext1
  · rfl
  · exact t.roles.values_upsert r.name
  · rfl
  · ext role authority
    exact KeysLinked.replaced t.grants_linked r.name r.authorities role authority
  · -- assignments hold the number of the role's row, which it keeps
    ext username role
    exact KeysLinked.congr_rows t.assignments_linked (fun _ _ _ => Iff.rfl)
      (fun _ hn _ => Rows.keyAt_upsert hn)

theorem content_writePrincipal (p : SeedPrincipal) :
    (t.writePrincipal p).content = t.content.writePrincipal p := by
  rw [writePrincipal, content_foldl_assign]
  ext1
  · rfl
  · rfl
  · exact t.principals.values_upsert _
  · rfl
  · ext username role
    refine (KeysLinked.replaced t.assignments_linked p.row _ _ _).trans ?_
    rw [Rows.keys, List.map_id]
    rfl

/-- The tables take a seed as the contents do. -/
theorem content_write (seed : Seed) : (t.write seed).content = t.content.write seed := by
  rw [Content.write, List.foldl_hom content fun t a => (t.content_putAuthority a).symm,
    List.foldl_hom content fun t r => (t.content_writeRole r).symm,
    List.foldl_hom content fun t p => (t.content_writePrincipal p).symm]
  rfl

end Tables

/-! ### The memory store -/

namespace Seed

def content (s : Seed) : Content where
  authorities := s.authorities
  roles := s.roles.map (·.name)
  principals := s.principals.map (·.row)
  Grants := fun role authority => ∃ r ∈ s.roles, r.name = role ∧ authority ∈ r.authorities
  Assigns := fun username role =>
    ∃ p ∈ s.principals, p.username = username ∧ role ∈ p.roles.getD []

/-- No two records of a kind share a name. -/
structure Distinct (s : Seed) : Prop where
  authorities : (s.authorities.map (·.name)).Nodup
  roles : (s.roles.map (·.name)).Nodup
  principals : (s.principals.map (·.username)).Nodup

variable {s : Seed}

theorem content_upsertAuthority (s : Seed) (a : Authority) :
    (s.upsertAuthority a).content = s.content.putAuthority a := rfl

theorem Distinct.upsertAuthority (hdistinct : s.Distinct) (a : Authority) :
    (s.upsertAuthority a).Distinct :=
  ⟨nodup_map_putBy hdistinct.authorities, hdistinct.roles, hdistinct.principals⟩

/-- A seed takes a record with a new name, and stays distinct. -/
theorem createAuthority_of_new {a : Authority} (hdistinct : s.Distinct)
    (hnew : ∀ b ∈ s.authorities, b.name ≠ a.name) :
    ∃ next, s.createAuthority a = .ok next ∧ next.Distinct ∧
      next.content = s.content.addAuthority a := by
  refine ⟨s.withAuthority a, createAuthority_eq_ok_iff.mpr ⟨hnew, rfl⟩, ?_, rfl⟩
  refine ⟨?_, hdistinct.roles, hdistinct.principals⟩
  have hkeys := @nodup_map_putBy _ (·.name) a _ hdistinct.authorities
  rwa [putBy_eq_append hnew] at hkeys

/-- Without an authority a seed holds neither its record nor a grant of it. -/
theorem content_withoutAuthority (s : Seed) (name : String) :
    (s.withoutAuthority name).content = s.content.deleteAuthority name := by
  ext1
  · rfl
  · simp [content, withoutAuthority, Content.deleteAuthority]
  · rfl
  · ext role authority
    simp only [content, withoutAuthority, Content.deleteAuthority, List.mem_map]
    constructor
    · rintro ⟨_, ⟨r, hr, rfl⟩, hname, hgrant⟩
      obtain ⟨hgrant, hother⟩ := List.mem_filter.mp hgrant
      exact ⟨⟨r, hr, hname, hgrant⟩, by simpa using hother⟩
    · rintro ⟨⟨r, hr, hname, hgrant⟩, hother⟩
      exact ⟨_, ⟨r, hr, rfl⟩, hname, List.mem_filter.mpr ⟨hgrant, by simpa using hother⟩⟩
  · rfl

theorem Distinct.withoutAuthority (hdistinct : s.Distinct) (name : String) :
    (s.withoutAuthority name).Distinct := by
  refine ⟨hdistinct.authorities.sublist (List.filter_sublist.map _), ?_, hdistinct.principals⟩
  rw [Seed.withoutAuthority, List.map_map]
  exact hdistinct.roles

/-- A seed drops an authority that it has, and stays distinct. -/
theorem removeAuthority_of_stored {name : String} (hdistinct : s.Distinct)
    (hstored : ∃ a ∈ s.authorities, a.name = name) :
    ∃ next, s.removeAuthority? name = some next ∧ next.Distinct ∧
      next.content = s.content.deleteAuthority name :=
  ⟨s.withoutAuthority name, removeAuthority?_eq_some_iff.mpr ⟨hstored, rfl⟩,
    hdistinct.withoutAuthority name, s.content_withoutAuthority name⟩

/-- A role is taken if all its grants are known. -/
theorem upsertRole_eq_ok_iff {r : SeedRole} {next : Seed} : s.upsertRole r = .ok next ↔
    s.content.KnowsGrants r ∧ next = { s with roles := putBy (·.name) r s.roles } := by
  have hknown : r.authorities.find? (fun name => !s.authorities.any (·.name == name)) = none ↔
      s.content.KnowsGrants r := by
    simp [Content.KnowsGrants, content]
  unfold upsertRole
  split
  next missing hfind =>
    rw [hfind] at hknown
    simp [← hknown]
  next hfind =>
    rw [and_iff_right (hknown.mp hfind), Except.ok.injEq]
    exact eq_comm

/-- A principal is taken if all its roles are known. -/
theorem upsertPrincipal_eq_ok_iff {p : SeedPrincipal} {next : Seed} :
    s.upsertPrincipal p = .ok next ↔
      s.content.KnowsRoles p ∧ next = { s with principals := putBy (·.username) p s.principals } := by
  have hknown : (p.roles.getD []).find? (fun name => !s.roles.any (·.name == name)) = none ↔
      s.content.KnowsRoles p := by
    simp [Content.KnowsRoles, content]
  unfold upsertPrincipal
  split
  next missing hfind =>
    rw [hfind] at hknown
    simp [← hknown]
  next hfind =>
    rw [and_iff_right (hknown.mp hfind), Except.ok.injEq]
    exact eq_comm

/-- A role whose grants are stored is written. -/
theorem upsertRole_of_known {r : SeedRole} (hdistinct : s.Distinct)
    (hknown : s.content.KnowsGrants r) :
    ∃ next, s.upsertRole r = .ok next ∧ next.Distinct ∧ next.content = s.content.writeRole r := by
  refine ⟨{ s with roles := putBy (·.name) r s.roles },
    upsertRole_eq_ok_iff.mpr ⟨hknown, rfl⟩, ?_, ?_⟩
  · exact ⟨hdistinct.authorities, nodup_map_putBy hdistinct.roles, hdistinct.principals⟩
  · ext1
    · rfl
    · exact @map_putBy _ _ (·.name) id (·.name) (fun _ => rfl) r s.roles
    · rfl
    · ext role authority
      simp only [content, Content.writeRole, mem_putBy_iff hdistinct.roles]
      constructor
      · rintro ⟨_, rfl | ⟨hr, hother⟩, rfl, hgrant⟩
        · exact Or.inr ⟨rfl, hgrant, hknown authority hgrant⟩
        · exact Or.inl ⟨⟨_, hr, rfl, hgrant⟩, hother⟩
      · rintro (⟨⟨other, hr, rfl, hgrant⟩, hother⟩ | ⟨rfl, hgrant, _⟩)
        · exact ⟨other, Or.inr ⟨hr, hother⟩, rfl, hgrant⟩
        · exact ⟨r, Or.inl rfl, rfl, hgrant⟩
    · rfl

theorem upsertPrincipal_of_known {p : SeedPrincipal} (hdistinct : s.Distinct)
    (hknown : s.content.KnowsRoles p) :
    ∃ next, s.upsertPrincipal p = .ok next ∧ next.Distinct ∧
      next.content = s.content.writePrincipal p := by
  refine ⟨{ s with principals := putBy (·.username) p s.principals },
    upsertPrincipal_eq_ok_iff.mpr ⟨hknown, rfl⟩, ?_, ?_⟩
  · exact ⟨hdistinct.authorities, hdistinct.roles, nodup_map_putBy hdistinct.principals⟩
  · ext1
    · rfl
    · rfl
    · exact @map_putBy _ _ (·.username) (·.username) (·.row) (fun _ => rfl) p s.principals
    · rfl
    · ext username role
      simp only [content, Content.writePrincipal, mem_putBy_iff hdistinct.principals]
      constructor
      · rintro ⟨_, rfl | ⟨hp, hother⟩, rfl, hassigned⟩
        · exact Or.inr ⟨rfl, hassigned, hknown role hassigned⟩
        · exact Or.inl ⟨⟨_, hp, rfl, hassigned⟩, hother⟩
      · rintro (⟨⟨other, hp, rfl, hassigned⟩, hother⟩ | ⟨rfl, hassigned, _⟩)
        · exact ⟨other, Or.inr ⟨hp, hother⟩, rfl, hassigned⟩
        · exact ⟨p, Or.inl rfl, rfl, hassigned⟩

/-- Changes whose references are known run to the end. -/
theorem runChanges_of_known {α : Type} {change : Seed → α → Except SeedFault Seed}
    {write : Content → α → Content} (Known : Content → α → Prop)
    (hchange : ∀ {s : Seed} {x : α}, s.Distinct → Known s.content x →
      ∃ next, change s x = .ok next ∧ next.Distinct ∧ next.content = write s.content x)
    (hkeeps : ∀ c x y, Known c y → Known (write c x) y) (hdistinct : s.Distinct) (xs : List α)
    (hknown : ∀ x ∈ xs, Known s.content x) :
    ∃ next, runChanges change s xs = (next, none) ∧ next.Distinct ∧
      next.content = xs.foldl write s.content := by
  induction xs generalizing s with
  | nil => exact ⟨s, rfl, hdistinct, rfl⟩
  | cons x xs ih =>
      rw [List.forall_mem_cons] at hknown
      obtain ⟨first, hfirst, hdistinct', hcontent⟩ := hchange hdistinct hknown.1
      -- what was known at the start stays known, since the changes only add
      have hknown' : ∀ y ∈ xs, Known first.content y := by
        intro y hy
        rw [hcontent]
        exact hkeeps _ x y (hknown.2 y hy)
      obtain ⟨next, hnext, hdistinct'', hcontent'⟩ := ih hdistinct' hknown'
      refine ⟨next, ?_, hdistinct'', ?_⟩
      · simp only [runChanges, hfirst, hnext]
      · rw [hcontent', hcontent, List.foldl_cons]

/-- Every name in a checked seed is known when it is referred to. -/
theorem absorb_of_checked {seed : Seed} (hdistinct : s.Distinct) (hchecked : seed.fault? = none) :
    ∃ next, s.absorb seed = (next, none) ∧ next.Distinct ∧
      next.content = s.content.write seed := by
  simp only [fault?, Option.or_eq_none_iff] at hchecked
  obtain ⟨⟨_, hroles⟩, hprincipals⟩ := hchecked
  obtain ⟨_, _, hgranted⟩ := (roleFault?_eq_none_iff []).mp hroles
  obtain ⟨_, _, hheld⟩ := (principalFault?_eq_none_iff []).mp hprincipals
  have hfirst : (seed.authorities.foldl upsertAuthority s).Distinct :=
    List.foldlRecOn _ _ hdistinct fun _ h a _ => h.upsertAuthority a
  have hcontent : (seed.authorities.foldl upsertAuthority s).content =
      seed.authorities.foldl Content.putAuthority s.content :=
    (List.foldl_hom content fun s a => (content_upsertAuthority s a).symm).symm
  -- what the seed refers to has just been written from the seed itself
  have hgrants : ∀ r ∈ seed.roles,
      (seed.authorities.foldl upsertAuthority s).content.KnowsGrants r := by
    intro r hr a ha
    rw [hcontent]
    exact Content.mem_names_foldl_putAuthority _ _ (hgranted r hr a ha)
  obtain ⟨second, hsecond, hdistinct', hcontent'⟩ :=
    runChanges_of_known Content.KnowsGrants (fun hd hk => upsertRole_of_known hd hk)
      (fun _ _ _ hk => hk) hfirst seed.roles hgrants
  have hassigned : ∀ p ∈ seed.principals, second.content.KnowsRoles p := by
    intro p hp r hr
    rw [hcontent']
    apply Content.mem_roles_foldl_writeRole
    exact hheld p hp r hr
  obtain ⟨next, hnext, hdistinct'', hcontent''⟩ :=
    runChanges_of_known Content.KnowsRoles (fun hd hk => upsertPrincipal_of_known hd hk)
      (fun _ _ _ hk => hk) hdistinct' seed.principals hassigned
  refine ⟨next, ?_, hdistinct'', ?_⟩
  · simp only [absorb, hsecond, hnext]
  · rw [hcontent'', hcontent', hcontent]
    rfl

end Seed

/-! ### Either backend -/

namespace Store

variable {store next : Store}

/-- What a store holds. A database without tables holds nothing. -/
def content? : Store → Option Content
  | memory s => some s.content
  | database d => d.tables.map Tables.content

theorem content?_of_opened {d : Database} {table : String} {t : Tables}
    (hopened : d.opened table = .ok t) : (database d).content? = some t.content := by
  simp [content?, (Database.opened_eq_ok_iff.mp hopened).2]

/-- A creation that succeeds adds the record to what either backend holds. -/
theorem content?_create {a : Authority} (hcreate : store.create a = .ok next) :
    ∃ c, store.content? = some c ∧ next.content? = some (c.addAuthority a) := by
  cases store with
  | memory s =>
      obtain ⟨_, rfl⟩ := (create_memory_iff s).mp hcreate
      exact ⟨s.content, rfl, rfl⟩
  | database d =>
      obtain ⟨t, u, ⟨_, htables⟩, hinsert, rfl⟩ := (create_database_iff d).mp hcreate
      refine ⟨t.content, by simp [content?, htables], ?_⟩
      exact congrArg some (Tables.content_insert hinsert)

/-- A deletion that succeeds takes the authority out of what either backend holds. -/
theorem content?_delete {name : String} (hdelete : store.delete name = .ok next) :
    ∃ c, store.content? = some c ∧ next.content? = some (c.deleteAuthority name) := by
  cases store with
  | memory s =>
      obtain ⟨_, rfl⟩ := (delete_memory_iff s).mp hdelete
      exact ⟨s.content, rfl, congrArg some (s.content_withoutAuthority name)⟩
  | database d =>
      obtain ⟨t, ⟨_, htables⟩, _, rfl⟩ := (delete_database_iff d).mp hdelete
      refine ⟨t.content, by simp [content?, htables], ?_⟩
      exact congrArg some (t.content_deleteAuthority name)

end Store

end RouteGuard.Directory
