import RouteGuard.Proofs.Authorities
import RouteGuard.Proofs.Directory.Lookup
import RouteGuard.Proofs.Judgement

/-! # The two backends

A memory store and a database that start empty and are changed alike answer
alike. Whatever happens to them, they keep one content: each operation succeeds
or fails on both, and leaves the same content behind.
-/

namespace RouteGuard.Directory

/-- A change of a store. Only checked seeds are imported. -/
inductive Operation
  | importSeed (seed : Seed) (checked : seed.fault? = none)
  | create (a : Authority)
  | delete (name : String)

namespace Operation

/-- A store after an attempt to change it. If that fails it is as before. -/
def attempt (s : Store) : Except Failure Store → Store × Except Failure Unit
  | .ok next => (next, .ok ())
  | .error failure => (s, .error failure)

/-- The store after an operation, and the answer. -/
def apply (s : Store) : Operation → Store × Except Failure Unit
  | importSeed seed _ => (s.importSeed seed).value
  | create a => attempt s (s.create a)
  | delete name => attempt s (s.delete name)

/-- The store after operations in turn, and all the answers. -/
def run (s : Store) : List Operation → Store × List (Except Failure Unit)
  | [] => (s, [])
  | op :: ops =>
    let (next, answer) := op.apply s
    let (last, answers) := run next ops
    (last, answer :: answers)

end Operation

/-- A memory store and a database with one content. -/
structure Mirrored (s : Seed) (t : Tables) : Prop where
  distinct : s.Distinct
  content : s.content = t.content

namespace Store

/-- An open database with these tables. -/
def holding (t : Tables) : Store := database { tables := some t }

variable (t : Tables)

/-- An import into an open database is never refused. -/
theorem importSeed_holding (seed : Seed) :
    ((holding t).importSeed seed).value = (holding (t.write seed), .ok ()) := by
  have himport : Database.importSeed { tables := some t } seed =
      .ok { tables := some (t.write seed) } := by
    unfold Database.importSeed
    cases htable : Database.importTable? seed with
    | some table => simp [Database.opened, Except.map]
    | none =>
        -- a seed that names no table is empty
        obtain ⟨authorities, roles, principals⟩ := seed
        simp only [Database.importTable?] at htable
        split at htable <;> try cases htable
        split at htable <;> try cases htable
        split at htable <;> try cases htable
        simp_all [Tables.write]
  rw [holding, importSeed, himport]
  rfl

/-- An open database refuses a taken name only. -/
theorem create_holding (a : Authority) :
    (holding t).create a =
      match t.insertAuthority? a with
      | some next => .ok (holding next)
      | none => .error (nameTaken a.name) := by
  have hopened : Database.opened { tables := some t } "authorities" = .ok t := rfl
  simp only [holding, create, hopened, bind, Except.bind]
  cases t.insertAuthority? a <;> rfl

/-- An open database refuses the deletion of a missing authority only. -/
theorem delete_holding (name : String) :
    (holding t).delete name =
      if (t.authorities.find? name).isSome then .ok (holding (t.deleteAuthority name))
      else .error .notFound := by
  have hopened : Database.opened { tables := some t } "role_authorities" = .ok t := rfl
  simp only [holding, delete, hopened, bind, Except.bind]
  split <;> rfl

end Store

namespace Mirrored

variable {s : Seed} {t : Tables}

theorem authorities (hmirrored : Mirrored s t) : s.authorities = t.authorities.values :=
  congrArg Content.authorities hmirrored.content

/-- Both backends take a checked seed, and stay alike. -/
theorem importSeed (hmirrored : Mirrored s t) {seed : Seed} (hchecked : seed.fault? = none) :
    ∃ s' t', Mirrored s' t' ∧
      ((Store.memory s).importSeed seed).value = (.memory s', .ok ()) ∧
      ((Store.holding t).importSeed seed).value = (.holding t', .ok ()) := by
  obtain ⟨s', habsorb, hdistinct, hcontent⟩ :=
    Seed.absorb_of_checked hmirrored.distinct hchecked
  refine ⟨s', t.write seed, ⟨hdistinct, ?_⟩, ?_, ?_⟩
  · rw [hcontent, hmirrored.content, t.content_write]
  · simp only [Store.importSeed, habsorb]
    rfl
  · exact Store.importSeed_holding t seed

/-- Both backends take a record or refuse it, with the same answer. -/
theorem create (hmirrored : Mirrored s t) (a : Authority) :
    ∃ s' t' answer, Mirrored s' t' ∧
      Operation.attempt (.memory s) ((Store.memory s).create a) = (.memory s', answer) ∧
      Operation.attempt (.holding t) ((Store.holding t).create a) = (.holding t', answer) := by
  rw [Store.create, Store.create_holding]
  -- the database refuses by its unique names, the memory store by looking first
  cases hinsert : t.insertAuthority? a with
  | none =>
      have htaken : s.createAuthority a = .error (nameTaken a.name) := by
        obtain ⟨b, hb, hname⟩ := (t.insertAuthority?_eq_none_iff a).mp hinsert
        rw [← hmirrored.authorities] at hb
        have hany : s.authorities.any (·.name == a.name) = true := by simpa using ⟨b, hb, hname⟩
        simp [Seed.createAuthority, hany]
      rw [htaken]
      exact ⟨s, t, _, hmirrored, rfl, rfl⟩
  | some next =>
      have hnew : ∀ b ∈ s.authorities, b.name ≠ a.name := by
        intro b hb hname
        rw [hmirrored.authorities] at hb
        have hnone := (t.insertAuthority?_eq_none_iff a).mpr ⟨b, hb, hname⟩
        cases hinsert.symm.trans hnone
      obtain ⟨s', hcreate, hdistinct, hcontent⟩ :=
        Seed.createAuthority_of_new hmirrored.distinct hnew
      rw [hcreate]
      refine ⟨s', next, .ok (), ⟨hdistinct, ?_⟩, rfl, rfl⟩
      rw [hcontent, hmirrored.content, Tables.content_insert hinsert]

/-- Both backends drop an authority or refuse to, with the same answer. -/
theorem delete (hmirrored : Mirrored s t) (name : String) :
    ∃ s' t' answer, Mirrored s' t' ∧
      Operation.attempt (.memory s) ((Store.memory s).delete name) = (.memory s', answer) ∧
      Operation.attempt (.holding t) ((Store.holding t).delete name) = (.holding t', answer) := by
  rw [Store.delete, Store.delete_holding]
  cases hfind : (t.authorities.find? name).isSome with
  | true =>
      obtain ⟨a, ha, hname⟩ := (Rows.find?_isSome_iff _ _).mp hfind
      rw [← hmirrored.authorities] at ha
      obtain ⟨s', hremove, hdistinct, hcontent⟩ :=
        Seed.removeAuthority_of_stored hmirrored.distinct ⟨a, ha, hname⟩
      rw [hremove]
      refine ⟨s', t.deleteAuthority name, .ok (), ⟨hdistinct, ?_⟩, rfl, rfl⟩
      rw [hcontent, hmirrored.content, t.content_deleteAuthority]
  | false =>
      have hmissing : s.removeAuthority? name = none := by
        rw [Bool.eq_false_iff, Ne, Rows.find?_isSome_iff, ← hmirrored.authorities] at hfind
        simpa [Seed.removeAuthority?] using hfind
      rw [hmissing]
      exact ⟨s, t, .error .notFound, hmirrored, rfl, rfl⟩

/-- Both backends answer an operation alike, and stay alike. -/
theorem apply (hmirrored : Mirrored s t) (op : Operation) :
    ∃ s' t' answer, Mirrored s' t' ∧ op.apply (.memory s) = (.memory s', answer) ∧
      op.apply (.holding t) = (.holding t', answer) := by
  cases op with
  | importSeed seed checked =>
      obtain ⟨s', t', hnext, hmemory, hdatabase⟩ := hmirrored.importSeed checked
      exact ⟨s', t', .ok (), hnext, hmemory, hdatabase⟩
  | create a => exact hmirrored.create a
  | delete name => exact hmirrored.delete name

/-- By induction, the same goes for any operations one after another. -/
theorem run (hmirrored : Mirrored s t) (ops : List Operation) :
    ∃ s' t' answers, Mirrored s' t' ∧ Operation.run (.memory s) ops = (.memory s', answers) ∧
      Operation.run (.holding t) ops = (.holding t', answers) := by
  induction ops generalizing s t with
  | nil => exact ⟨s, t, [], hmirrored, rfl, rfl⟩
  | cons op ops ih =>
      obtain ⟨s₁, t₁, answer, hfirst, hmemory, hdatabase⟩ := hmirrored.apply op
      obtain ⟨s', t', answers, hlast, hmemory', hdatabase'⟩ := ih hfirst
      refine ⟨s', t', answer :: answers, hlast, ?_, ?_⟩
      · simp only [Operation.run, hmemory, hmemory']
      · simp only [Operation.run, hdatabase, hdatabase']

end Mirrored

/-- Two stores that answer every reader alike. -/
structure Store.Alike (first second : Store) : Prop where
  listed : ∃ records, first.list = .ok records ∧ second.list = .ok records
  found : ∀ username, ∃ p q, first.find? username = .ok p ∧ second.find? username = .ok q ∧
    p.map Principal.view = q.map Principal.view
  resolved : ∀ (g : Guard) (username : String),
    { g with store := first }.resolve username = { g with store := second }.resolve username
  judged : ∀ (g : Guard) (principal : Option String) (target : String),
    ({ g with store := first }.evaluate principal target).value.2 =
        ({ g with store := second }.evaluate principal target).value.2 ∧
      ({ g with store := first }.evaluate principal target).value.1.cache =
        ({ g with store := second }.evaluate principal target).value.1.cache ∧
      ({ g with store := first }.require principal target).value.2 =
        ({ g with store := second }.require principal target).value.2

/-- What roles grant depends on them as a set. -/
theorem grantedBy_congr {roles others : List Role} (hsame : roleSet roles = roleSet others) :
    grantedBy roles = grantedBy others := by
  have hgrants : ∀ roles name, Grants roles name ↔
      ∃ x ∈ roleSet roles, ∃ a ∈ x.2,
        Text.isBlankText a.name = false ∧ Text.trim a.name = name := by
    intro roles name
    constructor
    · rintro ⟨r, hr, hgrant⟩
      exact ⟨_, ⟨r, hr, rfl⟩, hgrant⟩
    · rintro ⟨_, ⟨r, hr, rfl⟩, hgrant⟩
      exact ⟨r, hr, hgrant⟩
  apply AuthoritySet.ext_names
  intro name
  rw [mem_grantedBy, mem_grantedBy, hgrants, hgrants, hsame]

/-- Callers are resolved alike if they are found alike. -/
theorem resolve_congr (g : Guard) {first second : Store} {username : String}
    {p q : Option Principal} (hp : first.find? username = .ok p)
    (hq : second.find? username = .ok q) (hsame : p.map Principal.view = q.map Principal.view) :
    { g with store := first }.resolve username = { g with store := second }.resolve username := by
  simp only [Guard.resolve, hp, hq]
  cases p with
  | none =>
      cases q with
      | none => rfl
      | some q => cases hsame
  | some p =>
      cases q with
      | none => cases hsame
      | some q =>
          obtain ⟨hname, hroles⟩ := Prod.ext_iff.mp (Option.some.inj hsame)
          simp only [Principal.view] at hname hroles
          cases hp : p.roles with
          | none =>
              cases hq : q.roles with
              | none => simp [hp, hq, hname]
              | some others => rw [hp, hq] at hroles; cases hroles
          | some roles =>
              cases hq : q.roles with
              | none => rw [hp, hq] at hroles; cases hroles
              | some others =>
                  rw [hp, hq] at hroles
                  simp only [hp, hq, grantedBy_congr (Option.some.inj hroles)]

/-- Backends that mirror each other show the same. -/
theorem Mirrored.alike {s : Seed} {t : Tables} (hmirrored : Mirrored s t) :
    (Store.memory s).Alike (.holding t) := by
  have hlisted : (Store.memory s).list = (Store.holding t).list :=
    congrArg Except.ok hmirrored.authorities
  have hfound : ∀ username, ∃ p q, (Store.memory s).find? username = .ok p ∧
      (Store.holding t).find? username = .ok q ∧ p.map Principal.view = q.map Principal.view := by
    intro username
    refine ⟨s.findAssigned? username, t.findBetween? t username, rfl, rfl, ?_⟩
    rw [Seed.view_findAssigned hmirrored.distinct, t.view_findBetween, hmirrored.content]
  have hresolved : ∀ (g : Guard) (username : String),
      { g with store := .memory s }.resolve username =
        { g with store := .holding t }.resolve username := by
    intro g username
    obtain ⟨p, q, hp, hq, hsame⟩ := hfound username
    exact resolve_congr g hp hq hsame
  refine ⟨⟨s.authorities, rfl, hlisted.symm⟩, hfound, hresolved, ?_⟩
  intro g principal target
  obtain ⟨houtcome, hcache⟩ := Guard.evaluate_congr principal target
    (g := { g with store := .memory s }) (h := { g with store := .holding t }) rfl rfl hlisted
    (hresolved g)
  exact ⟨houtcome, hcache, by rw [Guard.outcome_require, Guard.outcome_require, houtcome]⟩

/-- The memory store and a migrated database, both empty at first, give the same
answers to the same operations and end up alike. -/
theorem run_alike (ops : List Operation) :
    (Operation.run (.memory {}) ops).2 =
        (Operation.run (Store.migrate (.database {})).value.1 ops).2 ∧
      (Operation.run (.memory {}) ops).1.Alike
        (Operation.run (Store.migrate (.database {})).value.1 ops).1 := by
  have hempty : Mirrored {} .empty := by
    refine ⟨⟨.nil, .nil, .nil⟩, ?_⟩
    ext1
    · rfl
    · rfl
    · rfl
    · ext role authority
      simp [Seed.content, Tables.content, Tables.empty, KeysLinked]
    · ext username role
      simp [Seed.content, Tables.content, Tables.empty, KeysLinked]
  obtain ⟨s, t, answers, hmirrored, hmemory, hdatabase⟩ := hempty.run ops
  have hmigrated : (Store.migrate (.database {})).value.1 = .holding .empty := rfl
  rw [hmigrated, hmemory, hdatabase]
  exact ⟨rfl, hmirrored.alike⟩

end RouteGuard.Directory
