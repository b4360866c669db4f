import RouteGuard.Proofs.Directory.Backends

/-! # Lookups among writes

The database looks a principal up in two queries, one for its row and one for its
roles, and writes may commit between them. The row says whether a role collection
is assigned, so an import that takes the collection away between the queries
leaves a lookup with an empty collection that may never have been stored. In all
other cases the answer is that of a single query at some moment of the call.
-/

namespace RouteGuard.Directory

/-- A write has committed and taken the tables from `t` to `u`. -/
inductive Commits (t u : Tables) : Prop
  | importSeed (seed : Seed)
    (hwrite : ((Store.holding t).importSeed seed).value = (.holding u, .ok ()))
  | delete (name : String) (hwrite : (Store.holding t).delete name = .ok (.holding u))

/-- A lookup while writes commit: the states of the database from the beginning
of the call to its end, and those that its two queries see. -/
structure SplitLookup where
  states : List Tables
  committed : ∀ n (h : n + 1 < states.length), Commits states[n] states[n + 1]
  first : Fin states.length
  second : Fin states.length
  ordered : first ≤ second

/-- A role collection is assigned to the principal. -/
def Tables.Assigned (t : Tables) (username : String) : Prop :=
  ∃ row, t.principals.find? username = some row ∧ row.2.assigned = true

namespace SplitLookup

variable (l : SplitLookup)

/-- What the first query sees. -/
def atFirst : Tables := l.states[l.first]

def atSecond : Tables := l.states[l.second]

def answer (username : String) : Option Principal := l.atFirst.findBetween? l.atSecond username

/-- The answer is that of a lookup at some moment of the call. -/
def Whole (username : String) : Prop :=
  ∃ t ∈ l.states, l.answer username = t.findBetween? t username

end SplitLookup

/-! ### What writes keep -/

namespace Content

/-- A principal without a collection is assigned no role. -/
structure Settled (c : Content) (username : String) : Prop where
  distinct : (c.principals.map (·.username)).Nodup
  unset : ∀ row ∈ c.principals, row.username = username → row.assigned = false →
    ∀ role, ¬ c.Assigns username role

namespace Settled

variable {c : Content} {username : String}

theorem deleteAuthority (hsettled : c.Settled username) (name : String) :
    (c.deleteAuthority name).Settled username :=
  ⟨hsettled.distinct, hsettled.unset⟩

theorem writePrincipal (hsettled : c.Settled username) (p : SeedPrincipal) :
    (c.writePrincipal p).Settled username where
  distinct := nodup_map_putBy hsettled.distinct
  unset := by
    intro row hrow hname hunset role hassigns
    rcases (mem_putBy_iff hsettled.distinct).mp hrow with rfl | ⟨hbefore, hother⟩
    · rcases hassigns with ⟨_, hother⟩ | ⟨_, hrole, _⟩
      · exact hother hname.symm
      · -- without a collection no role is written
        have hnone : p.roles = none := by simpa [SeedPrincipal.row] using hunset
        simp [hnone] at hrole
    · rcases hassigns with ⟨hassigned, _⟩ | ⟨hsame, _⟩
      · exact hsettled.unset row hbefore hname hunset role hassigned
      · exact hother (hname.trans hsame)

/-- An import leaves no role to a principal without a collection. -/
theorem write (hsettled : c.Settled username) (seed : Seed) : (c.write seed).Settled username := by
  refine write_keeps (motive := fun c => c.Settled username) hsettled seed ?_ ?_ ?_
  · exact fun _ _ hbefore => ⟨hbefore.distinct, hbefore.unset⟩
  · exact fun _ _ _ hbefore => ⟨hbefore.distinct, hbefore.unset⟩
  · exact fun _ p hbefore => hbefore.writePrincipal p

end Settled

end Content

namespace Tables

variable {t u : Tables} {username : String}

theorem principals_writeRole (t : Tables) (r : SeedRole) :
    (t.writeRole r).principals = t.principals := by
  let Kept (u : Tables) : Prop := u.principals = t.principals
  refine List.foldlRecOn (motive := Kept) _ _ rfl fun u hbefore a _ => ?_
  obtain ⟨_, hgrant⟩ := u.grant_eq r.name a
  rw [hgrant]
  exact hbefore

theorem principals_writePrincipal (t : Tables) (p : SeedPrincipal) :
    (t.writePrincipal p).principals = t.principals.upsert p.row := by
  let Kept (u : Tables) : Prop := u.principals = t.principals.upsert p.row
  refine List.foldlRecOn (motive := Kept) _ _ rfl fun u hbefore r _ => ?_
  obtain ⟨_, hassign⟩ := u.assign_eq p.username r
  rw [hassign]
  exact hbefore

/-- A principal keeps its number. -/
theorem keyAt_write {n : Nat} (hkey : t.principals.KeyAt n username) (seed : Seed) :
    (t.write seed).principals.KeyAt n username := by
  let Kept (u : Tables) : Prop := u.principals.KeyAt n username
  have hauthorities : Kept (seed.authorities.foldl putAuthority t) :=
    List.foldlRecOn _ _ hkey fun _ hbefore _ _ => hbefore
  have hroles : Kept (seed.roles.foldl writeRole (seed.authorities.foldl putAuthority t)) :=
    List.foldlRecOn _ _ hauthorities fun u hbefore r _ => by
      change (u.writeRole r).principals.KeyAt n username
      rw [principals_writeRole]
      exact hbefore
  refine List.foldlRecOn (motive := Kept) _ _ hroles fun u hbefore p _ => ?_
  change (u.writePrincipal p).principals.KeyAt n username
  rw [principals_writePrincipal]
  exact (Rows.keyAt_upsert hbefore.mem).mpr hbefore

/-- A principal under its number, with nothing left behind where its collection
is taken away. -/
structure Keeps (n : Nat) (username : String) (t : Tables) : Prop where
  key : t.principals.KeyAt n username
  settled : t.content.Settled username

/-- Every commit keeps the principal under its number. -/
theorem Keeps.commits {n : Nat} (hkeeps : Keeps n username t) (hcommits : Commits t u) :
    Keeps n username u := by
  cases hcommits with
  | importSeed seed hwrite =>
      rw [Store.importSeed_holding] at hwrite
      obtain rfl : t.write seed = u := by simpa [Store.holding] using hwrite
      refine ⟨keyAt_write hkeeps.key seed, ?_⟩
      rw [content_write]
      exact hkeeps.settled.write seed
  | delete name hwrite =>
      rw [Store.delete_holding] at hwrite
      split at hwrite
      · obtain rfl : t.deleteAuthority name = u := by simpa [Store.holding] using hwrite
        refine ⟨hkeeps.key, ?_⟩
        rw [content_deleteAuthority]
        exact hkeeps.settled.deleteAuthority name
      · cases hwrite

/-! ### The answer of two queries -/

variable {row : Nat × PrincipalRow}

theorem settled_of_assigned (hfind : t.principals.find? username = some row)
    (hassigned : row.2.assigned = true) : t.content.Settled username where
  distinct := t.principals.nodup_keys
  unset := by
    intro other hother hname hunset
    obtain ⟨hrow, hkey⟩ := Rows.find?_eq_some_iff.mp hfind
    have hsame : other = row.2 :=
      List.inj_on_of_nodup_map t.principals.nodup_keys hother (List.mem_map_of_mem hrow)
        (hname.trans hkey.symm)
    rw [hsame, hassigned] at hunset
    cases hunset

/-- Only an assigned collection is asked for. -/
theorem findBetween?_of_not_assigned (hnot : ¬ t.Assigned username) :
    t.findBetween? u username = t.findBetween? t username := by
  unfold findBetween?
  cases hfind : t.principals.find? username with
  | none => rfl
  | some row =>
      have hunset : row.2.assigned = false := by
        rw [← Bool.not_eq_true]
        exact fun hassigned => hnot ⟨row, hfind, hassigned⟩
      simp [hunset]

/-- A lookup that saw a collection reports the roles that it finds later. -/
theorem findBetween?_of_assigned (hfind : t.principals.find? username = some row)
    (hassigned : row.2.assigned = true) :
    t.findBetween? u username = some ⟨username, some (grouped (u.roleRows row.1))⟩ := by
  rw [findBetween?, hfind, Option.map_some, if_pos hassigned,
    (Rows.find?_eq_some_iff.mp hfind).2]

/-- The row of a principal is found under the number that it keeps. -/
theorem Keeps.exists_find? {n : Nat} (hkeeps : Keeps n username t) :
    ∃ p, t.principals.find? username = some (n, p) := by
  obtain ⟨p, hrow, hname⟩ := hkeeps.key
  exact ⟨p, Rows.find?_eq_some_iff.mpr ⟨hrow, hname⟩⟩

/-- Where the collection is taken away no role is found. -/
theorem Keeps.roleRows_eq_nil {n : Nat} (hkeeps : Keeps n username t)
    (hnot : ¬ t.Assigned username) : t.roleRows n = [] := by
  obtain ⟨p, hfind⟩ := hkeeps.exists_find?
  obtain ⟨hrow, hname⟩ := Rows.find?_eq_some_iff.mp hfind
  have hunset : p.assigned = false := by
    rw [← Bool.not_eq_true]
    exact fun hassigned => hnot ⟨(n, p), hfind, hassigned⟩
  rw [List.eq_nil_iff_forall_not_mem]
  intro row hmem
  have hlink := exists_roleRow_iff.mp ⟨row, hmem, rfl⟩
  exact hkeeps.settled.unset p (List.mem_map_of_mem hrow) hname hunset row.role.2
    ((assigns_iff hkeeps.key).mpr hlink)

end Tables

namespace SplitLookup

variable (l : SplitLookup) {username : String}

/-- What every write keeps is kept from the first query to the second. -/
theorem atSecond_of_commits {motive : Tables → Prop}
    (hcommits : ∀ t u, Commits t u → motive t → motive u) (hfirst : motive l.atFirst) :
    motive l.atSecond := by
  have hkept : ∀ n, l.first.val ≤ n → ∀ h : n < l.states.length, motive l.states[n] := by
    intro n hn
    induction n, hn using Nat.le_induction with
    | base => exact fun _ => hfirst
    | succ n _ ih => exact fun h => hcommits _ _ (l.committed n h) (ih (Nat.lt_of_succ_lt h))
  exact hkept l.second l.ordered l.second.isLt

theorem atFirst_mem : l.atFirst ∈ l.states := List.getElem_mem _

theorem atSecond_mem : l.atSecond ∈ l.states := List.getElem_mem _

/-- An answer with an assigned collection has the roles that the second query
finds, or none if the collection is no longer assigned. -/
theorem answer_of_assigned (hfirst : l.atFirst.Assigned username) :
    (l.atSecond.Assigned username ∧
        l.answer username = l.atSecond.findBetween? l.atSecond username) ∨
      (¬ l.atSecond.Assigned username ∧ l.answer username = some ⟨username, some []⟩) := by
  obtain ⟨⟨n, p⟩, hfind, hassigned⟩ := hfirst
  -- no write deletes a principal, so the second query still asks for its number
  have hkeeps : Tables.Keeps n username l.atSecond :=
    l.atSecond_of_commits (fun _ _ hcommits hkeeps => hkeeps.commits hcommits)
      ⟨Rows.keyAt_of_find? hfind, Tables.settled_of_assigned hfind hassigned⟩
  have hanswer := Tables.findBetween?_of_assigned (u := l.atSecond) hfind hassigned
  by_cases hsecond : l.atSecond.Assigned username
  · obtain ⟨q, hq⟩ := hkeeps.exists_find?
    have hstill : q.assigned = true := by
      obtain ⟨row, hrow, hstill⟩ := hsecond
      obtain rfl : (n, q) = row := Option.some.inj (hq.symm.trans hrow)
      exact hstill
    exact Or.inl ⟨hsecond, hanswer.trans (Tables.findBetween?_of_assigned hq hstill).symm⟩
  · refine Or.inr ⟨hsecond, hanswer.trans ?_⟩
    rw [hkeeps.roleRows_eq_nil hsecond]
    rfl

/-- A lookup tells of some moment of the call unless the collection is taken away
between its queries. Then the answer shows an empty collection, whether or not
that was ever stored. -/
theorem whole_iff (username : String) : l.Whole username ↔
    (l.atFirst.Assigned username → ¬ l.atSecond.Assigned username →
      ∃ t ∈ l.states, t.findBetween? t username = some ⟨username, some []⟩) := by
  by_cases hfirst : l.atFirst.Assigned username
  · rcases l.answer_of_assigned hfirst with ⟨hsecond, hanswer⟩ | ⟨hsecond, hanswer⟩
    · exact iff_of_true ⟨_, l.atSecond_mem, hanswer⟩ fun _ hnot => absurd hsecond hnot
    · simp only [Whole, hanswer, hfirst, hsecond, not_false_eq_true, forall_const, eq_comm]
  · exact iff_of_true ⟨_, l.atFirst_mem, Tables.findBetween?_of_not_assigned hfirst⟩
      fun hassigned => absurd hassigned hfirst

/-- The collection of one principal. -/
def hiring (roles : Option (List String)) : Seed where
  authorities := [⟨"ROLE_ADMIN", "/admin/**"⟩]
  roles := [⟨"admin", ["ROLE_ADMIN"]⟩]
  principals := [⟨"alice", roles⟩]

def hired : Tables := Tables.empty.write (hiring (some ["admin"]))

/-- Between the two queries an import takes the collection away. -/
def withdrawal : SplitLookup where
  states := [hired, hired.write (hiring none)]
  committed := by
    intro n h
    obtain rfl : n = 0 := Nat.lt_one_iff.mp (Nat.lt_of_succ_lt_succ h)
    exact .importSeed (hiring none) (by rw [Store.importSeed_holding]; rfl)
  first := ⟨0, Nat.two_pos⟩
  second := ⟨1, Nat.one_lt_two⟩
  ordered := Nat.zero_le 1

/-- The collection comes back empty, which it was neither before nor after. -/
theorem not_whole_withdrawal :
    withdrawal.answer "alice" = some ⟨"alice", some []⟩ ∧ ¬ withdrawal.Whole "alice" := by
  refine ⟨by decide +kernel, fun hwhole => ?_⟩
  have hfirst : withdrawal.atFirst.Assigned "alice" := ⟨_, rfl, rfl⟩
  have hsecond : ¬ withdrawal.atSecond.Assigned "alice" := by
    rintro ⟨row, hrow, hassigned⟩
    obtain rfl : (1, ⟨"alice", false⟩) = row := Option.some.inj hrow
    cases hassigned
  obtain ⟨t, ht, hempty⟩ := (withdrawal.whole_iff "alice").mp hwhole hfirst hsecond
  simp only [withdrawal, List.mem_cons, List.not_mem_nil, or_false] at ht
  rcases ht with rfl | rfl
  · exact absurd hempty (by decide +kernel)
  · exact absurd hempty (by decide +kernel)

end SplitLookup

end RouteGuard.Directory
