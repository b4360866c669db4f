import RouteGuard.Proofs.Http.AdminWrites
import RouteGuard.Proofs.Rules.Protection

/-! # Rules that stay loadable

A record that is taken over is never compiled, so rules may load although one of
the stored patterns cannot be read. Whether accepted writes keep them loadable
depends on what comes to light when the records above such a pattern are
deleted.
-/

namespace RouteGuard.Rules

open Directory (Authority)
open Glob (CaseMode)

/-- The records can be made into a table. -/
def Builds (mode : CaseMode) (records : List Authority) : Prop :=
  ∃ t, Table.build mode records = .ok t

/-- The records of each name can be made into a table by themselves. -/
def BuildsByName (mode : CaseMode) (records : List Authority) : Prop :=
  ∀ name, Builds mode (records.filter (·.name == name))

variable {mode : CaseMode} {records : List Authority} {a : Authority}

/-- Only the patterns of records that keep their rule are compiled. -/
theorem builds_iff_kept :
    Builds mode records ↔ ∀ a, Kept mode records a → ∃ p, Pattern.compile mode a.url = .ok p := by
  rw [Builds, exists_build_iff]
  constructor
  · intro hclaims a hkept
    obtain ⟨p, hp⟩ := hclaims (claimOf mode a) ((mem_claimsOf_iff _).mpr ⟨a, hkept, rfl⟩)
    exact ⟨p, (compile_canonicalText mode a.url).symm.trans hp⟩
  · intro hkept c hc
    obtain ⟨a, ha, rfl⟩ := (mem_claimsOf_iff c).mp hc
    obtain ⟨p, hp⟩ := hkept a ha
    exact ⟨p, (compile_canonicalText mode a.url).trans hp⟩

/-- A record keeps its rule when others are removed. -/
theorem Kept.filter (hkept : Kept mode records a) {p : Authority → Bool} (ha : p a = true) :
    Kept mode (records.filter p) a := by
  obtain ⟨hbinds, before, after, rfl, hlast⟩ := hkept
  refine ⟨hbinds, before.filter p, after.filter p, by simp [ha], ?_⟩
  exact fun b hb => hlast b (List.mem_filter.mp hb).1

theorem Builds.nil : Builds mode [] := ⟨{}, by
  simp [Table.build, Table.ofDraft, Draft.ofRecords, Draft.collisions, pure, Except.pure]⟩

theorem Builds.singleton (hcompile : ∃ p, Pattern.compile mode a.url = .ok p) :
    Builds mode [a] := by
  rw [builds_iff_kept]
  intro b hkept
  obtain rfl := List.mem_singleton.mp hkept.mem
  exact hcompile

/-- In exact mode a record that is taken over has the pattern of the one that
takes it over. -/
theorem Builds.byName (hbuilds : Builds .exact records) : BuildsByName .exact records := by
  intro name
  rw [builds_iff_kept] at hbuilds ⊢
  intro a hkept
  have hmem : a ∈ records := (List.mem_filter.mp hkept.mem).1
  obtain ⟨b, hb, hkey⟩ := @exists_kept .exact _ _ hmem hkept.1
  have htext : canonicalText b.url = canonicalText a.url := hkey
  obtain ⟨p, hp⟩ := hbuilds b hb
  refine ⟨p, ?_⟩
  rw [← compile_canonicalText, ← htext, compile_canonicalText]
  exact hp

namespace BuildsByName

theorem builds (hnames : BuildsByName mode records) : Builds mode records := by
  rw [builds_iff_kept]
  intro a hkept
  exact builds_iff_kept.mp (hnames a.name) a (hkept.filter (by simp))

theorem concat (hnames : BuildsByName mode records) (hnew : ∀ b ∈ records, b.name ≠ a.name)
    (hcompile : ∃ p, Pattern.compile mode a.url = .ok p) : BuildsByName mode (records ++ [a]) := by
  intro name
  rw [List.filter_append]
  by_cases hname : a.name = name
  · have hnone : records.filter (·.name == name) = [] := by
      rw [List.filter_eq_nil_iff]
      intro b hb
      simpa [← hname] using hnew b hb
    rw [hnone]
    simpa [hname] using Builds.singleton hcompile
  · simpa [hname] using hnames name

theorem remove (hnames : BuildsByName mode records) (removed : String) :
    BuildsByName mode (records.filter (·.name != removed)) := by
  intro name
  rw [List.filter_filter]
  by_cases hname : name = removed
  · subst hname
    have hnone : records.filter (fun a => a.name == name && a.name != name) = [] := by
      simp [List.filter_eq_nil_iff]
    rw [hnone]
    exact .nil
  · have hsame : records.filter (fun a => a.name == name && a.name != removed) =
        records.filter (·.name == name) := by
      apply List.filter_congr
      intro a _
      by_cases ha : a.name = name <;> simp [ha, hname]
    rw [hsame]
    exact hnames name

end BuildsByName

end RouteGuard.Rules

namespace RouteGuard.Http

open Directory (Authority Store)
open Glob (CaseMode)
open Rules (Builds BuildsByName)

namespace Service

/-- The stored records can be read and made into a table. -/
def Loadable (s : Service) : Prop :=
  ∃ records, s.guard.store.list = .ok records ∧ Builds s.mode records

/-- Accepted writes lead from `s` to `t`. -/
inductive Written (s : Service) : Service → Prop
  | refl : s.Written s
  | write {t u : Service} {w : AdminWrite} (hrun : s.Written t) (haccepted : w.Accepted t u) :
      s.Written u

variable {s t : Service} {w : AdminWrite} {records : List Authority}

theorem mode_accepted (haccepted : w.Accepted s t) : t.mode = s.mode := by
  obtain ⟨store, _, rfl⟩ := accepted_iff.mp haccepted
  rfl

/-- A write adds a record with a readable pattern under a new name, or removes
the records of a name. -/
theorem list_accepted (hlist : s.guard.store.list = .ok records) (haccepted : w.Accepted s t) :
    (∃ a, (∀ b ∈ records, b.name ≠ a.name) ∧ (∃ p, Pattern.compile s.mode a.url = .ok p) ∧
        t.guard.store.list = .ok (records ++ [a])) ∨
      ∃ name, t.guard.store.list = .ok (records.filter (·.name != name)) := by
  obtain ⟨store, hstores, rfl⟩ := accepted_iff.mp haccepted
  cases hstores with
  | @create name url a _ hread hstore =>
      obtain ⟨_, _, _, hcompile⟩ := authorityOf_eq_ok_iff.mp hread
      obtain ⟨hnew, hnext⟩ := Store.list_create hlist hstore
      exact Or.inl ⟨a, hnew, hcompile, hnext⟩
  | @delete name _ hstore => exact Or.inr ⟨name, (Store.list_delete hlist hstore).2⟩

namespace Written

theorem mode_eq (hrun : s.Written t) : t.mode = s.mode := by
  induction hrun with
  | refl => rfl
  | write _ haccepted ih => exact (mode_accepted haccepted).trans ih

theorem buildsByName (hrun : s.Written t) (hlist : s.guard.store.list = .ok records)
    (hnames : BuildsByName s.mode records) :
    ∃ now, t.guard.store.list = .ok now ∧ BuildsByName s.mode now := by
  induction hrun with
  | refl => exact ⟨records, hlist, hnames⟩
  | write hrun haccepted ih =>
      obtain ⟨now, hnow, hbefore⟩ := ih
      rcases list_accepted hnow haccepted with ⟨a, hnew, hcompile, hnext⟩ | ⟨name, hnext⟩
      · exact ⟨_, hnext, hbefore.concat hnew (hrun.mode_eq ▸ hcompile)⟩
      · exact ⟨_, hnext, hbefore.remove name⟩

end Written

/-- Any names can be deleted, one after the other. -/
theorem exists_written_without (hlist : s.guard.store.list = .ok records) (names : List String) :
    ∃ t, s.Written t ∧ t.guard.store.list = .ok (records.filter (·.name ∉ names)) := by
  -- a name that is not stored cannot be deleted, so it is passed over
  induction names with
  | nil => exact ⟨s, .refl, by simpa using hlist⟩
  | cons name names ih =>
      obtain ⟨t, hrun, hnow⟩ := ih
      have hfilter : records.filter (·.name ∉ name :: names) =
          (records.filter (·.name ∉ names)).filter (·.name != name) := by
        rw [List.filter_filter]
        apply List.filter_congr
        intro a _
        by_cases ha : a.name = name <;> simp [ha]
      rw [hfilter]
      by_cases hstored : ∃ a ∈ records.filter (·.name ∉ names), a.name = name
      · obtain ⟨next, hdelete⟩ := Store.exists_delete hnow hstored
        exact ⟨_, hrun.write (Stores.delete hdelete).accepted, (Store.list_delete hnow hdelete).2⟩
      · refine ⟨t, hrun, ?_⟩
        rw [hnow, eq_comm, List.filter_eq_self.mpr]
        intro a ha
        simpa using fun hname => hstored ⟨a, ha, hname⟩

/-- Accepted writes keep the rules loadable, whatever they are, exactly if the
records of each name can be made into a table by themselves. In exact mode that
is so whenever the rules can be loaded. -/
theorem written_loadable_iff (hlist : s.guard.store.list = .ok records)
    (hbuilds : Builds s.mode records) :
    ((∀ t, s.Written t → t.Loadable) ↔ BuildsByName s.mode records) ∧
      (s.mode = .exact → ∀ t, s.Written t → t.Loadable) := by
  have hkeeps : BuildsByName s.mode records → ∀ t, s.Written t → t.Loadable := by
    intro hnames t hrun
    obtain ⟨now, hnow, hbuilds⟩ := hrun.buildsByName hlist hnames
    exact ⟨now, hnow, hrun.mode_eq.symm ▸ hbuilds.builds⟩
  refine ⟨⟨fun hloadable name => ?_, hkeeps⟩, fun hmode => ?_⟩
  · -- delete every other name that is stored
    obtain ⟨t, hrun, hnow⟩ :=
      exists_written_without hlist ((records.map (·.name)).filter (· != name))
    obtain ⟨now, hlist', hnow'⟩ := hloadable t hrun
    obtain rfl := Except.ok.inj (hnow.symm.trans hlist')
    have hfilter : records.filter (·.name ∉ (records.map (·.name)).filter (· != name)) =
        records.filter (·.name == name) := by
      apply List.filter_congr
      intro a ha
      have hmem : ∃ b ∈ records, b.name = a.name := ⟨a, ha, rfl⟩
      by_cases hname : a.name = name <;> simp [hname, hmem]
    rw [hfilter, hrun.mode_eq] at hnow'
    exact hnow'
  · apply hkeeps
    rw [hmode] at hbuilds ⊢
    exact hbuilds.byName

/-- A service in one of the modes that has these records only. -/
def holding (caseSensitive : Bool) (records : List Authority) : Service :=
  .new { auth := { enforcement := { caseSensitive } } } (.memory { authorities := records })

/-- In folded mode the second pattern takes over the first one, which cannot be
read. -/
def hiddenRecords : List Authority :=
  [⟨"ROLE_OLD", "/files/[a-Z]"⟩, ⟨"ROLE_NEW", "/files/[a-z]"⟩]

/-- Deleting an authority may make the rules unloadable in folded mode. In exact
mode the records would not have been loadable in the first place. -/
theorem written_not_loadable_hiddenRecords :
    ((holding false hiddenRecords).Loadable ∧
        ∃ t, (holding false hiddenRecords).Written t ∧ ¬ t.Loadable) ∧
      ((holding true (hiddenRecords.drop 1)).Loadable ∧
        ∀ t, (holding true (hiddenRecords.drop 1)).Written t → t.Loadable) := by
  have hfolded : Builds .folded hiddenRecords := by
    have hclaims : Rules.claimsOf .folded hiddenRecords =
        [⟨"/files/[a-z]", "/files/[a-z]", "ROLE_NEW"⟩] := by decide +kernel
    rw [Builds, Rules.exists_build_iff, hclaims]
    simp only [List.forall_mem_cons]
    exact ⟨⟨_, rfl⟩, by simp⟩
  have hexact : Builds .exact (hiddenRecords.drop 1) := .singleton ⟨_, rfl⟩
  -- on its own the hidden record keeps its rule, and its range is refused
  have hfault : ¬ BuildsByName .folded hiddenRecords := by
    intro hnames
    have hold := hnames "ROLE_OLD"
    have hkept : Rules.Kept .folded
        (hiddenRecords.filter (·.name == "ROLE_OLD")) ⟨"ROLE_OLD", "/files/[a-Z]"⟩ :=
      ⟨by decide +kernel, [], [], by decide, by simp⟩
    obtain ⟨p, hp⟩ := Rules.builds_iff_kept.mp hold _ hkept
    cases hp
  refine ⟨⟨⟨_, rfl, hfolded⟩, ?_⟩, ⟨_, rfl, hexact⟩, ?_⟩
  · by_contra hall
    refine hfault ((@written_loadable_iff (holding false hiddenRecords) _ rfl hfolded).1.mp ?_)
    intro t hrun
    by_contra hnot
    exact hall ⟨t, hrun, hnot⟩
  · exact (@written_loadable_iff (holding true (hiddenRecords.drop 1)) _ rfl hexact).2 rfl

end Service

end RouteGuard.Http
