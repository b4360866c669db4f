import RouteGuard.Proofs.Directory.Backends
import RouteGuard.Proofs.Http.Loadable

/-! # Names that are told apart

Rules and grants compare the names of authorities in their trimmed form, and a
seed in which two names agree in that form is refused. A store compares names as
they are written. So a write can bring in a twin of a name that is stored with
blanks around it, but of no other.
-/

namespace RouteGuard.Directory

/-- No name has blanks around it, unless it is all blank. -/
def NamesTrimmed (records : List Authority) : Prop :=
  ∀ a ∈ records, Text.isBlankText a.name = true ∨ Text.trim a.name = a.name

variable {records : List Authority} {a : Authority}

namespace NamesApart

theorem eq_of_trim_eq (hapart : NamesApart records) {b : Authority} (ha : a ∈ records)
    (hb : b ∈ records) (hsame : Text.trim a.name = Text.trim b.name) : a = b :=
  List.inj_on_of_nodup_map hapart ha hb hsame

theorem filter (hapart : NamesApart records) (p : Authority → Bool) :
    NamesApart (records.filter p) :=
  hapart.sublist (List.filter_sublist.map _)

theorem concat_iff : NamesApart (records ++ [a]) ↔
    NamesApart records ∧ ∀ b ∈ records, Text.trim b.name ≠ Text.trim a.name := by
  simp [NamesApart, List.nodup_append]

/-- A new name that is trimmed and not blank is told apart from trimmed names. -/
theorem concat (hapart : NamesApart records) (htrimmed : NamesTrimmed records)
    (hblank : Text.isBlankText a.name = false) (htrim : Text.trim a.name = a.name)
    (hnew : ∀ b ∈ records, b.name ≠ a.name) : NamesApart (records ++ [a]) := by
  refine concat_iff.mpr ⟨hapart, fun b hb hsame => ?_⟩
  rcases htrimmed b hb with hb' | hb'
  · rw [← Text.isBlankText_trim, hsame, Text.isBlankText_trim, hblank] at hb'
    cases hb'
  · exact hnew b hb (by rw [← hb', hsame, htrim])

end NamesApart

/-- A store that a seed has been loaded into. -/
inductive Store.Holds (seed : Seed) : Store → Prop
  | memory : Store.Holds seed (.memory seed)
  | database : Store.Holds seed (.holding (Tables.empty.write seed))

theorem Store.Holds.list_eq {store : Store} {seed : Seed} (hholds : store.Holds seed)
    (hapart : NamesApart seed.authorities) : store.list = .ok seed.authorities := by
  cases hholds with
  | memory => rfl
  | database =>
      have hvalues : (Tables.empty.write seed).authorities.values = seed.authorities := by
        have hcontent := congrArg Content.authorities (Tables.empty.content_write seed)
        rw [Content.authorities_write] at hcontent
        exact hcontent.trans (foldl_putBy_eq_append _ _ hapart.nodup_names)
      exact congrArg Except.ok hvalues

end RouteGuard.Directory

namespace RouteGuard.Http.Service

open Directory (Authority NamesTrimmed Seed Store)

/-- The service after requests to change its records, made or refused. -/
def afterWrites (s : Service) (writes : List AdminWrite) : Service :=
  writes.foldl (fun s w => (w.handle s).value.1) s

/-- The stored names are told apart. -/
def NamesApart (s : Service) : Prop :=
  ∃ records, s.guard.store.list = .ok records ∧ Directory.NamesApart records

/-- The stored names are told apart, and trimmed. -/
def NamesTidy (s : Service) : Prop :=
  ∃ records, s.guard.store.list = .ok records ∧ Directory.NamesApart records ∧
    NamesTrimmed records

variable {s : Service}

/-- A write trims the name that it brings in, so it comes as no twin. -/
theorem NamesTidy.handle (htidy : s.NamesTidy) (w : AdminWrite) :
    (w.handle s).value.1.NamesTidy := by
  rcases s.handle_cases w with ⟨store, hstores⟩ | ⟨hsame, _⟩
  · obtain ⟨records, hlist, hapart, htrimmed⟩ := htidy
    rw [hstores.accepted.1]
    refine ⟨w.applied records, hstores.list_eq hlist, ?_⟩
    cases hstores with
    | create hread hstore =>
        obtain ⟨hblank, _, rfl, _⟩ := authorityOf_eq_ok_iff.mp hread
        refine ⟨hapart.concat htrimmed ?_ (Text.trim_trim _) (Store.list_create hlist hstore).1, ?_⟩
        · rw [Text.isBlankText_trim, hblank]
        · intro b hb
          rcases List.mem_append.mp hb with hbefore | hlast
          · exact htrimmed b hbefore
          · obtain rfl := List.mem_singleton.mp hlast
            exact Or.inr (Text.trim_trim _)
    | delete hstore =>
        exact ⟨hapart.filter _, fun b hb => htrimmed b (List.mem_filter.mp hb).1⟩
  · rw [hsame]
    exact htidy

theorem NamesTidy.afterWrites (htidy : s.NamesTidy) (writes : List AdminWrite) :
    (s.afterWrites writes).NamesTidy :=
  List.foldlRecOn _ _ htidy fun _ hbefore w _ => hbefore.handle w

/-- A write that stores the trimmed form of a name beside the name itself. -/
theorem not_namesApart_of_twin {records : List Authority} {a : Authority}
    (hlist : s.guard.store.list = .ok records) (hapart : Directory.NamesApart records)
    (ha : a ∈ records) (hblank : Text.isBlankText a.name = false)
    (hpadded : Text.trim a.name ≠ a.name) :
    ¬ (s.afterWrites [.create a.name "/"]).NamesApart := by
  let twin : Authority := ⟨Text.trim a.name, "/"⟩
  have hread : s.authorityOf a.name "/" = .ok twin := by
    have hroot : Text.trim "/" = "/" := by decide +kernel
    have hcompile : ∃ p, Pattern.compile s.mode "/" = .ok p := by
      cases s.mode with
      | exact => exact ⟨_, rfl⟩
      | folded => exact ⟨_, rfl⟩
    exact authorityOf_eq_ok_iff.mpr ⟨hblank, by decide +kernel, by rw [hroot], hcompile⟩
  -- the name is new as it is written, since it is not the name of `a`
  have hnew : ∀ b ∈ records, b.name ≠ twin.name := by
    intro b hb hname
    have hsame : Text.trim b.name = Text.trim a.name := by rw [hname, Text.trim_trim]
    obtain rfl := hapart.eq_of_trim_eq hb ha hsame
    exact hpadded hname.symm
  obtain ⟨store, hcreate⟩ := Store.exists_create hlist hnew
  have hstores : s.Stores (.create a.name "/") store := .create hread hcreate
  rintro ⟨now, hnow, hapart'⟩
  have hafter : s.afterWrites [.create a.name "/"] = s.rewritten store := hstores.accepted.1
  rw [hafter] at hnow
  obtain rfl := Except.ok.inj ((Store.list_create hlist hcreate).2.symm.trans hnow)
  exact (Directory.NamesApart.concat_iff.mp hapart').2 a ha (Text.trim_trim _).symm

/-- A service that starts from a checked seed, on either backend, tells its
authorities apart whatever is created and deleted, exactly if no name in the
seed has blanks around it. -/
theorem afterWrites_namesApart_iff {seed : Seed} (hchecked : seed.fault? = none)
    (hholds : s.guard.store.Holds seed) :
    (∀ writes, (s.afterWrites writes).NamesApart) ↔ NamesTrimmed seed.authorities := by
  have hapart := Directory.Seed.namesApart_of_checked hchecked
  have hlist := hholds.list_eq hapart
  constructor
  · intro hall a ha
    by_contra hnot
    obtain ⟨hblank, hpadded⟩ := not_or.mp hnot
    have htwin := not_namesApart_of_twin hlist hapart ha (by simpa using hblank) hpadded
    exact htwin (hall _)
  · intro htrimmed writes
    obtain ⟨records, hrecords, hapart', _⟩ :=
      NamesTidy.afterWrites ⟨_, hlist, hapart, htrimmed⟩ writes
    exact ⟨records, hrecords, hapart'⟩

/-- A seed with two authorities, one under a name of choice. -/
def auditSeed (name : String) : Seed where
  authorities := [⟨"ROLE_ADMIN", "/admin/**"⟩, ⟨name, "/audit/**"⟩]

/-- On either backend a blank before a name lets a twin of it in. -/
theorem afterWrites_namesApart_auditSeed :
    ((∀ writes, ((new {} (.memory (auditSeed "ROLE_AUDIT"))).afterWrites writes).NamesApart) ∧
        ¬ ∀ writes,
          ((new {} (.memory (auditSeed " ROLE_AUDIT"))).afterWrites writes).NamesApart) ∧
      (∀ writes, ((new {} (.holding (Directory.Tables.empty.write
          (auditSeed "ROLE_AUDIT")))).afterWrites writes).NamesApart) ∧
        ¬ ∀ writes, ((new {} (.holding (Directory.Tables.empty.write
          (auditSeed " ROLE_AUDIT")))).afterWrites writes).NamesApart := by
  have hclean : (auditSeed "ROLE_AUDIT").fault? = none := by decide +kernel
  have hpadded : (auditSeed " ROLE_AUDIT").fault? = none := by decide +kernel
  have htrimmed : NamesTrimmed (auditSeed "ROLE_AUDIT").authorities := by
    unfold NamesTrimmed
    decide +kernel
  have hblank : ¬ NamesTrimmed (auditSeed " ROLE_AUDIT").authorities := by
    unfold NamesTrimmed
    decide +kernel
  refine ⟨⟨?_, ?_⟩, ?_, ?_⟩
  · exact (afterWrites_namesApart_iff hclean .memory).mpr htrimmed
  · exact fun hall => hblank ((afterWrites_namesApart_iff hpadded .memory).mp hall)
  · exact (afterWrites_namesApart_iff hclean .database).mpr htrimmed
  · exact fun hall => hblank ((afterWrites_namesApart_iff hpadded .database).mp hall)

end RouteGuard.Http.Service
