import RouteGuard.Proofs.Authorities

/-! # Access by names

Whether the holder of some roles is let in can be told from the names as they
are written, without the sets that are made of them. It does not matter how the
names are ordered, how often they are listed or by which role they are granted.
-/

namespace RouteGuard

open Directory

namespace AuthoritySet

/-- To share a name is symmetric. -/
theorem intersects_comm (s t : AuthoritySet) : s.intersects t = t.intersects s := by
  rw [Bool.eq_iff_iff, intersects_eq_true_iff, intersects_eq_true_iff]
  simp only [and_comm]

/-- A set is empty if all the names it is made of are blank. -/
theorem names_ofList_eq_nil_iff (names : List String) :
    (ofList names).names = [] ↔ ∀ name ∈ names, Text.trim name = "" := by
  simp only [List.eq_nil_iff_forall_not_mem, mem_ofList, Text.isBlankText_eq_false_iff]
  constructor
  · intro hnone name hname
    by_contra hblank
    exact hnone _ ⟨name, hname, hblank, rfl⟩
  · rintro hall _ ⟨name, hname, hblank, -⟩
    exact hblank (hall name hname)

end AuthoritySet

/-- Access is permitted if nothing is required or one of the required names is granted. -/
theorem decideAccess_eq_permit_iff (granted : AuthoritySet) (required : Option AuthoritySet) :
    decideAccess granted required = .permit ↔
      ∀ r, required = some r → r.names = [] ∨ ∃ n ∈ granted.names, n ∈ r.names := by
  rw [← decideAccess_isPermit_iff]
  cases decideAccess granted required <;> simp [Decision.isPermit]

/-- Does some role grant an authority of this name, as it is written? -/
def NameGranted (roles : List Role) (name : String) : Prop :=
  ∃ role ∈ roles, ∃ a ∈ role.authorities, a.name = name

theorem grants_iff {roles : List Role} {name : String} :
    Grants roles name ↔
      ∃ written, NameGranted roles written ∧ Text.trim written ≠ "" ∧ Text.trim written = name := by
  simp only [Grants, NameGranted, Text.isBlankText_eq_false_iff]
  constructor
  · rintro ⟨role, hrole, a, ha, hblank, rfl⟩
    exact ⟨a.name, ⟨role, hrole, a, ha, rfl⟩, hblank, rfl⟩
  · rintro ⟨_, ⟨role, hrole, a, ha, rfl⟩, hblank, rfl⟩
    exact ⟨role, hrole, a, ha, hblank, rfl⟩

/-- More names make a larger set. -/
theorem grantedBy_subset {roles more : List Role}
    (hmore : ∀ name, NameGranted roles name → NameGranted more name) :
    (grantedBy roles).names ⊆ (grantedBy more).names := by
  intro name
  rw [mem_grantedBy, mem_grantedBy, grants_iff, grants_iff]
  rintro ⟨written, hgranted, hname⟩
  exact ⟨written, hmore written hgranted, hname⟩

/-- What is granted depends on the names alone, not on the roles they came with. -/
theorem grantedBy_congr {roles others : List Role}
    (hsame : ∀ name, NameGranted others name ↔ NameGranted roles name) :
    grantedBy others = grantedBy roles :=
  AuthoritySet.ext_names fun _ =>
    ⟨fun hmem => grantedBy_subset (fun name => (hsame name).mp) hmem,
      fun hmem => grantedBy_subset (fun name => (hsame name).mpr) hmem⟩

/-- More names never take a permission away. -/
theorem decideAccess_mono {granted more : AuthoritySet} (hmore : granted.names ⊆ more.names)
    {required : Option AuthoritySet} (hpermit : decideAccess granted required = .permit) :
    decideAccess more required = .permit := by
  rw [decideAccess_eq_permit_iff] at hpermit ⊢
  intro r hr
  obtain hempty | ⟨name, hname, hrequired⟩ := hpermit r hr
  · exact Or.inl hempty
  · exact Or.inr ⟨name, hmore hname, hrequired⟩

/-- Required and granted names share one that is not blank, once both are trimmed. -/
theorem exists_mem_grantedBy_ofList_iff (roles : List Role) (names : List String) :
    (∃ n ∈ (grantedBy roles).names, n ∈ (AuthoritySet.ofList names).names) ↔
      ∃ role ∈ roles, ∃ a ∈ role.authorities, Text.trim a.name ≠ "" ∧
        ∃ name ∈ names, Text.trim a.name = Text.trim name := by
  simp only [mem_grantedBy, AuthoritySet.mem_ofList, Grants, Text.isBlankText_eq_false_iff]
  constructor
  · rintro ⟨_, ⟨role, hrole, a, ha, hblank, rfl⟩, name, hname, -, hsame⟩
    exact ⟨role, hrole, a, ha, hblank, name, hname, hsame⟩
  · rintro ⟨role, hrole, a, ha, hblank, name, hname, hsame⟩
    exact ⟨_, ⟨role, hrole, a, ha, hblank, rfl⟩, name, hname, hsame ▸ hblank, hsame⟩

/-- The holder of roles is let in if nothing is required, or only blank names
are, or a required name is that of an authority of some role, where blanks
around either do not count. Roles that grant the same names are as good as
these, whatever their order, their repetitions and their division. Roles that
grant more never do worse, and of two sets either may be the first one when it
is asked whether they share a name. -/
theorem decideAccess_by_names (roles : List Role) (required : Option (List String)) :
    (decideAccess (grantedBy roles) (required.map .ofList) = .permit ↔
        required = none ∨
        (∃ names, required = some names ∧ ∀ name ∈ names, Text.trim name = "") ∨
        ∃ names, required = some names ∧
          ∃ role ∈ roles, ∃ a ∈ role.authorities, Text.trim a.name ≠ "" ∧
            ∃ name ∈ names, Text.trim a.name = Text.trim name) ∧
      (∀ others, (∀ name, NameGranted others name ↔ NameGranted roles name) →
        decideAccess (grantedBy others) (required.map .ofList) =
          decideAccess (grantedBy roles) (required.map .ofList)) ∧
      (∀ more, (∀ name, NameGranted roles name → NameGranted more name) →
        decideAccess (grantedBy roles) (required.map .ofList) = .permit →
        decideAccess (grantedBy more) (required.map .ofList) = .permit) ∧
      ∀ s t : AuthoritySet, s.intersects t = t.intersects s := by
  refine ⟨?_, fun others hsame => by rw [grantedBy_congr hsame],
    fun more hmore => decideAccess_mono (grantedBy_subset hmore), AuthoritySet.intersects_comm⟩
  cases required with
  | none => simp [decideAccess]
  | some names =>
      simp only [Option.map_some, decideAccess_eq_permit_iff, Option.some.injEq, forall_eq',
        AuthoritySet.names_ofList_eq_nil_iff, exists_mem_grantedBy_ofList_iff, reduceCtorEq,
        false_or, exists_eq_left']

end RouteGuard
