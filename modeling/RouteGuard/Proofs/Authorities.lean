import Mathlib.Data.List.Sort
import RouteGuard.Decision
import RouteGuard.Directory.Record
import RouteGuard.Proofs.Text.Trim

/-! # Sets of authorities, by their members

A set made from a list of names has the trimmed forms of those names that are
not blank. The same holds for all that a principal's roles grant.
-/

namespace RouteGuard

namespace AuthoritySet

theorem mem_insertMany (s : AuthoritySet) (names : List String) (m : String) :
    m ∈ (s.insertMany names).names ↔
      m ∈ s.names ∨ ∃ name ∈ names, Text.isBlankText name = false ∧ m = Text.trim name := by
  induction names generalizing s with
  | nil => simp [insertMany]
  | cons name names ih =>
      have hstep : s.insertMany (name :: names) = (s.insert name).insertMany names := rfl
      rw [hstep, ih, mem_insert]
      simp [or_assoc]

theorem mem_ofList (names : List String) (m : String) :
    m ∈ (ofList names).names ↔
      ∃ name ∈ names, Text.isBlankText name = false ∧ m = Text.trim name := by
  rw [ofList, mem_insertMany]
  simp

/-- Sets are equal if they have the same members. -/
theorem ext_names {s t : AuthoritySet} (hmem : ∀ name, name ∈ s.names ↔ name ∈ t.names) :
    s = t := by
  have hnames : s.names = t.names := s.increasing.eq_of_mem_iff t.increasing hmem
  cases s
  cases t
  cases hnames
  rfl

/-- A name in its compared form makes a set of its own. -/
theorem names_ofList_singleton {name : String} (htrim : Text.trim name = name)
    (hblank : Text.isBlankText name = false) : (ofList [name]).names = [name] := by
  simp [ofList, insertMany, insert, hblank, htrim, insertName]

end AuthoritySet

namespace Directory

/-- Do the roles grant an authority whose name is compared as `name`? -/
def Grants (roles : List Role) (name : String) : Prop :=
  ∃ role ∈ roles, ∃ a ∈ role.authorities,
    Text.isBlankText a.name = false ∧ Text.trim a.name = name

theorem mem_grantedBy (roles : List Role) (name : String) :
    name ∈ (grantedBy roles).names ↔ Grants roles name := by
  rw [grantedBy, AuthoritySet.mem_ofList]
  constructor
  · rintro ⟨granted, hmem, hblank, rfl⟩
    obtain ⟨role, hrole, hnames⟩ := List.mem_flatMap.mp hmem
    obtain ⟨a, ha, rfl⟩ := List.mem_map.mp hnames
    exact ⟨role, hrole, a, ha, hblank, rfl⟩
  · rintro ⟨role, hrole, a, ha, hblank, rfl⟩
    exact ⟨a.name, List.mem_flatMap.mpr ⟨role, hrole, List.mem_map.mpr ⟨a, ha, rfl⟩⟩, hblank, rfl⟩

end Directory

/-- One required name, in its compared form, decides by membership. -/
theorem decideAccess_ofList_singleton {name : String} (htrim : Text.trim name = name)
    (hblank : Text.isBlankText name = false) (granted : AuthoritySet) :
    decideAccess granted (some (.ofList [name])) =
      if name ∈ granted.names then .permit else .deny .insufficientAuthority := by
  have hnames := AuthoritySet.names_ofList_singleton htrim hblank
  have hempty : (AuthoritySet.ofList [name]).isEmpty = false := by
    simp [AuthoritySet.isEmpty, hnames]
  have hshared : granted.intersects (.ofList [name]) = decide (name ∈ granted.names) := by
    rw [Bool.eq_iff_iff, AuthoritySet.intersects_eq_true_iff, hnames]
    simp
  simp [decideAccess, hempty, hshared]

end RouteGuard
