import Mathlib.Data.Set.Basic
import RouteGuard.Proofs.Directory.Content

/-! # Principals found by name

A lookup is told by the content of a store. The memory store resolves the names
that it keeps; the database joins its tables in the order of the rows and groups
what stands together. Roles come back in different orders, and more than once
from the one and not from the other, so they are compared as sets.
-/

namespace RouteGuard.Directory

/-- The roles of a list as a set, each with the set of its authorities. -/
def roleSet (roles : List Role) : Set (String × Set Authority) :=
  {x | ∃ r ∈ roles, x = (r.name, {a | a ∈ r.authorities})}

/-- A principal with its roles as a set. -/
def Principal.view (p : Principal) : String × Option (Set (String × Set Authority)) :=
  (p.username, p.roles.map roleSet)

namespace Content

/-- The roles that are assigned to a name, with the authorities that they grant. -/
def rolesOf (c : Content) (username : String) : Set (String × Set Authority) :=
  {x | ∃ role ∈ c.roles, c.Assigns username role ∧
    x = (role, {a | a ∈ c.authorities ∧ c.Grants role a.name})}

def find? (c : Content) (username : String) :
    Option (String × Option (Set (String × Set Authority))) :=
  (c.principals.find? (·.username == username)).map fun row =>
    (row.username, if row.assigned then some (c.rolesOf row.username) else none)

end Content

/-! ### The memory store -/

namespace Seed

variable {s : Seed}

/-- The authorities listed for a role are those that are stored under its grants. -/
theorem mem_authoritiesNamed (hdistinct : s.Distinct) {names : List String} {a : Authority} :
    a ∈ s.authoritiesNamed names ↔ a ∈ s.authorities ∧ a.name ∈ names := by
  simp only [authoritiesNamed, List.mem_filterMap,
    find?_key_eq_some_iff hdistinct.authorities]
  constructor
  · rintro ⟨_, hname, ha, rfl⟩
    exact ⟨ha, hname⟩
  · rintro ⟨ha, hname⟩
    exact ⟨a.name, hname, ha, rfl⟩

/-- The set of authorities of a stored role. -/
theorem authorities_eq (hdistinct : s.Distinct) {r : SeedRole} (hr : r ∈ s.roles) :
    {a | a ∈ s.authoritiesNamed r.authorities} =
      {a | a ∈ s.content.authorities ∧ s.content.Grants r.name a.name} := by
  ext a
  simp only [Set.mem_ofPred_eq, mem_authoritiesNamed hdistinct, content]
  refine and_congr_right fun _ => ⟨fun hgrant => ⟨r, hr, rfl, hgrant⟩, ?_⟩
  rintro ⟨other, hother, hname, hgrant⟩
  rwa [← List.inj_on_of_nodup_map hdistinct.roles hother hr hname]

theorem roleSet_assigned (hdistinct : s.Distinct) {p : SeedPrincipal} (hp : p ∈ s.principals)
    {names : List String} (hroles : p.roles = some names) :
    roleSet ((names.filterMap fun name => s.roles.find? (·.name == name)).map fun r =>
        { name := r.name, authorities := s.authoritiesNamed r.authorities }) =
      s.content.rolesOf p.username := by
  have hassigned : ∀ role, s.content.Assigns p.username role ↔ role ∈ names := by
    intro role
    constructor
    · rintro ⟨other, hother, hname, hrole⟩
      obtain rfl := List.inj_on_of_nodup_map hdistinct.principals hother hp hname
      simpa [hroles] using hrole
    · intro hrole
      exact ⟨p, hp, rfl, by simpa [hroles] using hrole⟩
  ext x
  simp only [roleSet, Content.rolesOf, Set.mem_ofPred_eq, List.mem_map, List.mem_filterMap,
    find?_key_eq_some_iff hdistinct.roles, hassigned]
  constructor
  · rintro ⟨_, ⟨r, ⟨_, hname, hr, rfl⟩, rfl⟩, rfl⟩
    refine ⟨r.name, List.mem_map_of_mem hr, hname, ?_⟩
    rw [authorities_eq hdistinct hr]
  · rintro ⟨role, hstored, hname, rfl⟩
    obtain ⟨r, hr, rfl⟩ := List.mem_map.mp hstored
    refine ⟨_, ⟨r, ⟨r.name, hname, hr, rfl⟩, rfl⟩, ?_⟩
    rw [authorities_eq hdistinct hr]

/-- A seed shows a principal as its contents do. -/
theorem view_findAssigned (hdistinct : s.Distinct) (username : String) :
    (s.findAssigned? username).map Principal.view = s.content.find? username := by
  have hrow : s.content.principals.find? (·.username == username) =
      (s.principals.find? (·.username == username)).map (·.row) := by
    simp only [content, List.find?_map]
    rfl
  rw [findAssigned?, Content.find?, hrow, Option.map_map, Option.map_map]
  cases hfind : s.principals.find? (·.username == username) with
  | none => rfl
  | some p =>
      have hp := (find?_key_eq_some_iff hdistinct.principals).mp hfind
      simp only [Option.map_some, Function.comp_apply, Principal.view, SeedPrincipal.row]
      cases hroles : p.roles with
      | none => rfl
      | some names => simp [roleSet_assigned hdistinct hp.1 hroles]

end Seed

/-! ### The database -/

namespace Tables

open Std

variable {t : Tables}

/-! The rows of the join -/

theorem mem_orNone {α : Type} {x : α} {xs : List α} : some x ∈ orNone xs ↔ x ∈ xs := by
  cases xs <;> simp [orNone]

theorem exists_mem_orNone {α : Type} (xs : List α) : ∃ x, x ∈ orNone xs := by
  cases xs with
  | nil => exact ⟨none, by simp [orNone]⟩
  | cons x xs => exact ⟨some x, by simp [orNone]⟩

theorem role_of_mem_rowsOfRole {role : Nat × String} {row : RoleRow}
    (hrow : row ∈ t.rowsOfRole role) : row.role = role := by
  obtain ⟨grant, _, hrow⟩ := List.mem_flatMap.mp hrow
  cases grant with
  | none => rw [List.mem_singleton.mp hrow]
  | some grant =>
      obtain ⟨authority, _, rfl⟩ := List.mem_map.mp hrow
      rfl

theorem exists_mem_rowsOfRole (t : Tables) (role : Nat × String) :
    ∃ row, row ∈ t.rowsOfRole role := by
  obtain ⟨grant, hgrant⟩ := exists_mem_orNone (t.grants.filter (·.1 == role.1))
  cases grant with
  | none => exact ⟨⟨role, none⟩, List.mem_flatMap.mpr ⟨none, hgrant, List.mem_singleton.mpr rfl⟩⟩
  | some grant =>
      obtain ⟨authority, hauthority⟩ :=
        exists_mem_orNone (t.authorities.rows.filter (·.1 == grant.2))
      exact ⟨⟨role, authority⟩,
        List.mem_flatMap.mpr ⟨some grant, hgrant, List.mem_map.mpr ⟨authority, hauthority, rfl⟩⟩⟩

/-- The rows of a role give the authorities that it is granted. -/
theorem authority_rowsOfRole {role : Nat × String} {a : Nat × Authority} :
    (∃ row ∈ t.rowsOfRole role, row.authority = some a) ↔
      a ∈ t.authorities.rows ∧ (role.1, a.1) ∈ t.grants := by
  constructor
  · rintro ⟨row, hrow, hauthority⟩
    obtain ⟨grant, hgrant, hrow⟩ := List.mem_flatMap.mp hrow
    cases grant with
    | none =>
        rw [List.mem_singleton.mp hrow] at hauthority
        cases hauthority
    | some grant =>
        obtain ⟨_, hmem, rfl⟩ := List.mem_map.mp hrow
        cases hauthority
        obtain ⟨hgrant, hrole⟩ := List.mem_filter.mp (mem_orNone.mp hgrant)
        obtain ⟨ha, hnumber⟩ := List.mem_filter.mp (mem_orNone.mp hmem)
        have hsame : grant = (role.1, a.1) := by
          ext
          · simpa using hrole
          · simpa using (beq_iff_eq.mp hnumber).symm
        exact ⟨ha, hsame ▸ hgrant⟩
  · rintro ⟨ha, hgrant⟩
    refine ⟨⟨role, some a⟩, List.mem_flatMap.mpr ⟨some (role.1, a.1), ?_, ?_⟩, rfl⟩
    · exact mem_orNone.mpr (List.mem_filter.mpr ⟨hgrant, beq_self_eq_true _⟩)
    · refine List.mem_map.mpr ⟨some a, ?_, rfl⟩
      exact mem_orNone.mpr (List.mem_filter.mpr ⟨ha, beq_self_eq_true _⟩)

/-- The rows of a principal are those of the roles assigned to it. -/
theorem mem_roleRows {principal : Nat} {row : RoleRow} :
    row ∈ t.roleRows principal ↔
      ∃ role ∈ t.roles.rows, (principal, role.1) ∈ t.assignments ∧ row ∈ t.rowsOfRole role := by
  simp only [roleRows, List.mem_mergeSort, List.mem_flatMap, List.mem_filter, beq_iff_eq]
  constructor
  · rintro ⟨⟨_, number⟩, ⟨hlink, rfl⟩, role, ⟨hrole, rfl⟩, hrow⟩
    exact ⟨role, hrole, hlink, hrow⟩
  · rintro ⟨role, hrole, hlink, hrow⟩
    exact ⟨(principal, role.1), ⟨hlink, rfl⟩, role, ⟨hrole, rfl⟩, hrow⟩

instance : TransCmp RoleRow.order := by
  unfold RoleRow.order
  infer_instance

/-- The rows come in the order of the roles. -/
theorem pairwise_roleRows (principal : Nat) :
    (t.roleRows principal).Pairwise fun r s => r.role.1 ≤ s.role.1 := by
  have hsorted : (t.roleRows principal).Pairwise fun r s => (r.order s).isLE := by
    apply List.pairwise_mergeSort
    · exact fun _ _ _ => TransCmp.isLE_trans
    · intro r s
      have hswap : s.order r = (r.order s).swap := OrientedCmp.eq_swap
      rw [hswap]
      cases r.order s <;> rfl
  apply hsorted.imp
  intro r s hle
  -- the number of the role decides before that of the authority
  by_contra hlt
  have hgt : compare r.role.1 s.role.1 = .gt := Nat.compare_eq_gt.mpr (by omega)
  simp [RoleRow.order, compareLex, compareOn, hgt] at hle

/-- What a list of roles has to be for rows that stand together by role. -/
structure GroupedFrom (rows : List RoleRow) (roles : List Role) : Prop where
  head : roles.head?.map (·.name) = rows.head?.map (·.role.2)
  names : (roles.map (·.name)).Nodup
  mem_names : ∀ name, name ∈ roles.map (·.name) ↔ ∃ row ∈ rows, row.role.2 = name
  authorities : ∀ r ∈ roles, ∀ a, a ∈ r.authorities ↔
    ∃ row ∈ rows, row.role.2 = r.name ∧ ∃ n, row.authority = some (n, a)

namespace GroupedFrom

variable {row : RoleRow} {rest : List RoleRow} {roles more : List Role} {r : Role}

theorem mem_own {a : Authority} :
    a ∈ row.authority.toList.map (·.2) ↔ ∃ n, row.authority = some (n, a) := by
  cases row.authority with
  | none => simp
  | some authority => simp [Prod.ext_iff, eq_comm]

/-- A row of a new role in front. -/
theorem start (hrest : GroupedFrom rest roles) (hnew : ∀ s ∈ rest, s.role.2 ≠ row.role.2) :
    GroupedFrom (row :: rest) (⟨row.role.2, row.authority.toList.map (·.2)⟩ :: roles) where
  head := rfl
  names := by
    rw [List.map_cons, List.nodup_cons]
    refine ⟨fun hmem => ?_, hrest.names⟩
    obtain ⟨s, hs, hname⟩ := (hrest.mem_names _).mp hmem
    exact hnew s hs hname
  mem_names := by
    intro name
    rw [List.map_cons, List.mem_cons, hrest.mem_names]
    simp [eq_comm]
  authorities := by
    intro r hr a
    rcases List.mem_cons.mp hr with rfl | hr
    · rw [mem_own]
      constructor
      · exact fun hown => ⟨row, List.mem_cons_self, rfl, hown⟩
      · rintro ⟨s, hs, hname, hauthority⟩
        rcases List.mem_cons.mp hs with rfl | hs
        · exact hauthority
        · exact absurd hname (hnew s hs)
    · rw [hrest.authorities r hr]
      have hother : row.role.2 ≠ r.name := by
        intro hname
        obtain ⟨s, hs, hsame⟩ := (hrest.mem_names r.name).mp (List.mem_map_of_mem hr)
        exact hnew s hs (hsame.trans hname.symm)
      simp [hother]

/-- A row of the first role in front. -/
theorem extend (hrest : GroupedFrom rest (r :: more)) (hsame : r.name = row.role.2) :
    GroupedFrom (row :: rest)
      (⟨r.name, row.authority.toList.map (·.2) ++ r.authorities⟩ :: more) where
  head := congrArg some hsame
  names := hrest.names
  mem_names := by
    intro name
    have hrest' := hrest.mem_names name
    rw [List.map_cons, List.mem_cons] at hrest' ⊢
    rw [hrest']
    constructor
    · rintro ⟨s, hs, hname⟩
      exact ⟨s, List.mem_cons_of_mem _ hs, hname⟩
    · rintro ⟨s, hs, hname⟩
      rcases List.mem_cons.mp hs with rfl | hs
      · exact hrest'.mp (Or.inl (hname.symm.trans hsame.symm))
      · exact ⟨s, hs, hname⟩
  authorities := by
    intro other hother a
    rcases List.mem_cons.mp hother with rfl | hother
    · rw [List.mem_append, mem_own, hrest.authorities r List.mem_cons_self]
      simp [hsame]
    · rw [hrest.authorities other (List.mem_cons_of_mem _ hother)]
      have hne : row.role.2 ≠ other.name := by
        rw [← hsame]
        have hnames := hrest.names
        rw [List.map_cons, List.nodup_cons] at hnames
        exact fun hname => hnames.1 (hname ▸ List.mem_map_of_mem hother)
      simp [hne]

end GroupedFrom

/-- Rows that come role by role are grouped by role, with nothing lost or added. -/
theorem groupedFrom_grouped (rows : List RoleRow)
    (hsorted : rows.Pairwise fun r s => r.role.1 ≤ s.role.1)
    (hnames : ∀ r ∈ rows, ∀ s ∈ rows, r.role.2 = s.role.2 ↔ r.role.1 = s.role.1) :
    GroupedFrom rows (grouped rows) := by
  induction rows with
  | nil => exact ⟨rfl, .nil, by simp [grouped], by simp [grouped]⟩
  | cons row rest ih =>
      rw [List.pairwise_cons] at hsorted
      have hrest := ih hsorted.2 fun r hr s hs =>
        hnames r (List.mem_cons_of_mem _ hr) s (List.mem_cons_of_mem _ hs)
      rw [grouped]
      cases hgrouped : grouped rest with
      | nil =>
          rw [hgrouped] at hrest
          have hnil : rest = [] := by simpa using hrest.head.symm
          exact hrest.start (by simp [hnil])
      | cons r more =>
          rw [hgrouped] at hrest
          dsimp only
          split
          next hsame => exact hrest.extend hsame
          next hother =>
            refine hrest.start fun s hs hname => hother ?_
            -- the head of `rest` lies between two rows of one number
            cases rest with
            | nil => cases hs
            | cons first rest =>
                have hfirst : r.name = first.role.2 := by simpa using hrest.head
                have hbefore : row.role.1 ≤ first.role.1 := hsorted.1 first List.mem_cons_self
                have hafter : first.role.1 ≤ s.role.1 := by
                  rcases List.mem_cons.mp hs with rfl | hs
                  · exact Nat.le_refl _
                  · exact (List.pairwise_cons.mp hsorted.2).1 s hs
                have hnumber : s.role.1 = row.role.1 :=
                  (hnames s (List.mem_cons_of_mem _ hs) row List.mem_cons_self).mp hname
                rw [hfirst, hnames first (by simp) row (by simp)]
                omega

/-! ### Links in terms of rows -/

/-- An assignment of the contents is a link from the row of the principal. -/
theorem assigns_iff {number : Nat} {username role : String}
    (hkey : t.principals.KeyAt number username) :
    t.content.Assigns username role ↔
      ∃ m, (m, role) ∈ t.roles.rows ∧ (number, m) ∈ t.assignments := by
  constructor
  · rintro ⟨n, m, hlink, hn, _, hm, rfl⟩
    obtain rfl := hn.number_eq hkey
    exact ⟨m, hm, hlink⟩
  · rintro ⟨m, hm, hlink⟩
    exact ⟨number, m, hlink, hkey, role, hm, rfl⟩

/-- A grant of a stored authority is a link from the row of the role. -/
theorem grants_iff {m : Nat} {role : String} (hrole : (m, role) ∈ t.roles.rows) {a : Authority} :
    (a ∈ t.content.authorities ∧ t.content.Grants role a.name) ↔
      ∃ n, (n, a) ∈ t.authorities.rows ∧ (m, n) ∈ t.grants := by
  have hkey : t.roles.KeyAt m role := ⟨role, hrole, rfl⟩
  constructor
  · rintro ⟨ha, m', n, hlink, hm, hn⟩
    obtain ⟨⟨n', _⟩, hrow, rfl⟩ := List.mem_map.mp ha
    obtain rfl := hm.number_eq hkey
    obtain rfl : n = n' := hn.number_eq ⟨_, hrow, rfl⟩
    exact ⟨n, hrow, hlink⟩
  · rintro ⟨n, ha, hlink⟩
    exact ⟨List.mem_map.mpr ⟨(n, a), ha, rfl⟩, m, n, hlink, hkey, a, ha, rfl⟩

/-- A role of a principal has a row, and all that have its name are of it. -/
theorem exists_roleRow_iff {number : Nat} {role : String} :
    (∃ row ∈ t.roleRows number, row.role.2 = role) ↔
      ∃ m, (m, role) ∈ t.roles.rows ∧ (number, m) ∈ t.assignments := by
  constructor
  · rintro ⟨row, hrow, rfl⟩
    obtain ⟨stored, hstored, hlink, hrow⟩ := mem_roleRows.mp hrow
    obtain rfl := role_of_mem_rowsOfRole hrow
    exact ⟨row.role.1, hstored, hlink⟩
  · rintro ⟨m, hstored, hlink⟩
    obtain ⟨row, hrow⟩ := t.exists_mem_rowsOfRole (m, role)
    exact ⟨row, mem_roleRows.mpr ⟨_, hstored, hlink, hrow⟩, by rw [role_of_mem_rowsOfRole hrow]⟩

/-- An assigned role comes with all authorities that it is granted. -/
theorem authority_roleRows {number m : Nat} {role : String} (hrole : (m, role) ∈ t.roles.rows)
    (hassigned : (number, m) ∈ t.assignments) {a : Authority} :
    (∃ row ∈ t.roleRows number, row.role.2 = role ∧ ∃ n, row.authority = some (n, a)) ↔
      ∃ n, (n, a) ∈ t.authorities.rows ∧ (m, n) ∈ t.grants := by
  constructor
  · rintro ⟨row, hrow, hname, n, hauthority⟩
    obtain ⟨stored, hstored, _, hrow⟩ := mem_roleRows.mp hrow
    obtain rfl := role_of_mem_rowsOfRole hrow
    have hsame : row.role = (m, role) := List.inj_on_of_nodup_map t.roles.unique hstored hrole hname
    rw [hsame] at hrow
    exact ⟨n, authority_rowsOfRole.mp ⟨row, hrow, hauthority⟩⟩
  · rintro ⟨n, ha, hlink⟩
    obtain ⟨row, hrow, hauthority⟩ :
        ∃ row ∈ t.rowsOfRole (m, role), row.authority = some (n, a) :=
      authority_rowsOfRole.mpr ⟨ha, hlink⟩
    refine ⟨row, mem_roleRows.mpr ⟨_, hrole, hassigned, hrow⟩, ?_, n, hauthority⟩
    rw [role_of_mem_rowsOfRole hrow]

theorem groupedFrom_roleRows (t : Tables) (number : Nat) :
    GroupedFrom (t.roleRows number) (grouped (t.roleRows number)) := by
  apply groupedFrom_grouped _ (t.pairwise_roleRows number)
  have hstored : ∀ row ∈ t.roleRows number, row.role ∈ t.roles.rows := by
    intro row hrow
    obtain ⟨role, hrole, _, hrow⟩ := mem_roleRows.mp hrow
    rwa [role_of_mem_rowsOfRole hrow]
  intro r hr s hs
  constructor
  · exact fun hname =>
      congrArg Prod.fst
        (List.inj_on_of_nodup_map t.roles.unique (hstored r hr) (hstored s hs) hname)
  · exact fun hnumber =>
      congrArg Prod.snd
        (List.inj_on_of_nodup_map t.roles.nodup_numbers (hstored r hr) (hstored s hs) hnumber)

/-- The second query of a lookup finds the roles that are assigned. -/
theorem roleSet_grouped {number : Nat} {username : String}
    (hkey : t.principals.KeyAt number username) :
    roleSet (grouped (t.roleRows number)) = t.content.rolesOf username := by
  have hgrouped := t.groupedFrom_roleRows number
  have hset : ∀ r ∈ grouped (t.roleRows number), {a | a ∈ r.authorities} =
      {a | a ∈ t.content.authorities ∧ t.content.Grants r.name a.name} := by
    intro r hr
    obtain ⟨m, hrole, hassigned⟩ :=
      exists_roleRow_iff.mp ((hgrouped.mem_names _).mp (List.mem_map_of_mem hr))
    ext a
    exact (hgrouped.authorities r hr a).trans
      ((authority_roleRows hrole hassigned).trans (grants_iff hrole).symm)
  ext x
  simp only [roleSet, Content.rolesOf, Set.mem_ofPred_eq, assigns_iff hkey]
  constructor
  · rintro ⟨r, hr, rfl⟩
    obtain ⟨m, hrole, hassigned⟩ :=
      exists_roleRow_iff.mp ((hgrouped.mem_names _).mp (List.mem_map_of_mem hr))
    exact ⟨r.name, List.mem_map.mpr ⟨_, hrole, rfl⟩, ⟨m, hrole, hassigned⟩, by rw [hset r hr]⟩
  · rintro ⟨role, _, hassigned, rfl⟩
    obtain ⟨r, hr, rfl⟩ :=
      List.mem_map.mp ((hgrouped.mem_names role).mpr (exists_roleRow_iff.mpr hassigned))
    exact ⟨r, hr, by rw [hset r hr]⟩

/-- Where nothing changes between its two statements, a lookup shows the contents. -/
theorem view_findBetween (t : Tables) (username : String) :
    (t.findBetween? t username).map Principal.view = t.content.find? username := by
  have hrow : t.content.principals.find? (·.username == username) =
      (t.principals.find? username).map (·.2) := by
    simp only [content, Rows.values, Rows.find?, List.find?_map]
    rfl
  rw [findBetween?, Content.find?, hrow, Option.map_map, Option.map_map]
  cases hfind : t.principals.find? username with
  | none => rfl
  | some row =>
      have hkey := Rows.keyAt_of_find? hfind
      simp only [Option.map_some, Function.comp_apply, Principal.view]
      rw [(Rows.find?_eq_some_iff.mp hfind).2]
      cases row.2.assigned with
      | false => rfl
      | true => simp [roleSet_grouped hkey]

end Tables

end RouteGuard.Directory
