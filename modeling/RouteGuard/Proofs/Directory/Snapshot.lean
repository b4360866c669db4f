import Mathlib.Data.List.Nodup
import Mathlib.Data.List.Perm.Basic
import RouteGuard.Proofs.Directory.Lookup

/-! # The records of a database

What the tables hold can be written down as a seed, each collection in the order
of the rows. A lookup in the tables is one in that seed: the join has each role
of a principal once and in order, with its authorities in order.
-/

namespace RouteGuard.Directory

/-! ### Lists with a key -/

/-- Elements that are found by their keys in a list that has them all. -/
theorem filterMap_find?_key {α : Type} {key : α → String} {xs ys : List α}
    (hkeys : (ys.map key).Nodup) (hsub : ∀ x ∈ xs, x ∈ ys) :
    (xs.map key).filterMap (fun k => ys.find? (key · == k)) = xs := by
  induction xs with
  | nil => rfl
  | cons x xs ih =>
      rw [List.forall_mem_cons] at hsub
      have hfind := (find?_key_eq_some_iff hkeys).mpr ⟨hsub.1, rfl⟩
      rw [List.map_cons, List.filterMap_cons, hfind, ih hsub.2]

/-- Parts that show which element they belong to share nothing. -/
theorem nodup_flatMap_of_key {α β γ : Type} (key : α → γ) (shown : β → γ) {f : α → List β}
    {xs : List α} (hkeys : (xs.map key).Nodup) (hparts : ∀ x ∈ xs, (f x).Nodup)
    (hshown : ∀ x ∈ xs, ∀ y ∈ f x, shown y = key x) : (xs.flatMap f).Nodup := by
  rw [List.nodup_flatMap]
  refine ⟨hparts, ?_⟩
  rw [List.Nodup, List.pairwise_map] at hkeys
  refine hkeys.imp_of_mem fun {x y} hx hy hne => ?_
  intro z hzx hzy
  exact hne ((hshown x hx z hzx).symm.trans (hshown y hy z hzy))

theorem Rows.nodup_rows {α : Type} {key : α → String} (t : Rows α key) : t.rows.Nodup :=
  t.nodup_numbers.of_map _

namespace Tables

open Std

variable {t : Tables} {role : Nat × String} {row : RoleRow}

/-! ### The rows of the join in order -/

/-- The authorities of a role with their numbers, in order. -/
def grantedRows (t : Tables) (role : Nat) : List (Nat × Authority) :=
  t.authorities.rows.filter fun a => t.grants.contains (role, a.1)

/-- The rows of a role, in the order of the join. -/
def orderedRows (t : Tables) (role : Nat × String) : List RoleRow :=
  (orNone (t.grantedRows role.1)).map (⟨role, ·⟩)

theorem orNone_of_ne_nil {α : Type} {xs : List α} (hne : xs ≠ []) : orNone xs = xs.map some := by
  cases xs with
  | nil => exact absurd rfl hne
  | cons x xs => rfl

theorem mem_grantedRows {number : Nat} {a : Nat × Authority} :
    a ∈ t.grantedRows number ↔ a ∈ t.authorities.rows ∧ (number, a.1) ∈ t.grants := by
  simp [grantedRows]

/-- A grant is of an authority that is there. -/
theorem exists_mem_grantedRows {link : Nat × Nat} (hlink : link ∈ t.grants) :
    ∃ a ∈ t.grantedRows link.1, a.1 = link.2 := by
  obtain ⟨a, ha, hnumber⟩ := List.mem_map.mp (t.grants_linked.known link hlink).2
  exact ⟨a, mem_grantedRows.mpr ⟨ha, hnumber ▸ hlink⟩, hnumber⟩

/-- What a role with grants comes to in the join. -/
theorem rowsOfRole_of_granted (hgranted : t.grants.filter (·.1 == role.1) ≠ []) :
    t.rowsOfRole role = (t.grants.filter (·.1 == role.1)).flatMap fun link =>
      (t.authorities.rows.filter (·.1 == link.2)).map fun a => ⟨role, some a⟩ := by
  rw [rowsOfRole, orNone_of_ne_nil hgranted, List.flatMap_map]
  refine List.flatMap_congr fun link hlink => ?_
  obtain ⟨a, ha, hnumber⟩ := exists_mem_grantedRows (List.mem_filter.mp hlink).1
  have hne : t.authorities.rows.filter (·.1 == link.2) ≠ [] :=
    List.ne_nil_of_mem (List.mem_filter.mpr ⟨(mem_grantedRows.mp ha).1, by simpa using hnumber⟩)
  dsimp only
  rw [orNone_of_ne_nil hne, List.map_map]
  rfl

theorem rowsOfRole_of_ungranted (hungranted : t.grants.filter (·.1 == role.1) = []) :
    t.rowsOfRole role = [⟨role, none⟩] := by
  rw [rowsOfRole, hungranted]
  rfl

theorem grantedRows_eq_nil_iff :
    t.grantedRows role.1 = [] ↔ t.grants.filter (·.1 == role.1) = [] := by
  rw [List.filter_eq_nil_iff, List.eq_nil_iff_forall_not_mem]
  constructor
  · intro hnone link hlink hsame
    obtain ⟨a, ha, _⟩ := exists_mem_grantedRows hlink
    rw [beq_iff_eq.mp hsame] at ha
    exact hnone a ha
  · intro hnone a ha
    exact hnone _ (mem_grantedRows.mp ha).2 (beq_self_eq_true _)

/-- The ordered rows are those of the role. -/
theorem mem_orderedRows : row ∈ t.orderedRows role ↔ row ∈ t.rowsOfRole role := by
  by_cases hgranted : t.grants.filter (·.1 == role.1) = []
  · rw [orderedRows, grantedRows_eq_nil_iff.mpr hgranted, rowsOfRole_of_ungranted hgranted]
    rfl
  · rw [orderedRows, orNone_of_ne_nil (grantedRows_eq_nil_iff.not.mpr hgranted),
      rowsOfRole_of_granted hgranted]
    simp only [List.map_map, List.mem_map, List.mem_flatMap, List.mem_filter, mem_grantedRows,
      beq_iff_eq, Function.comp_apply]
    constructor
    · rintro ⟨a, ⟨ha, hlink⟩, rfl⟩
      exact ⟨(role.1, a.1), ⟨hlink, rfl⟩, a, ⟨ha, rfl⟩, rfl⟩
    · rintro ⟨⟨_, _⟩, ⟨hlink, rfl⟩, a, ⟨ha, rfl⟩, rfl⟩
      exact ⟨a, ⟨ha, hlink⟩, rfl⟩

theorem nodup_partners {links : List (Nat × Nat)} (hlinks : links.Nodup) (number : Nat) :
    ((links.filter (·.1 == number)).map (·.2)).Nodup := by
  refine List.Nodup.map_on ?_ (hlinks.filter _)
  intro x hx y hy hsame
  have hfirst : x.1 = y.1 :=
    (beq_iff_eq.mp (List.mem_filter.mp hx).2).trans (beq_iff_eq.mp (List.mem_filter.mp hy).2).symm
  exact Prod.ext hfirst hsame

theorem nodup_rowsOfRole (t : Tables) (role : Nat × String) : (t.rowsOfRole role).Nodup := by
  by_cases hgranted : t.grants.filter (·.1 == role.1) = []
  · rw [rowsOfRole_of_ungranted hgranted]
    exact List.nodup_singleton _
  · rw [rowsOfRole_of_granted hgranted]
    -- the number of the authority shows the link
    have hnumber : ∀ link : Nat × Nat, ∀ row ∈ (t.authorities.rows.filter (·.1 == link.2)).map
        (fun a => (⟨role, some a⟩ : RoleRow)), row.authority.map (·.1) = some link.2 := by
      intro link row hrow
      obtain ⟨a, ha, rfl⟩ := List.mem_map.mp hrow
      exact congrArg some (beq_iff_eq.mp (List.mem_filter.mp ha).2)
    refine nodup_flatMap_of_key (fun link => some link.2) (fun row => row.authority.map (·.1))
      ?_ (fun link _ => ?_) fun link _ => hnumber link
    · have hpartners := nodup_partners t.grants_linked.unique role.1
      have hsome := hpartners.map (f := some) fun _ _ => Option.some.inj
      rwa [List.map_map] at hsome
    · refine (t.authorities.nodup_rows.filter _).map fun a b hsame => ?_
      simpa using hsame

/-- The join has no row twice. -/
theorem nodup_roleRows (t : Tables) (principal : Nat) : (t.roleRows principal).Nodup := by
  have hrole : ∀ number, ∀ row ∈ (t.roles.rows.filter (·.1 == number)).flatMap t.rowsOfRole,
      row.role ∈ t.roles.rows ∧ row.role.1 = number := by
    intro number row hrow
    obtain ⟨role, hrole, hrow⟩ := List.mem_flatMap.mp hrow
    obtain ⟨hstored, hnumber⟩ := List.mem_filter.mp hrole
    rw [role_of_mem_rowsOfRole hrow]
    exact ⟨hstored, beq_iff_eq.mp hnumber⟩
  rw [roleRows, (List.mergeSort_perm _ _).nodup_iff]
  refine nodup_flatMap_of_key (·.2) (·.role.1)
    (nodup_partners t.assignments_linked.unique principal) (fun link _ => ?_)
    fun link _ row hrow => (hrole link.2 row hrow).2
  refine nodup_flatMap_of_key id (·.role) ?_ (fun role _ => t.nodup_rowsOfRole role)
    fun role _ row hrow => role_of_mem_rowsOfRole hrow
  rw [List.map_id]
  exact t.roles.nodup_rows.filter _

/-! ### The order of the join -/

/-- Rows of an earlier role come first. -/
theorem isLE_order_of_lt {r s : RoleRow} (hlt : r.role.1 < s.role.1) :
    (r.order s).isLE = true := by
  have hcompare : compare r.role.1 s.role.1 = .lt := Nat.compare_eq_lt.mpr hlt
  simp [RoleRow.order, compareLex, compareOn, hcompare]

/-- Within a role, rows of an earlier authority come first. -/
theorem isLE_order_of_authority {a b : Nat × Authority} (hlt : a.1 < b.1) :
    (RoleRow.order ⟨role, some a⟩ ⟨role, some b⟩).isLE = true := by
  have hcompare : compare a.1 b.1 = .lt := Nat.compare_eq_lt.mpr hlt
  have hsome : compare (some a.1) (some b.1) = compare a.1 b.1 := rfl
  simp [RoleRow.order, compareLex, compareOn, hsome, hcompare]

/-- Two rows of the join that come before each other are the same. -/
theorem eq_of_isLE_order {principal : Nat} {r s : RoleRow} (hr : r ∈ t.roleRows principal)
    (hs : s ∈ t.roleRows principal) (hrs : (r.order s).isLE = true)
    (hsr : (s.order r).isLE = true) : r = s := by
  have hstored : ∀ row ∈ t.roleRows principal, row.role ∈ t.roles.rows ∧
      ∀ a, row.authority = some a → a ∈ t.authorities.rows := by
    intro row hrow
    obtain ⟨role, hrole, _, hrow⟩ := mem_roleRows.mp hrow
    obtain rfl := role_of_mem_rowsOfRole hrow
    exact ⟨hrole, fun a ha => (authority_rowsOfRole.mp ⟨row, hrow, ha⟩).1⟩
  have heq := OrientedCmp.isLE_antisymm hrs hsr
  simp only [RoleRow.order, compareLex, compareOn, Ordering.then_eq_eq,
    Std.compare_eq_iff_eq] at heq
  obtain ⟨hrole, hauthority⟩ := heq
  have hroles : r.role = s.role :=
    List.inj_on_of_nodup_map t.roles.nodup_numbers (hstored r hr).1 (hstored s hs).1 hrole
  have hauthorities : r.authority = s.authority := by
    cases hra : r.authority with
    | none =>
        rw [hra, Option.map_none, eq_comm, Option.map_eq_none_iff] at hauthority
        exact hauthority.symm
    | some a =>
        cases hsa : s.authority with
        | none => simp [hra, hsa] at hauthority
        | some b =>
            have hnumber : a.1 = b.1 := by simpa [hra, hsa] using hauthority
            rw [List.inj_on_of_nodup_map t.authorities.nodup_numbers ((hstored r hr).2 a hra)
              ((hstored s hs).2 b hsa) hnumber]
  cases r
  cases s
  exact congrArg₂ RoleRow.mk hroles hauthorities

theorem isLE_order_total (r s : RoleRow) : ((r.order s).isLE || (s.order r).isLE) = true := by
  have hswap : s.order r = (r.order s).swap := OrientedCmp.eq_swap
  rw [hswap]
  cases r.order s <;> rfl

theorem nodup_orderedRows (t : Tables) (role : Nat × String) : (t.orderedRows role).Nodup := by
  have hrows := t.authorities.nodup_rows.filter fun a => t.grants.contains (role.1, a.1)
  have hpartners : (orNone (t.grantedRows role.1)).Nodup := by
    by_cases hnil : t.grantedRows role.1 = []
    · rw [hnil]
      exact List.nodup_singleton _
    · rw [orNone_of_ne_nil hnil]
      exact hrows.map fun _ _ => Option.some.inj
  exact hpartners.map fun a b hsame => (RoleRow.mk.inj hsame).2

/-- The ordered rows stand in the order that the join asks for. -/
theorem pairwise_orderedRows (t : Tables) (role : Nat × String) :
    (t.orderedRows role).Pairwise fun r s => (r.order s).isLE = true := by
  by_cases hnil : t.grantedRows role.1 = []
  · rw [orderedRows, hnil]
    exact List.pairwise_singleton _ _
  · rw [orderedRows, orNone_of_ne_nil hnil, List.map_map, List.pairwise_map]
    have hincreasing := t.authorities.increasing
    rw [List.pairwise_map] at hincreasing
    exact (hincreasing.filter _).imp isLE_order_of_authority

/-- The join has the roles of a principal in order, each with its authorities. -/
theorem roleRows_eq (t : Tables) (principal : Nat) :
    t.roleRows principal = (t.assignedTo principal).flatMap t.orderedRows := by
  have hrole : ∀ role, ∀ row ∈ t.orderedRows role, row.role = role :=
    fun role row hrow => role_of_mem_rowsOfRole (mem_orderedRows.mp hrow)
  have hincreasing : (t.assignedTo principal).Pairwise (·.1 < ·.1) := by
    have hrows := t.roles.increasing
    rw [List.pairwise_map] at hrows
    exact hrows.filter _
  have hmem : ∀ row, row ∈ t.roleRows principal ↔
      row ∈ (t.assignedTo principal).flatMap t.orderedRows := by
    intro row
    simp [mem_roleRows, assignedTo, mem_orderedRows, and_assoc]
  have hsorted : ((t.assignedTo principal).flatMap t.orderedRows).Pairwise
      fun r s => (r.order s).isLE = true := by
    rw [List.pairwise_flatMap]
    refine ⟨fun role _ => t.pairwise_orderedRows role, hincreasing.imp fun hlt r hr s hs => ?_⟩
    apply isLE_order_of_lt
    rwa [hrole _ r hr, hrole _ s hs]
  have hnodup : ((t.assignedTo principal).flatMap t.orderedRows).Nodup := by
    refine nodup_flatMap_of_key id (·.role) ?_ (fun role _ => t.nodup_orderedRows role)
      fun role _ => hrole role
    rw [List.map_id]
    exact t.roles.nodup_rows.filter _
  refine List.Perm.eq_of_pairwise ?_ ?_ hsorted
    ((List.perm_ext_iff_of_nodup (t.nodup_roleRows principal) hnodup).mpr hmem)
  · exact fun r s hr hs => eq_of_isLE_order hr ((hmem s).mpr hs)
  · exact List.pairwise_mergeSort (fun _ _ _ => TransCmp.isLE_trans) isLE_order_total _

/-! ### Grouping -/

/-- Rows of one name in front of rows of another make one role. -/
theorem grouped_append {name : String} {rows rest : List RoleRow} (hne : rows ≠ [])
    (hrows : ∀ row ∈ rows, row.role.2 = name)
    (hrest : ∀ r, (grouped rest).head? = some r → r.name ≠ name) :
    grouped (rows ++ rest) =
      ⟨name, rows.flatMap fun row => row.authority.toList.map (·.2)⟩ :: grouped rest := by
  induction rows with
  | nil => exact absurd rfl hne
  | cons row rows ih =>
      obtain ⟨rfl, hrows⟩ := List.forall_mem_cons.mp hrows
      rw [List.cons_append, grouped]
      cases rows with
      | nil =>
          rw [List.nil_append]
          cases hgrouped : grouped rest with
          | nil => simp
          | cons r more =>
              have hother : r.name ≠ row.role.2 := hrest r (by rw [hgrouped]; rfl)
              simp [hother]
      | cons next rows =>
          rw [ih (List.cons_ne_nil _ _) hrows]
          simp

/-- The ordered rows of a role give the authorities that it is granted. -/
theorem flatMap_orderedRows (t : Tables) (role : Nat × String) :
    (t.orderedRows role).flatMap (fun row => row.authority.toList.map (·.2)) =
      t.grantedTo role.1 := by
  have hgranted : t.grantedTo role.1 = (t.grantedRows role.1).map (·.2) := rfl
  rw [hgranted, orderedRows]
  by_cases hnil : t.grantedRows role.1 = []
  · rw [hnil]
    rfl
  · rw [orNone_of_ne_nil hnil, List.map_map, List.flatMap_map]
    exact List.map_eq_flatMap.symm

/-- Grouped, the rows of several roles are the roles with their authorities. -/
theorem grouped_orderedRows (t : Tables) {roles : List (Nat × String)}
    (hnames : (roles.map (·.2)).Nodup) :
    grouped (roles.flatMap t.orderedRows) =
      roles.map fun role => ⟨role.2, t.grantedTo role.1⟩ := by
  induction roles with
  | nil => rfl
  | cons role roles ih =>
      rw [List.map_cons, List.nodup_cons] at hnames
      have hne : t.orderedRows role ≠ [] := by
        rw [orderedRows, Ne, List.map_eq_nil_iff]
        cases t.grantedRows role.1 <;> simp [orNone]
      have hrows : ∀ row ∈ t.orderedRows role, row.role.2 = role.2 := by
        intro row hrow
        rw [role_of_mem_rowsOfRole (mem_orderedRows.mp hrow)]
      have hrest : ∀ r, (grouped (roles.flatMap t.orderedRows)).head? = some r →
          r.name ≠ role.2 := by
        rw [ih hnames.2]
        intro r hhead hname
        obtain ⟨other, hother, rfl⟩ := List.mem_map.mp (List.mem_of_head? hhead)
        exact hnames.1 (List.mem_map.mpr ⟨other, hother, hname⟩)
      rw [List.flatMap_cons, grouped_append hne hrows hrest, ih hnames.2, flatMap_orderedRows]
      rfl

/-! ### Lookups -/

theorem distinct_toSeed (t : Tables) : t.toSeed.Distinct where
  authorities := t.authorities.nodup_keys
  roles := by
    rw [toSeed, List.map_map]
    exact t.roles.unique
  principals := by
    rw [toSeed, List.map_map]
    exact t.principals.unique

/-- The roles of a principal are those of its record, each with its authorities. -/
theorem grouped_roleRows (t : Tables) (principal : Nat) :
    grouped (t.roleRows principal) =
      (t.assignedTo principal).map fun role => ⟨role.2, t.grantedTo role.1⟩ := by
  rw [roleRows_eq]
  refine t.grouped_orderedRows ?_
  exact t.roles.unique.sublist (List.filter_sublist.map _)

/-- The records granted to a role are found again by their names. -/
theorem authoritiesNamed_toSeed (t : Tables) (role : Nat) :
    t.toSeed.authoritiesNamed ((t.grantedTo role).map (·.name)) = t.grantedTo role := by
  refine filterMap_find?_key t.authorities.nodup_keys fun a ha => ?_
  exact (List.filter_sublist.map _).mem ha

/-- The roles assigned to a principal are found again by their names. -/
theorem rolesNamed_toSeed (t : Tables) (principal : Nat) :
    (((t.assignedTo principal).map (·.2)).filterMap fun name =>
        t.toSeed.roles.find? (·.name == name)) =
      (t.assignedTo principal).map fun role => ⟨role.2, (t.grantedTo role.1).map (·.name)⟩ := by
  have hfind := @filterMap_find?_key _ (·.name) ((t.assignedTo principal).map fun role =>
    (⟨role.2, (t.grantedTo role.1).map (·.name)⟩ : SeedRole)) _ t.distinct_toSeed.roles ?_
  · rwa [List.map_map] at hfind
  · exact fun r hr => (List.filter_sublist.map _).mem hr

/-- A lookup in the tables is one in the memory store of their records. -/
theorem findBetween?_eq (t : Tables) (username : String) :
    t.findBetween? t username = t.toSeed.findAssigned? username := by
  have hrow : t.toSeed.principals.find? (·.username == username) =
      (t.principals.find? username).map fun row =>
        ⟨row.2.username,
          if row.2.assigned then some ((t.assignedTo row.1).map (·.2)) else none⟩ := by
    simp only [toSeed, Rows.find?, List.find?_map]
    rfl
  rw [findBetween?, Seed.findAssigned?, hrow, Option.map_map]
  apply congrArg (Option.map · _)
  funext row
  simp only [Function.comp_apply, grouped_roleRows]
  cases row.2.assigned with
  | false => rfl
  | true =>
      simp only [if_true, Option.map_some, rolesNamed_toSeed, List.map_map, Function.comp_def,
        authoritiesNamed_toSeed]

end Tables

/-! ### The content as a seed -/

namespace Content

open Classical

/-- A role with the authorities that it grants, in the order in which they were
first stored. -/
noncomputable def roleRecord (c : Content) (role : String) : SeedRole :=
  ⟨role, (c.authorities.map (·.name)).filter (c.Grants role ·)⟩

noncomputable def principalRecord (c : Content) (p : PrincipalRow) : SeedPrincipal :=
  ⟨p.username, if p.assigned then some (c.roles.filter (c.Assigns p.username ·)) else none⟩

/-- A content as a seed. -/
noncomputable def records (c : Content) : Seed where
  authorities := c.authorities
  roles := c.roles.map c.roleRecord
  principals := c.principals.map c.principalRecord

/-- Only what is stored is granted and assigned. -/
structure Closed (c : Content) : Prop where
  granted : ∀ role authority, c.Grants role authority → authority ∈ c.authorities.map (·.name)
  assigned : ∀ username role, c.Assigns username role → role ∈ c.roles

end Content

namespace Tables

variable {t : Tables}

/-- Tables grant and assign only what they hold. -/
theorem closed_content (t : Tables) : t.content.Closed where
  granted := by
    rintro role authority ⟨_, n, _, _, a, ha, rfl⟩
    exact List.mem_map_of_mem (List.mem_map_of_mem ha)
  assigned := by
    rintro username role ⟨_, n, _, _, name, hname, rfl⟩
    exact List.mem_map_of_mem hname

/-- Rows are linked if their keys are. -/
theorem keysLinked_iff {α β : Type} {key : α → String} {other : β → String} {left : Rows α key}
    {right : Rows β other} {links : List (Nat × Nat)} {x : Nat × α} {y : Nat × β}
    (hx : x ∈ left.rows) (hy : y ∈ right.rows) :
    KeysLinked left right links (key x.2) (other y.2) ↔ (x.1, y.1) ∈ links := by
  have hleft : left.KeyAt x.1 (key x.2) := ⟨x.2, hx, rfl⟩
  have hright : right.KeyAt y.1 (other y.2) := ⟨y.2, hy, rfl⟩
  constructor
  · rintro ⟨n, m, hlink, hn, hm⟩
    rwa [hleft.number_eq hn, hright.number_eq hm]
  · exact fun hlink => ⟨x.1, y.1, hlink, hleft, hright⟩

open Classical in
/-- The record of a role is told by its row. -/
theorem roleRecord_content {role : Nat × String} (hrole : role ∈ t.roles.rows) :
    t.content.roleRecord role.2 = ⟨role.2, (t.grantedTo role.1).map (·.name)⟩ := by
  have hrows : t.content.authorities = t.authorities.rows.map (·.2) := rfl
  rw [Content.roleRecord, hrows, List.map_map, List.filter_map, grantedTo, List.map_map]
  refine congrArg (SeedRole.mk role.2 <| List.map _ ·) (List.filter_congr fun a ha => ?_)
  rw [Bool.eq_iff_iff, List.contains_iff_mem, ← keysLinked_iff hrole ha]
  exact decide_eq_true_iff

open Classical in
/-- The record of a principal is told by its row. -/
theorem principalRecord_content {p : Nat × PrincipalRow} (hp : p ∈ t.principals.rows) :
    t.content.principalRecord p.2 =
      ⟨p.2.username, if p.2.assigned then some ((t.assignedTo p.1).map (·.2)) else none⟩ := by
  have hrows : t.content.roles = t.roles.rows.map (·.2) := rfl
  have hassigned : (t.content.roles.filter (t.content.Assigns p.2.username ·)) =
      (t.assignedTo p.1).map (·.2) := by
    rw [hrows, List.filter_map, assignedTo]
    refine congrArg _ (List.filter_congr fun role hrole => ?_)
    rw [Bool.eq_iff_iff, List.contains_iff_mem, ← keysLinked_iff hp hrole]
    exact decide_eq_true_iff
  rw [Content.principalRecord, hassigned]

/-- Tables of one content hold the same records. -/
theorem toSeed_eq (t : Tables) : t.toSeed = t.content.records := by
  have hroles : t.content.roles = t.roles.rows.map (·.2) := rfl
  have hprincipals : t.content.principals = t.principals.rows.map (·.2) := rfl
  rw [toSeed, Content.records, hroles, hprincipals, List.map_map, List.map_map, Seed.mk.injEq]
  refine ⟨rfl, ?_, ?_⟩
  · exact List.map_congr_left fun _ hrole => (roleRecord_content hrole).symm
  · exact List.map_congr_left fun _ hp => (principalRecord_content hp).symm

end Tables

end RouteGuard.Directory
