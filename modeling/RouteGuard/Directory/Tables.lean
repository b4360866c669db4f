import RouteGuard.Directory.Seed

/-! # Tables

The database keeps its records in five tables. Authorities, roles and principals
have rows under numbers that are given out in increasing order and never twice,
so the rows of a table stand in the order in which they were inserted. Grants
and assignments link two rows by their numbers. Each statement on the tables
keeps names unique, links single, and every link between rows that exist.
-/

namespace RouteGuard.Directory

/-- Rows under increasing numbers. No two rows share a key. -/
structure Rows (α : Type) (key : α → String) where
  rows : List (Nat × α)
  /-- the number given out last -/
  last : Nat
  increasing : (rows.map (·.1)).Pairwise (· < ·)
  bounded : ∀ n ∈ rows.map (·.1), n ≤ last
  unique : (rows.map fun row => key row.2).Nodup
  deriving DecidableEq

namespace Rows

variable {α : Type} {key : α → String}

def empty : Rows α key := ⟨[], 0, .nil, nofun, .nil⟩

def numbers (t : Rows α key) : List Nat := t.rows.map (·.1)

/-- The contents of the rows in the order of their numbers. -/
def values (t : Rows α key) : List α := t.rows.map (·.2)

/-- The row with a key. -/
def find? (t : Rows α key) (k : String) : Option (Nat × α) :=
  t.rows.find? fun row => key row.2 == k

/-- The content `x` in place of the one with its key. -/
def replaced (key : α → String) (x : α) (row : Nat × α) : Nat × α :=
  if key row.2 = key x then (row.1, x) else row

theorem map_fst_replaced (key : α → String) (x : α) (rows : List (Nat × α)) :
    (rows.map (replaced key x)).map (·.1) = rows.map (·.1) := by
  rw [List.map_map]
  apply List.map_congr_left
  intro row _
  by_cases h : key row.2 = key x <;> simp [replaced, h]

/-- A replaced row keeps its key. -/
theorem map_key_replaced (key : α → String) (x : α) (rows : List (Nat × α)) :
    ((rows.map (replaced key x)).map fun row => key row.2) =
      rows.map fun row => key row.2 := by
  rw [List.map_map]
  apply List.map_congr_left
  intro row _
  by_cases h : key row.2 = key x <;> simp [replaced, h]

def replace (t : Rows α key) (x : α) : Rows α key where
  rows := t.rows.map (replaced key x)
  last := t.last
  increasing := (map_fst_replaced key x t.rows).symm ▸ t.increasing
  bounded := (map_fst_replaced key x t.rows).symm ▸ t.bounded
  unique := (map_key_replaced key x t.rows).symm ▸ t.unique

/-- Adds a row with a key of its own under the next number. -/
def append (t : Rows α key) (x : α) (hnew : t.find? (key x) = none) : Rows α key where
  rows := t.rows ++ [(t.last + 1, x)]
  last := t.last + 1
  increasing := by
    rw [List.map_append, List.pairwise_append]
    refine ⟨t.increasing, List.pairwise_singleton _ _, ?_⟩
    intro n hn m hm
    obtain rfl := List.mem_singleton.1 hm
    exact Nat.lt_succ_of_le (t.bounded n hn)
  bounded := by
    intro n hn
    rw [List.map_append] at hn
    rcases List.mem_append.1 hn with hn | hn
    · exact Nat.le_succ_of_le (t.bounded n hn)
    · exact Nat.le_of_eq (List.mem_singleton.1 hn)
  unique := by
    rw [List.map_append, List.nodup_append]
    refine ⟨t.unique, List.pairwise_singleton _ _, ?_⟩
    rintro k hk _ hx rfl
    obtain rfl := List.mem_singleton.1 hx
    obtain ⟨row, hrow, hkey⟩ := List.mem_map.1 hk
    have hnot := List.find?_eq_none.1 hnew row hrow
    simp [hkey] at hnot

/-- Inserts a row, unless its key is taken. -/
def insert? (t : Rows α key) (x : α) : Option (Rows α key) :=
  if hnew : t.find? (key x) = none then some (t.append x hnew) else none

/-- Inserts a row, or gives the row of its key new content. -/
def upsert (t : Rows α key) (x : α) : Rows α key :=
  if hnew : t.find? (key x) = none then t.append x hnew else t.replace x

/-- Deletes the row with a key. Its number is not given out again. -/
def delete (t : Rows α key) (k : String) : Rows α key where
  rows := t.rows.filter fun row => key row.2 != k
  last := t.last
  increasing := t.increasing.sublist (List.filter_sublist.map _)
  bounded := fun n hn => t.bounded n ((List.filter_sublist.map _).subset hn)
  unique := t.unique.sublist (List.filter_sublist.map _)

/-- No number is lost when a row is put in. -/
theorem numbers_subset_upsert (t : Rows α key) (x : α) : t.numbers ⊆ (t.upsert x).numbers := by
  intro n hn
  unfold upsert
  split
  · simp only [numbers, append, List.map_append]
    exact List.mem_append_left _ hn
  · simpa only [numbers, replace, map_fst_replaced] using hn

theorem numbers_subset_of_insert? {t u : Rows α key} {x : α} (hinsert : t.insert? x = some u) :
    t.numbers ⊆ u.numbers := by
  intro n hn
  unfold insert? at hinsert
  split at hinsert
  · obtain rfl := Option.some.inj hinsert
    simp only [numbers, append, List.map_append]
    exact List.mem_append_left _ hn
  · cases hinsert

theorem number_mem_of_find? {t : Rows α key} {k : String} {row : Nat × α}
    (hfind : t.find? k = some row) : row.1 ∈ t.numbers :=
  List.mem_map_of_mem (List.mem_of_find?_eq_some hfind)

end Rows

/-- Links between two tables: no link stands twice, and each joins a row of the
one to a row of the other. -/
structure Linked (left right : List Nat) (links : List (Nat × Nat)) : Prop where
  unique : links.Nodup
  known : ∀ link ∈ links, link.1 ∈ left ∧ link.2 ∈ right

namespace Linked

variable {left right : List Nat} {links : List (Nat × Nat)}

theorem nil : Linked left right [] := ⟨.nil, nofun⟩

theorem mono {left' right' : List Nat} (h : Linked left right links) (hleft : left ⊆ left')
    (hright : right ⊆ right') : Linked left' right' links :=
  ⟨h.unique, fun link hlink => ⟨hleft (h.known link hlink).1, hright (h.known link hlink).2⟩⟩

/-- What is left of the links still joins rows that exist. -/
theorem filter (h : Linked left right links) (p : Nat × Nat → Bool) :
    Linked left right (links.filter p) :=
  ⟨h.unique.sublist List.filter_sublist, fun link hlink => h.known link (List.mem_filter.1 hlink).1⟩

end Linked

/-- Adds a link, unless it is there. -/
def addLink (links : List (Nat × Nat)) (link : Nat × Nat) : List (Nat × Nat) :=
  if link ∈ links then links else links ++ [link]

theorem Linked.addLink {left right : List Nat} {links : List (Nat × Nat)} {link : Nat × Nat}
    (h : Linked left right links) (hleft : link.1 ∈ left) (hright : link.2 ∈ right) :
    Linked left right (addLink links link) := by
  unfold Directory.addLink
  split
  · exact h
  next hnew =>
    refine ⟨List.nodup_append.2 ⟨h.unique, List.pairwise_singleton _ _, ?_⟩, ?_⟩
    · rintro other hother _ hlast rfl
      exact hnew (List.mem_singleton.1 hlast ▸ hother)
    · intro other hother
      rcases List.mem_append.1 hother with hother | hlast
      · exact h.known other hother
      · exact List.mem_singleton.1 hlast ▸ ⟨hleft, hright⟩

/-- A principal as a row. Its roles are links of their own. -/
structure PrincipalRow where
  username : String
  /-- whether a role collection is assigned -/
  assigned : Bool
  deriving DecidableEq, Repr

structure Tables where
  authorities : Rows Authority (·.name)
  roles : Rows String id
  principals : Rows PrincipalRow (·.username)
  /-- role and authority of each grant -/
  grants : List (Nat × Nat)
  /-- principal and role of each assignment -/
  assignments : List (Nat × Nat)
  grants_linked : Linked roles.numbers authorities.numbers grants
  assignments_linked : Linked principals.numbers roles.numbers assignments
  deriving DecidableEq

namespace Tables

/-- The tables as a migration makes them. -/
def empty : Tables := ⟨.empty, .empty, .empty, [], [], .nil, .nil⟩

/-! ### Statements -/

def putAuthority (t : Tables) (a : Authority) : Tables :=
  { t with
    authorities := t.authorities.upsert a
    grants_linked := t.grants_linked.mono (fun _ => id) (t.authorities.numbers_subset_upsert a) }

/-- Inserts an authority, unless its name is taken. -/
def insertAuthority? (t : Tables) (a : Authority) : Option Tables :=
  match h : t.authorities.insert? a with
  | none => none
  | some authorities =>
    some { t with
      authorities
      grants_linked := t.grants_linked.mono (fun _ => id) (Rows.numbers_subset_of_insert? h) }

/-- Is there a row of this number whose authority has the name? -/
def isNamed (t : Tables) (name : String) (number : Nat) : Bool :=
  t.authorities.rows.any fun row => row.1 == number && row.2.name == name

/-- The number of a row with another name is still there after a deletion. -/
theorem mem_numbers_delete (t : Tables) {name : String} {number : Nat}
    (hnumber : number ∈ t.authorities.numbers) (hother : t.isNamed name number = false) :
    number ∈ (t.authorities.delete name).numbers := by
  obtain ⟨row, hrow, rfl⟩ := List.mem_map.1 hnumber
  refine List.mem_map_of_mem (List.mem_filter.2 ⟨hrow, ?_⟩)
  have hnot := List.any_eq_false.1 hother row hrow
  simpa using hnot

/-- Deletes the grants of an authority, and then the authority. -/
def deleteAuthority (t : Tables) (name : String) : Tables :=
  { t with
    authorities := t.authorities.delete name
    grants := t.grants.filter fun grant => !t.isNamed name grant.2
    grants_linked := by
      refine ⟨(t.grants_linked.filter _).unique, fun grant hgrant => ?_⟩
      obtain ⟨hmem, hother⟩ := List.mem_filter.1 hgrant
      obtain ⟨hrole, hauthority⟩ := t.grants_linked.known grant hmem
      exact ⟨hrole, t.mem_numbers_delete hauthority (by simpa using hother)⟩ }

def putRole (t : Tables) (name : String) : Tables :=
  { t with
    roles := t.roles.upsert name
    grants_linked := t.grants_linked.mono (t.roles.numbers_subset_upsert name) fun _ => id
    assignments_linked :=
      t.assignments_linked.mono (fun _ => id) (t.roles.numbers_subset_upsert name) }

def putPrincipal (t : Tables) (p : PrincipalRow) : Tables :=
  { t with
    principals := t.principals.upsert p
    assignments_linked :=
      t.assignments_linked.mono (t.principals.numbers_subset_upsert p) fun _ => id }

/-- Deletes all grants of a role. -/
def clearRole (t : Tables) (name : String) : Tables :=
  { t with
    grants := t.grants.filter fun grant => (t.roles.find? name).all (·.1 != grant.1)
    grants_linked := t.grants_linked.filter _ }

def clearPrincipal (t : Tables) (username : String) : Tables :=
  { t with
    assignments :=
      t.assignments.filter fun link => (t.principals.find? username).all (·.1 != link.1)
    assignments_linked := t.assignments_linked.filter _ }

/-- Grants an authority to a role. Nothing is done where either has no row. -/
def grant (t : Tables) (role authority : String) : Tables :=
  match hr : t.roles.find? role, ha : t.authorities.find? authority with
  | some r, some a =>
    { t with
      grants := addLink t.grants (r.1, a.1)
      grants_linked :=
        t.grants_linked.addLink (Rows.number_mem_of_find? hr) (Rows.number_mem_of_find? ha) }
  | _, _ => t

def assign (t : Tables) (username role : String) : Tables :=
  match hp : t.principals.find? username, hr : t.roles.find? role with
  | some p, some r =>
    { t with
      assignments := addLink t.assignments (p.1, r.1)
      assignments_linked :=
        t.assignments_linked.addLink (Rows.number_mem_of_find? hp) (Rows.number_mem_of_find? hr) }
  | _, _ => t

/-! ### Imports -/

/-- Writes a role with those of its grants that are stored. -/
def writeRole (t : Tables) (r : SeedRole) : Tables :=
  r.authorities.foldl (fun t a => t.grant r.name a) ((t.putRole r.name).clearRole r.name)

def writePrincipal (t : Tables) (p : SeedPrincipal) : Tables :=
  (p.roles.getD []).foldl (fun t r => t.assign p.username r)
    ((t.putPrincipal ⟨p.username, p.roles.isSome⟩).clearPrincipal p.username)

def write (t : Tables) (seed : Seed) : Tables :=
  let t := seed.authorities.foldl putAuthority t
  let t := seed.roles.foldl writeRole t
  seed.principals.foldl writePrincipal t

/-! ### Queries -/

/-- A role of a principal with one of its authorities, or with none. -/
structure RoleRow where
  role : Nat × String
  authority : Option (Nat × Authority)
  deriving DecidableEq, Repr

namespace RoleRow

/-- The order by the numbers of roles and then of authorities. A row without an
authority comes before those with one. -/
def order : RoleRow → RoleRow → Ordering :=
  compareLex (compareOn (·.role.1)) (compareOn fun row => row.authority.map (·.1))

end RoleRow

/-- The rows of a left join: all the partners, or none once. -/
def orNone {α : Type} : List α → List (Option α)
  | [] => [none]
  | xs => xs.map some

/-- The rows of a role, one for each of its authorities. -/
def rowsOfRole (t : Tables) (role : Nat × String) : List RoleRow :=
  (orNone (t.grants.filter (·.1 == role.1))).flatMap fun
    | none => [⟨role, none⟩]
    | some grant => (orNone (t.authorities.rows.filter (·.1 == grant.2))).map (⟨role, ·⟩)

/-- The roles of a principal joined with their authorities, in order. -/
def roleRows (t : Tables) (principal : Nat) : List RoleRow :=
  let joined := (t.assignments.filter (·.1 == principal)).flatMap fun link =>
    (t.roles.rows.filter (·.1 == link.2)).flatMap t.rowsOfRole
  joined.mergeSort fun r s => (r.order s).isLE

/-- Rows that stand together and have one role name make one role. -/
def grouped : List RoleRow → List Role
  | [] => []
  | row :: rest =>
    let own := row.authority.toList.map (·.2)
    match grouped rest with
    | [] => [⟨row.role.2, own⟩]
    | r :: more =>
      if r.name = row.role.2 then ⟨r.name, own ++ r.authorities⟩ :: more
      else ⟨row.role.2, own⟩ :: r :: more

/-- A principal from two queries. The second one runs only for an assigned
collection, and may see a later state than the first. -/
def findBetween? (first second : Tables) (username : String) : Option Principal :=
  (first.principals.find? username).map fun row =>
    { username := row.2.username
      roles := if row.2.assigned then some (grouped (second.roleRows row.1)) else none }

/-! ### The content as a seed -/

/-- The authorities of a role, in the order of their rows. -/
def grantedTo (t : Tables) (role : Nat) : List Authority :=
  (t.authorities.rows.filter fun a => t.grants.contains (role, a.1)).map (·.2)

/-- The roles of a principal, in the order of their rows. -/
def assignedTo (t : Tables) (principal : Nat) : List (Nat × String) :=
  t.roles.rows.filter fun r => t.assignments.contains (principal, r.1)

def toSeed (t : Tables) : Seed where
  authorities := t.authorities.values
  roles := t.roles.rows.map fun r => ⟨r.2, (t.grantedTo r.1).map (·.name)⟩
  principals := t.principals.rows.map fun p =>
    ⟨p.2.username, if p.2.assigned then some ((t.assignedTo p.1).map (·.2)) else none⟩

end Tables

end RouteGuard.Directory
