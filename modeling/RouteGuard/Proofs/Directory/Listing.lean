import RouteGuard.Directory.Store

/-! # The listed authorities

What a store lists after an authority was created or deleted. Either backend
keeps the order of the records that stay, and adds a new one at the end.
-/

namespace RouteGuard.Directory

namespace Rows

variable {α : Type} {key : α → String}

/-- A row is found by its key if the contents have it. -/
theorem find?_isSome_iff (t : Rows α key) (k : String) :
    (t.find? k).isSome = true ↔ ∃ x ∈ t.values, key x = k := by
  simp only [find?, values, List.find?_isSome, beq_iff_eq]
  constructor
  · rintro ⟨row, hrow, hkey⟩
    exact ⟨row.2, List.mem_map_of_mem hrow, hkey⟩
  · rintro ⟨x, hx, hkey⟩
    obtain ⟨row, hrow, rfl⟩ := List.mem_map.mp hx
    exact ⟨row, hrow, hkey⟩

theorem find?_eq_none_iff (t : Rows α key) (k : String) :
    t.find? k = none ↔ ∀ x ∈ t.values, key x ≠ k := by
  rw [← Option.not_isSome_iff_eq_none, find?_isSome_iff]
  simp

/-- A new row comes last. -/
theorem values_append (t : Rows α key) (x : α) (hnew : t.find? (key x) = none) :
    (t.append x hnew).values = t.values ++ [x] := by
  simp [values, append]

/-- The rows that stay keep their order. -/
theorem values_delete (t : Rows α key) (k : String) :
    (t.delete k).values = t.values.filter (key · != k) := by
  simp only [values, delete, List.filter_map]
  rfl

/-- A row is inserted if its key is new, and comes last. -/
theorem insert?_eq_some_iff (t u : Rows α key) (x : α) :
    t.insert? x = some u ↔ ∃ hnew : t.find? (key x) = none, u = t.append x hnew := by
  unfold insert?
  split
  next hnew => simp [hnew, eq_comm]
  next htaken => simp [htaken]

end Rows

namespace Tables

/-- Only a taken name stands in the way of an insertion. -/
theorem insertAuthority?_eq_none_iff (t : Tables) (a : Authority) :
    t.insertAuthority? a = none ↔ ∃ b ∈ t.authorities.values, b.name = a.name := by
  have hinsert : t.insertAuthority? a = none ↔ t.authorities.insert? a = none := by
    unfold insertAuthority?
    split <;> simp_all
  rw [hinsert, Rows.insert?, ← Rows.find?_isSome_iff]
  split
  next hnew => simp [hnew]
  next htaken => simpa [Option.isSome_iff_ne_none] using htaken

theorem authorities_of_insert {t u : Tables} {a : Authority}
    (hinsert : t.insertAuthority? a = some u) : t.authorities.insert? a = some u.authorities := by
  unfold insertAuthority? at hinsert
  split at hinsert
  · cases hinsert
  next authorities hrows =>
    obtain rfl := Option.some.inj hinsert
    exact hrows

end Tables

namespace Seed

variable {s next : Seed} {a : Authority} {name : String}

/-- The records with one more authority. -/
def withAuthority (s : Seed) (a : Authority) : Seed :=
  { s with authorities := s.authorities ++ [a] }

/-- The records without an authority and the grants of it. -/
def withoutAuthority (s : Seed) (name : String) : Seed :=
  { s with
    authorities := s.authorities.filter (·.name != name)
    roles := s.roles.map fun r => { r with authorities := r.authorities.filter (· != name) } }

/-- A seed takes a record whose name is free, and changes in nothing else. -/
theorem createAuthority_eq_ok_iff : s.createAuthority a = .ok next ↔
    (∀ b ∈ s.authorities, b.name ≠ a.name) ∧ next = s.withAuthority a := by
  unfold createAuthority
  split
  next htaken =>
    have hstored : ¬ ∀ b ∈ s.authorities, b.name ≠ a.name := by simpa using htaken
    simp [hstored]
  next hfree =>
    have hnew : ∀ b ∈ s.authorities, b.name ≠ a.name := by simpa using hfree
    rw [and_iff_right hnew, Except.ok.injEq]
    exact eq_comm

/-- A seed drops an authority that it has. -/
theorem removeAuthority?_eq_some_iff : s.removeAuthority? name = some next ↔
    (∃ a ∈ s.authorities, a.name = name) ∧ next = s.withoutAuthority name := by
  unfold removeAuthority?
  split
  next hany =>
    have hstored : ∃ a ∈ s.authorities, a.name = name := by simpa using hany
    rw [and_iff_right hstored, Option.some.injEq]
    exact eq_comm
  next hany =>
    have hmissing : ¬ ∃ a ∈ s.authorities, a.name = name := by simpa using hany
    simp [hmissing]

end Seed

/-- The table that a statement names matters only to its failure. -/
theorem Database.opened_eq_ok_iff {d : Database} {table : String} {t : Tables} :
    d.opened table = .ok t ↔ d.closed = false ∧ d.tables = some t := by
  cases hclosed : d.closed <;> cases htables : d.tables <;> simp [opened, hclosed, htables]

namespace Store

variable {store next : Store} {records : List Authority} {a : Authority} {name : String}

/-- A database lists its authorities while it is open and has tables. -/
theorem list_database_iff (d : Database) :
    (database d).list = .ok records ↔
      ∃ t, (d.closed = false ∧ d.tables = some t) ∧ t.authorities.values = records := by
  have hopened := fun t => @Database.opened_eq_ok_iff d "authorities" t
  simp only [← hopened, list]
  cases d.opened "authorities" with
  | error failure => simp [Except.map]
  | ok t => simp [Except.map]

/-! ### What a change comes to -/

theorem create_memory_iff (s : Seed) : (memory s).create a = .ok next ↔
    (∀ b ∈ s.authorities, b.name ≠ a.name) ∧ next = memory (s.withAuthority a) := by
  have hmap : (memory s).create a = .ok next ↔
      ∃ t, s.createAuthority a = .ok t ∧ next = memory t := by
    rw [create]
    cases s.createAuthority a <;> simp [Except.map, eq_comm]
  simp only [hmap, Seed.createAuthority_eq_ok_iff, and_assoc, exists_and_left, exists_eq_left]

/-- A database takes a record while it is open and has tables, if the name is free. -/
theorem create_database_iff (d : Database) : (database d).create a = .ok next ↔
    ∃ t u, (d.closed = false ∧ d.tables = some t) ∧ t.insertAuthority? a = some u ∧
      next = database { d with tables := some u } := by
  have hopened := fun t => @Database.opened_eq_ok_iff d "authorities" t
  simp only [← hopened, create, bind, Except.bind]
  cases d.opened "authorities" with
  | error failure => simp
  | ok t =>
      cases hinsert : t.insertAuthority? a with
      | none => simp [hinsert, throw, throwThe, MonadExceptOf.throw]
      | some u => simp [hinsert, pure, Except.pure, eq_comm]

theorem delete_memory_iff (s : Seed) : (memory s).delete name = .ok next ↔
    (∃ a ∈ s.authorities, a.name = name) ∧ next = memory (s.withoutAuthority name) := by
  have hmap : (memory s).delete name = .ok next ↔
      ∃ t, s.removeAuthority? name = some t ∧ next = memory t := by
    rw [delete]
    cases s.removeAuthority? name <;> simp [eq_comm]
  simp only [hmap, Seed.removeAuthority?_eq_some_iff, and_assoc, exists_and_left, exists_eq_left]

/-- A database drops an authority that it has while it is open and has tables. -/
theorem delete_database_iff (d : Database) : (database d).delete name = .ok next ↔
    ∃ t, (d.closed = false ∧ d.tables = some t) ∧ (∃ a ∈ t.authorities.values, a.name = name) ∧
      next = database { d with tables := some (t.deleteAuthority name) } := by
  have hopened := fun t => @Database.opened_eq_ok_iff d "role_authorities" t
  simp only [← hopened, ← Rows.find?_isSome_iff, delete, bind, Except.bind]
  cases d.opened "role_authorities" with
  | error failure => simp
  | ok t =>
      simp only [Except.ok.injEq, exists_eq_left']
      split
      next hstored => simp [hstored, pure, Except.pure, eq_comm]
      next hmissing => simp [hmissing, throw, throwThe, MonadExceptOf.throw]

/-! ### What is listed -/

/-- Where an authority can be created, the store can be listed. -/
theorem exists_list_of_create (hcreate : store.create a = .ok next) :
    ∃ records, store.list = .ok records := by
  cases store with
  | memory s => exact ⟨_, rfl⟩
  | database d =>
      obtain ⟨t, _, hopen, _, _⟩ := (create_database_iff d).mp hcreate
      exact ⟨_, (list_database_iff d).mpr ⟨t, hopen, rfl⟩⟩

theorem exists_list_of_delete (hdelete : store.delete name = .ok next) :
    ∃ records, store.list = .ok records := by
  cases store with
  | memory s => exact ⟨_, rfl⟩
  | database d =>
      obtain ⟨t, hopen, _, _⟩ := (delete_database_iff d).mp hdelete
      exact ⟨_, (list_database_iff d).mpr ⟨t, hopen, rfl⟩⟩

/-- An authority of a new name comes after those that are stored. -/
theorem list_create (hlist : store.list = .ok records) (hcreate : store.create a = .ok next) :
    (∀ b ∈ records, b.name ≠ a.name) ∧ next.list = .ok (records ++ [a]) := by
  cases store with
  | memory s =>
      obtain rfl : s.authorities = records := Except.ok.inj hlist
      obtain ⟨hnew, rfl⟩ := (create_memory_iff s).mp hcreate
      exact ⟨hnew, rfl⟩
  | database d =>
      obtain ⟨t, u, hopen, hinsert, rfl⟩ := (create_database_iff d).mp hcreate
      obtain ⟨t', hopen', rfl⟩ := (list_database_iff d).mp hlist
      obtain rfl : t = t' := Option.some.inj (hopen.2.symm.trans hopen'.2)
      obtain ⟨hnew, hrows⟩ :=
        (Rows.insert?_eq_some_iff _ _ _).mp (Tables.authorities_of_insert hinsert)
      refine ⟨(Rows.find?_eq_none_iff _ _).mp hnew, (list_database_iff _).mpr ?_⟩
      exact ⟨u, ⟨hopen.1, rfl⟩, by rw [hrows, Rows.values_append]⟩

/-- A deleted authority goes from the list, and the others keep their order. -/
theorem list_delete (hlist : store.list = .ok records) (hdelete : store.delete name = .ok next) :
    (∃ a ∈ records, a.name = name) ∧ next.list = .ok (records.filter (·.name != name)) := by
  cases store with
  | memory s =>
      obtain rfl : s.authorities = records := Except.ok.inj hlist
      obtain ⟨hstored, rfl⟩ := (delete_memory_iff s).mp hdelete
      exact ⟨hstored, rfl⟩
  | database d =>
      obtain ⟨t, hopen, hstored, rfl⟩ := (delete_database_iff d).mp hdelete
      obtain ⟨t', hopen', rfl⟩ := (list_database_iff d).mp hlist
      obtain rfl : t = t' := Option.some.inj (hopen.2.symm.trans hopen'.2)
      refine ⟨hstored, (list_database_iff _).mpr ?_⟩
      exact ⟨t.deleteAuthority name, ⟨hopen.1, rfl⟩, t.authorities.values_delete name⟩

/-- An authority of a new name can be created. -/
theorem exists_create (hlist : store.list = .ok records) (hnew : ∀ b ∈ records, b.name ≠ a.name) :
    ∃ next, store.create a = .ok next := by
  cases store with
  | memory s =>
      obtain rfl : s.authorities = records := Except.ok.inj hlist
      exact ⟨_, (create_memory_iff s).mpr ⟨hnew, rfl⟩⟩
  | database d =>
      obtain ⟨t, hopen, rfl⟩ := (list_database_iff d).mp hlist
      cases hinsert : t.insertAuthority? a with
      | none =>
          obtain ⟨b, hb, hname⟩ := (t.insertAuthority?_eq_none_iff a).mp hinsert
          exact absurd hname (hnew b hb)
      | some u => exact ⟨_, (create_database_iff d).mpr ⟨t, u, hopen, hinsert, rfl⟩⟩

/-- What is listed can be deleted. -/
theorem exists_delete (hlist : store.list = .ok records) (hstored : ∃ a ∈ records, a.name = name) :
    ∃ next, store.delete name = .ok next := by
  cases store with
  | memory s =>
      obtain rfl : s.authorities = records := Except.ok.inj hlist
      exact ⟨_, (delete_memory_iff s).mpr ⟨hstored, rfl⟩⟩
  | database d =>
      obtain ⟨t, hopen, rfl⟩ := (list_database_iff d).mp hlist
      exact ⟨_, (delete_database_iff d).mpr ⟨t, hopen, hstored, rfl⟩⟩

end Store

end RouteGuard.Directory
