import RouteGuard.Proofs.Directory.Content

/-! # The records of a store

All that a store holds, in its order, as a seed. A created authority comes last
and nothing else changes. A deleted one goes from the list and from every role,
and the order of what stays is kept.
-/

namespace RouteGuard.Directory

namespace Tables

variable {t u : Tables} {a : Authority}

theorem toSeed_insert (hinsert : t.insertAuthority? a = some u) :
    u.toSeed = t.toSeed.withAuthority a := by
  unfold insertAuthority? at hinsert
  split at hinsert
  · cases hinsert
  next rows hrows =>
    cases hinsert
    obtain ⟨hnew, rfl⟩ := (Rows.insert?_eq_some_iff _ _ _).mp hrows
    -- no grant names the number of the new row
    have hungranted : ∀ role, (role, t.authorities.last + 1) ∉ t.grants := by
      intro role hgrant
      have hle := t.authorities.bounded _ (t.grants_linked.known _ hgrant).2
      omega
    simp only [toSeed, Seed.withAuthority, Seed.mk.injEq]
    refine ⟨t.authorities.values_append a hnew, ?_, rfl⟩
    apply List.map_congr_left
    intro role _
    simp [grantedTo, Rows.append, hungranted]

/-- A role keeps its grants of all other authorities. -/
theorem grantedTo_deleteAuthority (t : Tables) (name : String) (role : Nat) :
    (t.deleteAuthority name).grantedTo role = (t.grantedTo role).filter (·.name != name) := by
  rw [grantedTo, grantedTo, List.filter_map]
  apply congrArg
  simp only [deleteAuthority, Rows.delete, List.filter_filter]
  apply List.filter_congr
  intro row hrow
  by_cases hname : row.2.name = name
  · simp [hname]
  · -- the grants of a row with another name are kept
    have hkept : t.isNamed name row.1 = false := by
      rw [← Bool.not_eq_true, isNamed_iff]
      intro hnamed
      exact hname (Rows.KeyAt.key_eq ⟨row.2, hrow, rfl⟩ hnamed)
    simp [hkept, Bool.and_comm]

theorem toSeed_deleteAuthority (t : Tables) (name : String) :
    (t.deleteAuthority name).toSeed = t.toSeed.withoutAuthority name := by
  simp only [toSeed, Seed.withoutAuthority, Seed.mk.injEq]
  refine ⟨t.authorities.values_delete name, ?_, rfl⟩
  rw [List.map_map]
  apply List.map_congr_left
  intro role _
  rw [Function.comp_apply, grantedTo_deleteAuthority, List.filter_map]
  rfl

end Tables

namespace Store

variable {store next : Store} {a : Authority} {name : String}

/-- All records of a store. A database without tables has none. -/
def records? : Store → Option Seed
  | memory s => some s
  | database d => d.tables.map Tables.toSeed

/-- An authority is created beside records that do not have its name. -/
theorem records?_create (hcreate : store.create a = .ok next) :
    ∃ s, store.records? = some s ∧ (∀ b ∈ s.authorities, b.name ≠ a.name) ∧
      next.records? = some (s.withAuthority a) := by
  cases store with
  | memory s =>
      obtain ⟨hnew, rfl⟩ := (create_memory_iff s).mp hcreate
      exact ⟨s, rfl, hnew, rfl⟩
  | database d =>
      obtain ⟨t, u, ⟨_, htables⟩, hinsert, rfl⟩ := (create_database_iff d).mp hcreate
      refine ⟨t.toSeed, by simp [records?, htables], ?_, congrArg some (Tables.toSeed_insert hinsert)⟩
      obtain ⟨hnew, _⟩ := (Rows.insert?_eq_some_iff _ _ _).mp (Tables.authorities_of_insert hinsert)
      exact (Rows.find?_eq_none_iff _ _).mp hnew

/-- A deletion that succeeds takes a stored authority out of the records. -/
theorem records?_delete (hdelete : store.delete name = .ok next) :
    ∃ s, store.records? = some s ∧ (∃ a ∈ s.authorities, a.name = name) ∧
      next.records? = some (s.withoutAuthority name) := by
  cases store with
  | memory s =>
      obtain ⟨hstored, rfl⟩ := (delete_memory_iff s).mp hdelete
      exact ⟨s, rfl, hstored, rfl⟩
  | database d =>
      obtain ⟨t, ⟨_, htables⟩, hstored, rfl⟩ := (delete_database_iff d).mp hdelete
      exact ⟨t.toSeed, by simp [records?, htables], hstored,
        congrArg some (t.toSeed_deleteAuthority name)⟩

end Store

end RouteGuard.Directory
