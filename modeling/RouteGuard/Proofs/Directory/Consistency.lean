import RouteGuard.Proofs.Directory.Checked

/-! # Consistent seeds

The check of a seed accepts exactly the consistent ones. Any other seed is
refused with its first offence: that of the first record for which the seed up
to there would not be consistent. Authorities come before roles, and roles
before principals; a record whose name is taken is refused for that, and only
otherwise for the first of its references that leads nowhere.
-/

namespace RouteGuard.Directory

namespace Seed

/-- No two records of a kind have one name, where those of authorities are
compared once they are trimmed. A reference is exactly the name of a record. -/
structure Consistent (s : Seed) : Prop where
  authorities : (s.authorities.map fun a => Text.trim a.name).Nodup
  roles : (s.roles.map (·.name)).Nodup
  principals : (s.principals.map (·.username)).Nodup
  granted : ∀ r ∈ s.roles, ∀ name ∈ r.authorities, ∃ a ∈ s.authorities, a.name = name
  assigned : ∀ p ∈ s.principals, ∀ names, p.roles = some names →
    ∀ name ∈ names, ∃ r ∈ s.roles, r.name = name

/-- What is wrong with the first record of a seed that is out of place. The seed
that ends in front of the record is consistent. -/
inductive FirstOffence (s : Seed) : SeedFault → Prop
  | authorityTwice {before after : List Authority} {a : Authority}
      (split : s.authorities = before ++ a :: after)
      (earlier : Consistent { authorities := before })
      (taken : ∃ b ∈ before, Text.trim b.name = Text.trim a.name) :
      FirstOffence s (.duplicateAuthority a.name)
  | roleTwice {before after : List SeedRole} {r : SeedRole}
      (split : s.roles = before ++ r :: after)
      (earlier : Consistent { authorities := s.authorities, roles := before })
      (taken : ∃ q ∈ before, q.name = r.name) :
      FirstOffence s (.duplicateRole r.name)
  | authorityUnknown {before after : List SeedRole} {r : SeedRole} {known more : List String}
      {missing : String} (split : s.roles = before ++ r :: after)
      (earlier : Consistent { authorities := s.authorities, roles := before })
      (fresh : ∀ q ∈ before, q.name ≠ r.name)
      (granted : r.authorities = known ++ missing :: more)
      (listed : ∀ name ∈ known, ∃ a ∈ s.authorities, a.name = name)
      (unlisted : ∀ a ∈ s.authorities, a.name ≠ missing) :
      FirstOffence s (.unknownAuthority r.name missing)
  | principalTwice {before after : List SeedPrincipal} {p : SeedPrincipal}
      (split : s.principals = before ++ p :: after)
      (earlier : Consistent { s with principals := before })
      (taken : ∃ q ∈ before, q.username = p.username) :
      FirstOffence s (.duplicatePrincipal p.username)
  | roleUnknown {before after : List SeedPrincipal} {p : SeedPrincipal} {known more : List String}
      {missing : String} (split : s.principals = before ++ p :: after)
      (earlier : Consistent { s with principals := before })
      (fresh : ∀ q ∈ before, q.username ≠ p.username)
      (assigned : p.roles = some (known ++ missing :: more))
      (listed : ∀ name ∈ known, ∃ r ∈ s.roles, r.name = name)
      (unlisted : ∀ r ∈ s.roles, r.name ≠ missing) :
      FirstOffence s (.unknownRole p.username missing)

variable {s : Seed} {fault : SeedFault}

/-- The three checks of a consistent seed find nothing. -/
theorem consistent_iff :
    s.Consistent ↔ authorityFault? [] s.authorities = none ∧
      roleFault? (s.authorities.map (·.name)) [] s.roles = none ∧
      principalFault? (s.roles.map (·.name)) [] s.principals = none := by
  rw [authorityFault?_eq_none_iff, roleFault?_eq_none_iff, principalFault?_eq_none_iff]
  simp only [List.mem_map, List.not_mem_nil, not_false_eq_true, implies_true, and_true, true_and]
  constructor
  · rintro ⟨hauthorities, hroles, hprincipals, hgranted, hassigned⟩
    refine ⟨hauthorities, ⟨hroles, hgranted⟩, hprincipals, fun p hp name hname => ?_⟩
    cases hnames : p.roles with
    | none => simp [hnames] at hname
    | some names => exact hassigned p hp names hnames name (by simpa [hnames] using hname)
  · rintro ⟨hauthorities, ⟨hroles, hgranted⟩, hprincipals, hassigned⟩
    refine ⟨hauthorities, hroles, hprincipals, hgranted, fun p hp names hnames name hname => ?_⟩
    exact hassigned p hp name (by simpa [hnames] using hname)

theorem fault?_eq_none_iff_consistent : s.fault? = none ↔ s.Consistent := by
  rw [fault?, Option.or_eq_none_iff, Option.or_eq_none_iff, consistent_iff, and_assoc]

/-! ### The offence of each kind of record -/

theorem roles_of_getD {roles : Option (List String)} {known more : List String} {name : String}
    (hroles : roles.getD [] = known ++ name :: more) : roles = some (known ++ name :: more) := by
  cases roles with
  | none => simp at hroles
  | some names => exact congrArg some hroles

theorem unknown?_map_eq_some_iff {α : Type} {name : α → String} {xs : List α}
    {names : List String} {missing : String} :
    unknown? (xs.map name) names = some missing ↔
      ∃ known more, names = known ++ missing :: more ∧
        (∀ n ∈ known, ∃ x ∈ xs, name x = n) ∧ ∀ x ∈ xs, name x ≠ missing := by
  simp [unknown?_eq_some_iff]

/-- The first authority whose trimmed name is taken. -/
theorem authorityFault?_eq_some_iff :
    authorityFault? [] s.authorities = some fault ↔
      ∃ before a after, s.authorities = before ++ a :: after ∧
        Consistent { authorities := before } ∧
        (∃ b ∈ before, Text.trim b.name = Text.trim a.name) ∧
        .duplicateAuthority a.name = fault := by
  rw [authorityFault?_eq, firstFault?_eq_some_iff]
  simp only [← authorityFault?_eq, consistent_iff, Refused, List.nil_append, List.mem_map]
  simp [roleFault?, principalFault?]

/-- The first role whose name is taken or that grants what is not listed. -/
theorem roleFault?_eq_some_iff (hauthorities : authorityFault? [] s.authorities = none) :
    roleFault? (s.authorities.map (·.name)) [] s.roles = some fault ↔
      ∃ before r after, s.roles = before ++ r :: after ∧
        Consistent { authorities := s.authorities, roles := before } ∧
        ((∃ q ∈ before, q.name = r.name) ∧ .duplicateRole r.name = fault ∨
          (∀ q ∈ before, q.name ≠ r.name) ∧
            ∃ missing, unknown? (s.authorities.map (·.name)) r.authorities = some missing ∧
              .unknownAuthority r.name missing = fault) := by
  rw [roleFault?_eq, firstFault?_eq_some_iff]
  simp only [← roleFault?_eq, consistent_iff, Refused, List.nil_append, List.mem_map, grantFault?,
    Option.map_eq_some_iff]
  simp [hauthorities, principalFault?]

theorem principalFault?_eq_some_iff (hauthorities : authorityFault? [] s.authorities = none)
    (hroles : roleFault? (s.authorities.map (·.name)) [] s.roles = none) :
    principalFault? (s.roles.map (·.name)) [] s.principals = some fault ↔
      ∃ before p after, s.principals = before ++ p :: after ∧
        Consistent { s with principals := before } ∧
        ((∃ q ∈ before, q.username = p.username) ∧ .duplicatePrincipal p.username = fault ∨
          (∀ q ∈ before, q.username ≠ p.username) ∧
            ∃ missing, unknown? (s.roles.map (·.name)) (p.roles.getD []) = some missing ∧
              .unknownRole p.username missing = fault) := by
  rw [principalFault?_eq, firstFault?_eq_some_iff]
  simp only [← principalFault?_eq, consistent_iff, Refused, List.nil_append, List.mem_map,
    assignmentFault?, Option.map_eq_some_iff]
  simp [hauthorities, hroles]

/-! ### The first offence of a seed -/

/-- A check reports what the first of the three lists with a fault is refused for. -/
theorem fault?_eq_some_iff :
    s.fault? = some fault ↔ authorityFault? [] s.authorities = some fault ∨
      authorityFault? [] s.authorities = none ∧
        (roleFault? (s.authorities.map (·.name)) [] s.roles = some fault ∨
          roleFault? (s.authorities.map (·.name)) [] s.roles = none ∧
            principalFault? (s.roles.map (·.name)) [] s.principals = some fault) := by
  simp only [fault?, Option.or_eq_some_iff, Option.or_eq_none_iff]
  tauto

theorem firstOffence_of_fault? (hfault : s.fault? = some fault) : s.FirstOffence fault := by
  obtain hfault | ⟨hauthorities, hfault | ⟨hroles, hfault⟩⟩ := fault?_eq_some_iff.mp hfault
  · obtain ⟨before, a, after, hsplit, hearlier, htaken, rfl⟩ :=
      authorityFault?_eq_some_iff.mp hfault
    exact .authorityTwice hsplit hearlier htaken
  · obtain ⟨before, r, after, hsplit, hearlier, hoffence⟩ :=
      (roleFault?_eq_some_iff hauthorities).mp hfault
    obtain ⟨htaken, rfl⟩ | ⟨hfresh, missing, hmissing, rfl⟩ := hoffence
    · exact .roleTwice hsplit hearlier htaken
    · obtain ⟨known, more, hgranted, hlisted, hnot⟩ := unknown?_map_eq_some_iff.mp hmissing
      exact .authorityUnknown hsplit hearlier hfresh hgranted hlisted hnot
  · obtain ⟨before, p, after, hsplit, hearlier, hoffence⟩ :=
      (principalFault?_eq_some_iff hauthorities hroles).mp hfault
    obtain ⟨htaken, rfl⟩ | ⟨hfresh, missing, hmissing, rfl⟩ := hoffence
    · exact .principalTwice hsplit hearlier htaken
    · obtain ⟨known, more, hassigned, hlisted, hnot⟩ := unknown?_map_eq_some_iff.mp hmissing
      exact .roleUnknown hsplit hearlier hfresh (roles_of_getD hassigned) hlisted hnot

/-- The check gets as far as the first offence and is refused there. -/
theorem FirstOffence.fault?_eq (hoffence : s.FirstOffence fault) : s.fault? = some fault := by
  rw [fault?_eq_some_iff]
  cases hoffence with
  | authorityTwice hsplit hearlier htaken =>
      exact Or.inl (authorityFault?_eq_some_iff.mpr ⟨_, _, _, hsplit, hearlier, htaken, rfl⟩)
  | roleTwice hsplit hearlier htaken =>
      have hauthorities : authorityFault? [] s.authorities = none :=
        (consistent_iff.mp hearlier).1
      refine Or.inr ⟨hauthorities, Or.inl ((roleFault?_eq_some_iff hauthorities).mpr ?_)⟩
      exact ⟨_, _, _, hsplit, hearlier, Or.inl ⟨htaken, rfl⟩⟩
  | authorityUnknown hsplit hearlier hfresh hgranted hlisted hnot =>
      have hauthorities : authorityFault? [] s.authorities = none :=
        (consistent_iff.mp hearlier).1
      have hmissing := unknown?_map_eq_some_iff.mpr ⟨_, _, hgranted, hlisted, hnot⟩
      refine Or.inr ⟨hauthorities, Or.inl ((roleFault?_eq_some_iff hauthorities).mpr ?_)⟩
      exact ⟨_, _, _, hsplit, hearlier, Or.inr ⟨hfresh, _, hmissing, rfl⟩⟩
  | principalTwice hsplit hearlier htaken =>
      obtain ⟨hauthorities, hroles, _⟩ := consistent_iff.mp hearlier
      refine Or.inr ⟨hauthorities, Or.inr ⟨hroles, ?_⟩⟩
      refine (principalFault?_eq_some_iff (s := s) hauthorities hroles).mpr ?_
      exact ⟨_, _, _, hsplit, hearlier, Or.inl ⟨htaken, rfl⟩⟩
  | roleUnknown hsplit hearlier hfresh hassigned hlisted hnot =>
      obtain ⟨hauthorities, hroles, _⟩ := consistent_iff.mp hearlier
      have hmissing := unknown?_map_eq_some_iff.mpr
        ⟨_, _, congrArg (·.getD []) hassigned, hlisted, hnot⟩
      refine Or.inr ⟨hauthorities, Or.inr ⟨hroles, ?_⟩⟩
      refine (principalFault?_eq_some_iff (s := s) hauthorities hroles).mpr ?_
      exact ⟨_, _, _, hsplit, hearlier, Or.inr ⟨hfresh, _, hmissing, rfl⟩⟩

/-- A check gives back exactly the consistent seeds, and refuses every other one
with a message about its first offence. -/
theorem checked_iff_consistent (s : Seed) :
    (∀ seed, s.checked = .ok seed ↔ s.Consistent ∧ seed = s) ∧
      ∀ failure, s.checked = .error failure ↔
        ∃ fault, s.FirstOffence fault ∧ failure = .invalid fault.message := by
  have hoffence : ∀ fault, s.FirstOffence fault ↔ s.fault? = some fault := fun _ =>
    ⟨FirstOffence.fault?_eq, firstOffence_of_fault?⟩
  simp only [hoffence, ← fault?_eq_none_iff_consistent, checked]
  cases s.fault? <;> simp [eq_comm]

/-- A role whose name is taken is refused for that, whatever it grants. -/
example : fault? { roles := [⟨"admin", []⟩, ⟨"admin", ["ROLE_GHOST"]⟩] } =
    some (.duplicateRole "admin") := by
  decide

end Seed

end RouteGuard.Directory
