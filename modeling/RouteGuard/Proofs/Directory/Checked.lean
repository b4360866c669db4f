import Mathlib.Data.List.Nodup
import RouteGuard.Directory.Seed

/-! # Checked seeds

What a seed has passed that is found without fault, and where a fault is found.
Each of the three checks runs along one list and carries the names seen so far,
so all three are one search for the first record that is out of place.
-/

namespace RouteGuard.Directory

/-- No two names agree once they are trimmed. -/
def NamesApart (records : List Authority) : Prop :=
  (records.map fun a => Text.trim a.name).Nodup

/-- Names that differ once they are trimmed differ. -/
theorem NamesApart.nodup_names {records : List Authority} (hapart : NamesApart records) :
    (records.map (·.name)).Nodup := by
  refine .of_map Text.trim ?_
  rw [List.map_map]
  exact hapart

/-! ### The first record out of place -/

section FirstFault

variable {α : Type} {key : α → String} {taken : α → SeedFault} {own? : α → Option SeedFault}
  {xs : List α} {fault : SeedFault}

/-- The first fault of a list: a key that is `seen` or that an earlier element
has, or else the fault that an element has of its own. -/
def firstFault? (key : α → String) (taken : α → SeedFault) (own? : α → Option SeedFault)
    (seen : List String) : List α → Option SeedFault
  | [] => none
  | x :: rest =>
    if seen.contains (key x) then some (taken x)
    else (own? x).or (firstFault? key taken own? (key x :: seen) rest)

/-- No fault is found if all keys are new and distinct and no element has a fault of its own. -/
theorem firstFault?_eq_none_iff (seen : List String) :
    firstFault? key taken own? seen xs = none ↔
      (xs.map key).Nodup ∧ (∀ x ∈ xs, key x ∉ seen) ∧ ∀ x ∈ xs, own? x = none := by
  induction xs generalizing seen with
  | nil => simp [firstFault?]
  | cons x xs ih =>
      unfold firstFault?
      split
      next hseen =>
        have hmem : key x ∈ seen := by simpa using hseen
        simp [hmem]
      next hseen =>
        have hmem : key x ∉ seen := by simpa using hseen
        -- the later keys must differ from this one and from those seen before
        rw [Option.or_eq_none_iff, ih, List.map_cons, List.nodup_cons]
        grind

/-- An element is refused behind elements of the given names. -/
def Refused (key : α → String) (taken : α → SeedFault) (own? : α → Option SeedFault)
    (names : List String) (x : α) (fault : SeedFault) : Prop :=
  (key x ∈ names ∧ taken x = fault) ∨ (key x ∉ names ∧ own? x = some fault)

/-- The fault is that of the first element that is refused. -/
theorem firstFault?_eq_some_iff (seen : List String) :
    firstFault? key taken own? seen xs = some fault ↔
      ∃ before x after, xs = before ++ x :: after ∧
        firstFault? key taken own? seen before = none ∧
        Refused key taken own? (seen ++ before.map key) x fault := by
  induction xs generalizing seen with
  | nil => simp [firstFault?]
  | cons y xs ih =>
      have hfirst : Refused key taken own? seen y fault ↔
          (if seen.contains (key y) then some (taken y) else own? y) = some fault := by
        by_cases hseen : key y ∈ seen <;> simp [Refused, hseen]
      constructor
      · intro hfault
        by_cases hhere : Refused key taken own? seen y fault
        · exact ⟨[], y, xs, rfl, rfl, by simpa using hhere⟩
        · -- the first element is passed, and the fault is one of the rest
          rw [hfirst] at hhere
          unfold firstFault? at hfault
          split at hfault
          next hseen =>
            rw [if_pos hseen] at hhere
            exact absurd hfault hhere
          next hseen =>
            rw [if_neg hseen] at hhere
            obtain ⟨hpassed, hrest⟩ :=
              (Option.or_eq_some_iff.mp hfault).resolve_left hhere
            obtain ⟨before, x, after, rfl, hbefore, hrefused⟩ := (ih _).mp hrest
            refine ⟨y :: before, x, after, rfl, ?_, ?_⟩
            · rw [firstFault?, if_neg hseen, hpassed, Option.none_or, hbefore]
            · simpa [Refused, or_left_comm, or_assoc] using hrefused
      · rintro ⟨before, x, after, hsplit, hbefore, hrefused⟩
        cases before with
        | nil =>
            obtain ⟨rfl, rfl⟩ := List.cons.inj hsplit
            rw [List.map_nil, List.append_nil, hfirst] at hrefused
            unfold firstFault?
            split at hrefused
            next hseen => rw [if_pos hseen, hrefused]
            next hseen => rw [if_neg hseen, hrefused, Option.some_or]
        | cons z before =>
            obtain ⟨rfl, rfl⟩ := List.cons.inj hsplit
            unfold firstFault? at hbefore ⊢
            split at hbefore
            next => cases hbefore
            next hseen =>
              obtain ⟨hpassed, hbefore⟩ := Option.or_eq_none_iff.mp hbefore
              rw [if_neg hseen, hpassed, Option.none_or]
              refine (ih _).mpr ⟨before, x, after, rfl, hbefore, ?_⟩
              simpa [Refused, or_left_comm, or_assoc] using hrefused

end FirstFault

namespace Seed

/-! ### The three checks -/

/-- A reference to what is not `known`, if there is one. -/
def unknown? (known names : List String) : Option String := names.find? (!known.contains ·)

theorem unknown?_eq_none_iff {known names : List String} :
    unknown? known names = none ↔ ∀ name ∈ names, name ∈ known := by
  simp [unknown?]

/-- What is reported is the first name that is not known. -/
theorem unknown?_eq_some_iff {known names : List String} {missing : String} :
    unknown? known names = some missing ↔
      ∃ before after, names = before ++ missing :: after ∧ (∀ name ∈ before, name ∈ known) ∧
        missing ∉ known := by
  simp only [unknown?, List.find?_eq_some_iff_append, Bool.not_eq_true', Bool.not_eq_false',
    List.contains_eq_mem, decide_eq_false_iff_not, decide_eq_true_eq]
  grind

/-- The grant of an unknown authority. -/
def grantFault? (known : List String) (r : SeedRole) : Option SeedFault :=
  (unknown? known r.authorities).map (.unknownAuthority r.name)

/-- The assignment of an unknown role. -/
def assignmentFault? (known : List String) (p : SeedPrincipal) : Option SeedFault :=
  (unknown? known (p.roles.getD [])).map (.unknownRole p.username)

theorem authorityFault?_eq (seen : List String) (records : List Authority) :
    authorityFault? seen records =
      firstFault? (fun a => Text.trim a.name) (fun a => .duplicateAuthority a.name)
        (fun _ => none) seen records := by
  induction records generalizing seen with
  | nil => rfl
  | cons a records ih => rw [authorityFault?, firstFault?, ih, Option.none_or]

theorem roleFault?_eq (known seen : List String) (roles : List SeedRole) :
    roleFault? known seen roles =
      firstFault? (·.name) (fun r => .duplicateRole r.name) (grantFault? known) seen roles := by
  induction roles generalizing seen with
  | nil => rfl
  | cons r roles ih =>
      rw [roleFault?, firstFault?, ih, grantFault?, unknown?]
      cases r.authorities.find? (!known.contains ·) <;> rfl

theorem principalFault?_eq (known seen : List String) (principals : List SeedPrincipal) :
    principalFault? known seen principals =
      firstFault? (·.username) (fun p => .duplicatePrincipal p.username)
        (assignmentFault? known) seen principals := by
  induction principals generalizing seen with
  | nil => rfl
  | cons p principals ih =>
      rw [principalFault?, firstFault?, ih, assignmentFault?, unknown?]
      cases (p.roles.getD []).find? (!known.contains ·) <;> rfl

/-- The records pass if their names stay apart once they are trimmed, and are new. -/
theorem authorityFault?_eq_none_iff {records : List Authority} (seen : List String) :
    authorityFault? seen records = none ↔
      NamesApart records ∧ ∀ a ∈ records, Text.trim a.name ∉ seen := by
  rw [authorityFault?_eq, firstFault?_eq_none_iff]
  simp [NamesApart]

/-- The roles pass if their names are new and distinct and every grant is known. -/
theorem roleFault?_eq_none_iff {known : List String} {roles : List SeedRole}
    (seen : List String) :
    roleFault? known seen roles = none ↔
      (roles.map (·.name)).Nodup ∧ (∀ r ∈ roles, r.name ∉ seen) ∧
        ∀ r ∈ roles, ∀ a ∈ r.authorities, a ∈ known := by
  rw [roleFault?_eq, firstFault?_eq_none_iff]
  simp only [grantFault?, Option.map_eq_none_iff, unknown?_eq_none_iff]

/-- The principals pass if their names are new and distinct and every assigned role is known. -/
theorem principalFault?_eq_none_iff {known : List String} {principals : List SeedPrincipal}
    (seen : List String) :
    principalFault? known seen principals = none ↔
      (principals.map (·.username)).Nodup ∧ (∀ p ∈ principals, p.username ∉ seen) ∧
        ∀ p ∈ principals, ∀ r ∈ p.roles.getD [], r ∈ known := by
  rw [principalFault?_eq, firstFault?_eq_none_iff]
  simp only [assignmentFault?, Option.map_eq_none_iff, unknown?_eq_none_iff]

/-- A seed without a fault names no authority twice, not even up to white space. -/
theorem namesApart_of_checked {seed : Seed} (hchecked : seed.fault? = none) :
    NamesApart seed.authorities := by
  simp only [fault?, Option.or_eq_none_iff] at hchecked
  exact ((authorityFault?_eq_none_iff []).mp hchecked.1.1).1

end Seed

end RouteGuard.Directory
