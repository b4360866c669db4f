import Mathlib.Data.List.Induction
import RouteGuard.Proofs.Rules.Choice

/-! # Records that keep their rule

A rule is named for the last record with its key. The claims of a draft are told
by those records alone, whatever was read before them.
-/

namespace RouteGuard.Rules

open Directory (Authority)
open Glob (CaseMode)

/-- A record binds a rule unless its name or its pattern is blank. -/
structure Binds (a : Authority) : Prop where
  named : Text.isBlankText a.name = false
  targeted : Text.isBlankText a.url = false

instance (a : Authority) : Decidable (Binds a) :=
  decidable_of_iff (Text.isBlankText a.name = false ∧ Text.isBlankText a.url = false)
    ⟨fun h => ⟨h.1, h.2⟩, fun h => ⟨h.named, h.targeted⟩⟩

/-- The claim that a record makes. -/
def claimOf (mode : CaseMode) (a : Authority) : Claim where
  key := patternKey mode (canonicalText a.url)
  text := canonicalText a.url
  owner := Text.trim a.name

/-- A record keeps its rule if no record after it binds a rule of the same key. -/
def Kept (mode : CaseMode) (records : List Authority) (a : Authority) : Prop :=
  Binds a ∧ ∃ before after, records = before ++ a :: after ∧
    ∀ b ∈ after, Binds b → (claimOf mode b).key ≠ (claimOf mode a).key

/-- The records that bind rules under a key, in their order. -/
def boundTo (mode : CaseMode) (key : String) (records : List Authority) : List Authority :=
  records.filter fun a => Binds a ∧ (claimOf mode a).key = key

theorem Kept.mem {mode : CaseMode} {records : List Authority} {a : Authority}
    (hkept : Kept mode records a) : a ∈ records := by
  obtain ⟨_, before, after, rfl, _⟩ := hkept
  simp

namespace Draft

variable {mode : CaseMode} {d : Draft} {a : Authority}

theorem read_of_binds (hbinds : Binds a) : d.read mode a = d.add (claimOf mode a) := by
  simp [read, Authority.trimmedName?, hbinds.named, hbinds.targeted, claimOf]

/-- A record that binds nothing leaves a remark, but no collision. -/
theorem read_of_not_binds (hnot : ¬ Binds a) :
    ∃ remark, remark.collision? = none ∧
      d.read mode a = { d with remarks := d.remarks ++ [remark] } := by
  unfold read
  cases hname : a.trimmedName? with
  | none => exact ⟨.blankName a.url, rfl, rfl⟩
  | some name =>
      have hnamed : Text.isBlankText a.name = false := by
        unfold Authority.trimmedName? at hname
        split at hname
        · cases hname
        next hblank => simpa using hblank
      have hblank : Text.isBlankText a.url = true := by
        rw [← Bool.not_eq_false]
        exact fun htargeted => hnot ⟨hnamed, htargeted⟩
      exact ⟨.blankUrl name, rfl, by simp [hblank]⟩

theorem claims_read_of_not_binds (hnot : ¬ Binds a) : (d.read mode a).claims = d.claims := by
  obtain ⟨remark, _, hread⟩ := @read_of_not_binds mode d a hnot
  rw [hread]

theorem ofRecords_concat (records : List Authority) :
    ofRecords mode (records ++ [a]) = (ofRecords mode records).read mode a := by
  simp [ofRecords]

end Draft

theorem mem_takeOver_iff {c earlier other : Claim} {claims : List Claim}
    (hkeys : (claims.map (·.key)).Nodup) (hmem : earlier ∈ claims) (hkey : earlier.key = c.key) :
    other ∈ takeOver c claims ↔ other = c ∨ (other ∈ claims ∧ other.key ≠ c.key) := by
  induction claims with
  | nil => simp at hmem
  | cons first rest ih =>
      obtain ⟨hfirst, hrest⟩ := List.nodup_cons.mp hkeys
      unfold takeOver
      split
      next hsame =>
        -- the key stands at the front, so nothing after it has the key
        have hapart : ∀ d ∈ rest, d.key ≠ c.key := by
          intro d hd hdkey
          exact hfirst (List.mem_map.mpr ⟨d, hd, hdkey.trans hsame.symm⟩)
        grind
      next hother =>
        have hmem' : earlier ∈ rest := by
          rcases List.mem_cons.mp hmem with rfl | hlater
          · exact absurd hkey hother
          · exact hlater
        rw [List.mem_cons, List.mem_cons, ih hrest hmem']
        grind

/-- A claim takes the place of any earlier claim with its key. -/
theorem Draft.mem_claims_add {d : Draft} (hkeys : (d.claims.map (·.key)).Nodup) (c other : Claim) :
    other ∈ (d.add c).claims ↔ other = c ∨ (other ∈ d.claims ∧ other.key ≠ c.key) := by
  unfold Draft.add
  cases hfind : d.claims.find? (·.key == c.key) with
  | some earlier =>
      have hkey : earlier.key = c.key := by simpa using List.find?_some hfind
      exact mem_takeOver_iff hkeys (List.mem_of_find?_eq_some hfind) hkey
  | none =>
      have hapart : ∀ d' ∈ d.claims, d'.key ≠ c.key := by
        intro d' hd' hkey
        have hnot := List.find?_eq_none.mp hfind d' hd'
        simp [hkey] at hnot
      rw [List.mem_append, List.mem_singleton]
      grind

variable {mode : CaseMode} {records : List Authority} {a b : Authority}

/-- A further record keeps its rule, and takes those of its key. -/
theorem kept_concat_iff :
    Kept mode (records ++ [b]) a ↔
      (a = b ∧ Binds b) ∨
        (Kept mode records a ∧ (Binds b → (claimOf mode b).key ≠ (claimOf mode a).key)) := by
  constructor
  · rintro ⟨hbinds, before, after, hrecords, hlast⟩
    rcases List.eq_nil_or_concat after with rfl | ⟨init, final, rfl⟩
    · obtain ⟨rfl, hsame⟩ := List.append_inj' hrecords rfl
      cases hsame
      exact Or.inl ⟨rfl, hbinds⟩
    · have hsame : records ++ [b] = (before ++ a :: init) ++ [final] := by simpa using hrecords
      obtain ⟨rfl, hfinal⟩ := List.append_inj' hsame rfl
      cases hfinal
      refine Or.inr ⟨⟨hbinds, before, init, rfl, ?_⟩, hlast b (by simp)⟩
      exact fun later hlater => hlast later (by simp [hlater])
  · rintro (⟨rfl, hbinds⟩ | ⟨⟨hbinds, before, after, rfl, hlast⟩, hb⟩)
    · exact ⟨hbinds, records, [], rfl, by simp⟩
    · refine ⟨hbinds, before, after ++ [b], by simp, ?_⟩
      intro later hlater
      rcases List.mem_append.mp hlater with hafter | hfinal
      · exact hlast later hafter
      · exact List.mem_singleton.mp hfinal ▸ hb

/-- The claims of the records are those of the records that keep their rule. -/
theorem mem_claimsOf_iff (c : Claim) :
    c ∈ claimsOf mode records ↔ ∃ a, Kept mode records a ∧ c = claimOf mode a := by
  induction records using List.reverseRecOn generalizing c with
  | nil => simp [claimsOf, Draft.ofRecords, Kept]
  | append_singleton records b ih =>
      have hkeys := (Draft.Formed.ofRecords mode records).keys
      simp only [claimsOf] at ih ⊢
      rw [Draft.ofRecords_concat]
      simp only [kept_concat_iff]
      -- the last record always keeps its rule, if it binds one
      by_cases hbinds : Binds b
      · rw [Draft.read_of_binds hbinds, Draft.mem_claims_add hkeys, ih]
        constructor
        · rintro (rfl | ⟨⟨a, hkept, rfl⟩, hkey⟩)
          · exact ⟨b, Or.inl ⟨rfl, hbinds⟩, rfl⟩
          · exact ⟨a, Or.inr ⟨hkept, fun _ => Ne.symm hkey⟩, rfl⟩
        · rintro ⟨a, ⟨rfl, _⟩ | ⟨hkept, hkey⟩, rfl⟩
          · exact Or.inl rfl
          · exact Or.inr ⟨⟨a, hkept, rfl⟩, Ne.symm (hkey hbinds)⟩
      · rw [Draft.claims_read_of_not_binds hbinds, ih]
        simp [hbinds]

/-- Of the records with one key the last one keeps the rule. -/
theorem exists_kept (hmem : a ∈ records) (hbinds : Binds a) :
    ∃ b, Kept mode records b ∧ (claimOf mode b).key = (claimOf mode a).key := by
  induction records using List.reverseRecOn with
  | nil => simp at hmem
  | append_singleton records b ih =>
      simp only [kept_concat_iff]
      by_cases htaken : Binds b ∧ (claimOf mode b).key = (claimOf mode a).key
      · exact ⟨b, Or.inl ⟨rfl, htaken.1⟩, htaken.2⟩
      · have hearlier : a ∈ records := by
          rcases List.mem_append.mp hmem with hearlier | hlast
          · exact hearlier
          · obtain rfl := List.mem_singleton.mp hlast
            exact absurd ⟨hbinds, rfl⟩ htaken
        obtain ⟨kept, hkept, hkey⟩ := ih hearlier
        exact ⟨kept, Or.inr ⟨hkept, fun hb hsame => htaken ⟨hb, hsame.trans hkey⟩⟩, hkey⟩

/-! ### The records of one key -/

/-- A further record is bound last, if it binds a rule of the key. -/
theorem boundTo_concat (key : String) :
    boundTo mode key (records ++ [a]) =
      boundTo mode key records ++ if Binds a ∧ (claimOf mode a).key = key then [a] else [] := by
  rw [boundTo, List.filter_append, ← boundTo]
  by_cases hkey : Binds a ∧ (claimOf mode a).key = key <;> simp [hkey]

/-- A record keeps its rule if it is the last one of its key. -/
theorem kept_iff_getLast? :
    Kept mode records a ↔ (boundTo mode (claimOf mode a).key records).getLast? = some a := by
  induction records using List.reverseRecOn with
  | nil => simp [Kept, boundTo]
  | append_singleton records b ih =>
      rw [kept_concat_iff, boundTo_concat, ih]
      by_cases htaken : Binds b ∧ (claimOf mode b).key = (claimOf mode a).key
      · rw [if_pos htaken, List.getLast?_concat, Option.some.injEq]
        constructor
        · rintro (⟨hsame, _⟩ | ⟨_, hapart⟩)
          · exact hsame.symm
          · exact absurd htaken.2 (hapart htaken.1)
        · exact fun hsame => Or.inl ⟨hsame.symm, htaken.1⟩
      · rw [if_neg htaken, List.append_nil]
        constructor
        · rintro (⟨rfl, hbinds⟩ | ⟨hlast, _⟩)
          · exact absurd ⟨hbinds, rfl⟩ htaken
          · exact hlast
        · exact fun hlast => Or.inr ⟨hlast, fun hbinds hkey => htaken ⟨hbinds, hkey⟩⟩

theorem binds_of_boundTo {key : String} (hmem : a ∈ boundTo mode key records) :
    Binds a ∧ (claimOf mode a).key = key := by
  simpa using List.of_mem_filter hmem

/-- The claim under a key is that of the last record of the key. -/
theorem mem_claimsOf_iff_getLast? (c : Claim) :
    c ∈ claimsOf mode records ↔
      ∃ a, (boundTo mode c.key records).getLast? = some a ∧ c = claimOf mode a := by
  rw [mem_claimsOf_iff]
  simp only [kept_iff_getLast?]
  constructor
  · rintro ⟨a, hlast, rfl⟩
    exact ⟨a, hlast, rfl⟩
  · rintro ⟨a, hlast, hclaim⟩
    refine ⟨a, ?_, hclaim⟩
    rwa [← hclaim]

end RouteGuard.Rules
