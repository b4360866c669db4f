import RouteGuard.Proofs.Path.Canonical
import RouteGuard.Proofs.Rules.Kept

/-! # Paths that stay protected

A table has a rule for a path exactly if the pattern of some record that keeps
its rule covers the path. In exact mode that is every path that any record
covers. In folded mode keys are compared by the full lower-casing of texts but
paths by ASCII letters alone, so a record that is taken over may leave paths
without protection.
-/

namespace RouteGuard.Rules

open Directory (Authority)
open Glob (CaseMode)

/-- The pattern of a record that binds a rule covers a path. -/
def Protects (mode : CaseMode) (a : Authority) (path : String) : Prop :=
  Binds a ∧ ∃ p, Pattern.compile mode a.url = .ok p ∧ p.covers path = true

/-- A canonical path has a rule exactly if some record protects it by itself. -/
def Lossless (mode : CaseMode) (records : List Authority) (t : Table) : Prop :=
  ∀ path, Path.IsCanonical path →
    (t.find? path = none ↔ ∀ a ∈ records, ¬ Protects mode a path)

variable {mode : CaseMode} {records : List Authority} {t : Table} {path : String}

theorem find?_eq_none_iff_kept (hbuild : Table.build mode records = .ok t) :
    t.find? path = none ↔ ∀ a, Kept mode records a → ¬ Protects mode a path := by
  rw [find?_eq_none_iff hbuild]
  constructor
  · rintro hnone a hkept ⟨_, p, hcompile, hcovers⟩
    refine hnone (claimOf mode a) ((mem_claimsOf_iff _).mpr ⟨a, hkept, rfl⟩) p ⟨?_, hcovers⟩
    rw [claimOf, compile_canonicalText]
    exact hcompile
  · rintro hnone c hc p ⟨hcompile, hcovers⟩
    obtain ⟨a, hkept, rfl⟩ := (mem_claimsOf_iff c).mp hc
    rw [claimOf, compile_canonicalText] at hcompile
    exact hnone a hkept ⟨hkept.1, p, hcompile, hcovers⟩

/-- In exact mode records with one key have one pattern. -/
theorem Protects.of_key_eq {a b : Authority} (hprotects : Protects .exact a path) (hbinds : Binds b)
    (hkey : (claimOf .exact b).key = (claimOf .exact a).key) : Protects .exact b path := by
  obtain ⟨_, p, hcompile, hcovers⟩ := hprotects
  have htext : canonicalText b.url = canonicalText a.url := hkey
  refine ⟨hbinds, p, ?_, hcovers⟩
  rw [← compile_canonicalText, htext, compile_canonicalText]
  exact hcompile

/-- Nothing is lost exactly if records that keep their rule protect every path
that any record protects. In exact mode they always do. -/
theorem lossless_iff (hbuild : Table.build mode records = .ok t) :
    (Lossless mode records t ↔ ∀ a ∈ records, ∀ path, Path.IsCanonical path →
      Protects mode a path → ∃ b, Kept mode records b ∧ Protects mode b path) ∧
    (mode = .exact → Lossless mode records t) := by
  have hiff : Lossless mode records t ↔ ∀ a ∈ records, ∀ path, Path.IsCanonical path →
      Protects mode a path → ∃ b, Kept mode records b ∧ Protects mode b path := by
    constructor
    · intro hlossless a ha path hpath hprotects
      by_contra hnone
      have hfind : t.find? path = none := by
        rw [find?_eq_none_iff_kept hbuild]
        exact fun b hkept hb => hnone ⟨b, hkept, hb⟩
      exact (hlossless path hpath).mp hfind a ha hprotects
    · intro hkept path hpath
      rw [find?_eq_none_iff_kept hbuild]
      constructor
      · intro hnone a ha hprotects
        obtain ⟨b, hb, hcovers⟩ := hkept a ha path hpath hprotects
        exact hnone b hb hcovers
      · exact fun hnone a ha => hnone a ha.mem
  refine ⟨hiff, ?_⟩
  rintro rfl
  refine hiff.mpr fun a ha path _ hprotects => ?_
  obtain ⟨b, hkept, hkey⟩ := @exists_kept .exact _ _ ha hprotects.1
  exact ⟨b, hkept, hprotects.of_key_eq hkept.1 hkey⟩

/-- Two patterns with one key in folded mode, where neither covers the other's
path. -/
def accentedRecords : List Authority := [⟨"ROLE_FIRST", "/É"⟩, ⟨"ROLE_SECOND", "/é"⟩]

/-- The first pattern is lost in folded mode, and kept in exact mode. -/
theorem lossless_accentedRecords :
    (∃ t, Table.build .exact accentedRecords = .ok t ∧ Lossless .exact accentedRecords t) ∧
      ∃ t, Table.build .folded accentedRecords = .ok t ∧ ¬ Lossless .folded accentedRecords t := by
  have hexact : ∃ t, Table.build .exact accentedRecords = .ok t := by
    have hclaims : claimsOf .exact accentedRecords =
        [⟨"/É", "/É", "ROLE_FIRST"⟩, ⟨"/é", "/é", "ROLE_SECOND"⟩] := by decide +kernel
    rw [exists_build_iff, hclaims]
    simp only [List.forall_mem_cons]
    exact ⟨⟨_, rfl⟩, ⟨_, rfl⟩, by simp⟩
  have hclaims : claimsOf .folded accentedRecords = [⟨"/é", "/é", "ROLE_SECOND"⟩] := by
    decide +kernel
  have hfolded : ∃ t, Table.build .folded accentedRecords = .ok t := by
    rw [exists_build_iff, hclaims]
    simp only [List.forall_mem_cons]
    exact ⟨⟨_, rfl⟩, by simp⟩
  obtain ⟨t, ht⟩ := hexact
  obtain ⟨u, hu⟩ := hfolded
  refine ⟨⟨t, ht, (lossless_iff ht).2 rfl⟩, u, hu, ?_⟩
  rw [(lossless_iff hu).1]
  intro hkept
  have hprotects : Protects .folded ⟨"ROLE_FIRST", "/É"⟩ "/É" :=
    ⟨by decide +kernel, _, rfl, by decide +kernel⟩
  obtain ⟨b, hb, _, p, hcompile, hcovers⟩ :=
    hkept ⟨"ROLE_FIRST", "/É"⟩ (by simp [accentedRecords]) "/É"
      ⟨"/É", by decide +kernel⟩ hprotects
  -- whichever record it is, its claim is the only one there is
  have hclaim : claimOf .folded b = ⟨"/é", "/é", "ROLE_SECOND"⟩ := by
    have hmem : claimOf .folded b ∈ claimsOf .folded accentedRecords :=
      (mem_claimsOf_iff _).mpr ⟨b, hb, rfl⟩
    rw [hclaims] at hmem
    exact List.mem_singleton.mp hmem
  have htext : canonicalText b.url = "/é" := congrArg Claim.text hclaim
  rw [← compile_canonicalText, htext] at hcompile
  cases hcompile
  revert hcovers
  decide +kernel

end RouteGuard.Rules
