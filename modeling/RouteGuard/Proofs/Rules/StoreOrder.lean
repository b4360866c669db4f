import RouteGuard.Proofs.Rules.Kept

/-! # Tables and the order of the records

Records of one key take the rule over from each other in the order in which they
are stored. Beyond that the order does not matter: two lists that bind the same
records under each key have the same table of rules.
-/

namespace RouteGuard.Rules

open Directory (Authority)
open Glob (CaseMode)

/-- Two lists bind the same records under each key, in the same order. Records of
different keys may change places, and records that bind nothing may come and go. -/
def SameByKey (mode : CaseMode) (records others : List Authority) : Prop :=
  ∀ key, boundTo mode key records = boundTo mode key others

variable {mode : CaseMode} {records others : List Authority} {t u : Table}

/-- Keys that no record has need not be compared. -/
theorem sameByKey_of_mem (hmem : ∀ a ∈ records ++ others,
    boundTo mode (claimOf mode a).key records = boundTo mode (claimOf mode a).key others) :
    SameByKey mode records others := by
  intro key
  by_cases hkey : ∃ a ∈ records ++ others, (claimOf mode a).key = key
  · obtain ⟨a, ha, rfl⟩ := hkey
    exact hmem a ha
  · have hnone : ∀ list ⊆ records ++ others, boundTo mode key list = [] := by
      intro list hsub
      rw [boundTo, List.filter_eq_nil_iff]
      intro a ha hbinds
      exact hkey ⟨a, hsub ha, (of_decide_eq_true hbinds).2⟩
    rw [hnone records (List.subset_append_left _ _), hnone others (List.subset_append_right _ _)]

namespace SameByKey

variable (hsame : SameByKey mode records others)

include hsame

theorem mem_claimsOf_iff (c : Claim) : c ∈ claimsOf mode records ↔ c ∈ claimsOf mode others := by
  rw [mem_claimsOf_iff_getLast?, mem_claimsOf_iff_getLast?, hsame c.key]

theorem exists_build_iff :
    (∃ t, Table.build mode records = .ok t) ↔ ∃ u, Table.build mode others = .ok u := by
  simp only [Rules.exists_build_iff, hsame.mem_claimsOf_iff]

/-- The rules are the same, and there is only one order for them. -/
theorem rules_eq (hbuild : Table.build mode records = .ok t)
    (hother : Table.build mode others = .ok u) : t.rules = u.rules := by
  have hmem : ∀ r, r ∈ t.rules ↔ r ∈ u.rules := by
    intro r
    rw [mem_rules_iff hbuild, mem_rules_iff hother]
    simp only [hsame.mem_claimsOf_iff]
  have hperm : t.rules.Perm u.rules := by
    apply (List.perm_ext_iff_of_nodup _ _).mpr hmem
    · exact (nodup_texts hbuild).of_map
    · exact (nodup_texts hother).of_map
  apply hperm.eq_of_pairwise _ (pairwise_precedence hbuild) (pairwise_precedence hother)
  intro r s _ _ hlt hgt
  rw [Std.OrientedCmp.gt_of_lt hgt] at hlt
  cases hlt

end SameByKey

/-- A table of rules depends on the records of each key and their order, and on
nothing else: whether it can be made, its rules in their order, and what it finds
for each path. -/
theorem sameRules_of_sameByKey (hsame : SameByKey mode records others) :
    ((∃ t, Table.build mode records = .ok t) ↔ ∃ u, Table.build mode others = .ok u) ∧
      ∀ t u, Table.build mode records = .ok t → Table.build mode others = .ok u →
        t.rules = u.rules ∧ ∀ path, t.find? path = u.find? path := by
  refine ⟨hsame.exists_build_iff, fun t u hbuild hother => ?_⟩
  have hrules := hsame.rules_eq hbuild hother
  refine ⟨hrules, fun path => ?_⟩
  rw [Table.find?, Table.find?, hrules]

/-- In folded mode the last two records have one key. -/
def settled : List Authority :=
  [⟨"ROLE_ANY", "/**"⟩, ⟨"ROLE_OLD", "/Reports"⟩, ⟨"ROLE_NEW", "reports"⟩]

/-- The same records with the first one at the end, among records that bind
nothing. -/
def unsettled : List Authority :=
  [⟨" ", "/x"⟩, ⟨"ROLE_OLD", "/Reports"⟩, ⟨"ROLE_X", ""⟩, ⟨"ROLE_NEW", "reports"⟩,
    ⟨"ROLE_ANY", "/**"⟩]

/-- The rules are made in another order, but their table is the same. -/
theorem sameRules_settled :
    SameByKey .folded settled unsettled ∧ claimsOf .folded settled ≠ claimsOf .folded unsettled ∧
      ∃ t u, Table.build .folded settled = .ok t ∧ Table.build .folded unsettled = .ok u ∧
        t.rules = u.rules := by
  have hsame : SameByKey .folded settled unsettled := sameByKey_of_mem (by decide +kernel)
  have hclaims : claimsOf .folded settled =
      [⟨"/**", "/**", "ROLE_ANY"⟩, ⟨"/reports", "/reports", "ROLE_NEW"⟩] := by decide +kernel
  obtain ⟨t, ht⟩ : ∃ t, Table.build .folded settled = .ok t := by
    rw [exists_build_iff, hclaims]
    simp only [List.forall_mem_cons]
    exact ⟨⟨_, rfl⟩, ⟨_, rfl⟩, by simp⟩
  obtain ⟨hbuilds, hrules⟩ := sameRules_of_sameByKey hsame
  obtain ⟨u, hu⟩ := hbuilds.mp ⟨t, ht⟩
  exact ⟨hsame, by decide +kernel, t, u, ht, hu, (hrules t u ht hu).1⟩

end RouteGuard.Rules
