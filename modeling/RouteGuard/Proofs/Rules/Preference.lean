import RouteGuard.Proofs.Rules.Choice

/-! # The preferred rule

The order of preference is a strict total order on pattern texts. No two rules of
a table have one text, so the rules stand in it without ties, and the rule found
for a path is the one rule that stands before all others that cover the path.
-/

namespace RouteGuard

namespace Pattern

open Std

/-- A strict total order on patterns, up to their texts. -/
structure OrdersTexts (order : Pattern → Pattern → Ordering) : Prop where
  swap : ∀ p q, order q p = (order p q).swap
  trans : ∀ p q r, order p q = .lt → order q r = .lt → order p r = .lt
  eq_iff : ∀ p q, order p q = .eq ↔ p.text = q.text

/-- All that is compared is read off the texts. -/
theorem precedence_congr {p q : Pattern} (htext : p.text = q.text) : p.precedence q = .eq := by
  have hcatchAll : p.isCatchAll = q.isCatchAll := by rw [isCatchAll, htext, isCatchAll]
  have hwildcards : p.wildcards = q.wildcards := by rw [wildcards, htext, wildcards]
  simp [precedence, hcatchAll, hwildcards, htext, ReflCmp.compare_self]

theorem ordersTexts_precedence : OrdersTexts precedence where
  swap _ _ := OrientedCmp.eq_swap
  trans _ _ _ := TransCmp.lt_trans
  eq_iff _ _ := ⟨text_eq_of_precedence, precedence_congr⟩

/-- Nothing stands after the pattern for everything. -/
theorem precedence_ne_lt_of_isCatchAll {p q : Pattern} (hp : p.isCatchAll = true) :
    p.precedence q ≠ .lt := by
  cases hq : q.isCatchAll with
  | true =>
      have htext : p.text = q.text := by
        rw [isCatchAll, beq_iff_eq] at hp hq
        rw [hp, hq]
      rw [precedence_congr htext]
      decide
  | false =>
      have hgt : compare true false = .gt := by decide
      simp [precedence, hp, hq, hgt]

end Pattern

namespace Rules

open Directory (Authority)
open Glob (CaseMode)

/-! ### The rules of a table -/

/-- A table whose rules stand in the order of preference, without ties. -/
structure Table.Ranked (t : Table) : Prop where
  strict : t.rules.Pairwise fun r s => r.pattern.precedence s.pattern = .lt
  none_iff : ∀ path, t.find? path = none ↔ ∀ r ∈ t.rules, r.pattern.covers path = false
  some_iff : ∀ path r, t.find? path = some r ↔ t.Prefers path r
  catchAll : ∀ path r, t.find? path = some r → r.pattern.text = "/**" →
    ∀ s ∈ t.rules, s.pattern.covers path = true → s = r

/-- Patterns are strictly ordered by their texts. The rules of every table that
can be made stand in this order, and for each path the table finds the one rule
that is preferred to all others that cover the path. -/
theorem ranked_of_build : Pattern.OrdersTexts Pattern.precedence ∧
    ∀ (mode : CaseMode) (records : List Authority) (t : Table),
      Table.build mode records = .ok t → t.Ranked := by
  refine ⟨Pattern.ordersTexts_precedence, fun mode records t hbuild => ?_⟩
  refine ⟨pairwise_precedence hbuild, ?_, find?_eq_some_iff_prefers hbuild, ?_⟩
  · intro path
    rw [Table.find?, List.find?_eq_none]
    simp only [Bool.not_eq_true]
  · intro path r hfind htext s hs hcovers
    have hprefers := (find?_eq_some_iff_prefers hbuild path r).mp hfind
    have hcatchAll : r.pattern.isCatchAll = true := by
      rw [Pattern.isCatchAll, htext, beq_self_eq_true]
    by_contra hne
    exact Pattern.precedence_ne_lt_of_isCatchAll hcatchAll (hprefers.first s hs hcovers hne)

/-- A pattern beside the one for everything. -/
def layered : List Authority := [⟨"ROLE_ANY", "/**"⟩, ⟨"ROLE_ADMIN", "/admin/**"⟩]

/-- The pattern for everything gives way to the other one, wherever it is stored. -/
theorem ranked_layered : ∃ t r, Table.build .exact layered = .ok t ∧ t.Ranked ∧
    t.find? "/admin/users" = some r ∧ r.pattern.text ≠ "/**" := by
  have hclaims : claimsOf .exact layered =
      [⟨"/**", "/**", "ROLE_ANY"⟩, ⟨"/admin/**", "/admin/**", "ROLE_ADMIN"⟩] := by
    decide +kernel
  obtain ⟨t, hbuild⟩ : ∃ t, Table.build .exact layered = .ok t := by
    rw [exists_build_iff, hclaims]
    simp only [List.forall_mem_cons]
    exact ⟨⟨_, rfl⟩, ⟨_, rfl⟩, by simp⟩
  have hranked := ranked_of_build.2 .exact layered t hbuild
  obtain ⟨p, hp⟩ : ∃ p, Pattern.compile .exact "/admin/**" = .ok p := ⟨_, rfl⟩
  have hmem : ⟨p, .ofList ["ROLE_ADMIN"]⟩ ∈ t.rules :=
    (mem_rules_iff hbuild _).mpr
      ⟨⟨"/admin/**", "/admin/**", "ROLE_ADMIN"⟩, by simp [hclaims], hp, rfl⟩
  have hcovers : p.covers "/admin/users" = true := by
    cases hp
    decide +kernel
  cases hfind : t.find? "/admin/users" with
  | none =>
      have hnot := (hranked.none_iff _).mp hfind _ hmem
      rw [hcovers] at hnot
      cases hnot
  | some r =>
      refine ⟨t, r, hbuild, hranked, hfind, fun htext => ?_⟩
      -- the other rule would have to be that of the pattern for everything
      obtain rfl := hranked.catchAll _ r hfind htext _ hmem hcovers
      rw [text_of_compile hp] at htext
      revert htext
      decide +kernel

end Rules

end RouteGuard
