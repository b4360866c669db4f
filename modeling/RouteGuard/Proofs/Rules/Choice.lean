import RouteGuard.Proofs.Glob.Plain
import RouteGuard.Proofs.Rules.Draft
import RouteGuard.Proofs.Rules.Precedence

/-! # The rule that is chosen

A table holds one rule for each claim of the draft, in the order of preference.
The rule found for a path is that of the one claim that covers the path and
stands before all others that do.
-/

namespace RouteGuard.Rules

open Directory (Authority)
open Glob (CaseMode)

/-! ### One fault spoils all -/

section MapM

variable {ε α β : Type} {f : α → Except ε β} {xs : List α}

theorem mem_of_mapM {ys : List β} (hmap : xs.mapM f = .ok ys) (y : β) :
    y ∈ ys ↔ ∃ x ∈ xs, f x = .ok y := by
  induction xs generalizing ys with
  | nil =>
      obtain rfl : [] = ys := Except.ok.inj hmap
      simp
  | cons x xs ih =>
      rw [List.mapM_cons] at hmap
      cases hx : f x with
      | error e => rw [hx] at hmap; cases hmap
      | ok first =>
          cases hrest : xs.mapM f with
          | error e => rw [hx, hrest] at hmap; cases hmap
          | ok rest =>
              rw [hx, hrest] at hmap
              obtain rfl : first :: rest = ys := Except.ok.inj hmap
              simp [ih hrest, hx, eq_comm]

theorem map_of_mapM {γ : Type} {g : β → γ} {k : α → γ} {ys : List β}
    (hmap : xs.mapM f = .ok ys) (hf : ∀ x ∈ xs, ∀ y, f x = .ok y → g y = k x) :
    ys.map g = xs.map k := by
  induction xs generalizing ys with
  | nil =>
      obtain rfl : [] = ys := Except.ok.inj hmap
      rfl
  | cons x xs ih =>
      rw [List.mapM_cons] at hmap
      rw [List.forall_mem_cons] at hf
      cases hx : f x with
      | error e => rw [hx] at hmap; cases hmap
      | ok first =>
          cases hrest : xs.mapM f with
          | error e => rw [hx, hrest] at hmap; cases hmap
          | ok rest =>
              rw [hx, hrest] at hmap
              obtain rfl : first :: rest = ys := Except.ok.inj hmap
              rw [List.map_cons, List.map_cons, hf.1 first hx, ih hrest hf.2]

theorem exists_mapM_iff : (∃ ys, xs.mapM f = .ok ys) ↔ ∀ x ∈ xs, ∃ y, f x = .ok y := by
  induction xs with
  | nil => exact ⟨by simp, fun _ => ⟨[], rfl⟩⟩
  | cons x xs ih =>
      rw [List.mapM_cons, List.forall_mem_cons, ← ih]
      cases f x with
      | error e =>
          constructor
          · rintro ⟨_, ⟨⟩⟩
          · rintro ⟨⟨_, ⟨⟩⟩, _⟩
      | ok first =>
          cases xs.mapM f with
          | error e =>
              constructor
              · rintro ⟨_, ⟨⟩⟩
              · rintro ⟨_, _, ⟨⟩⟩
          | ok rest => exact ⟨fun _ => ⟨⟨first, rfl⟩, rest, rfl⟩, fun _ => ⟨first :: rest, rfl⟩⟩

end MapM

/-- In a list without ties the first element of a kind is the one that stands
before all others of the kind. -/
theorem find?_eq_some_iff_of_pairwise {α : Type} {before : α → α → Prop} {p : α → Bool}
    {xs : List α} {x : α} (hasymm : ∀ x y, before x y → ¬ before y x) (hsorted : xs.Pairwise before) :
    xs.find? p = some x ↔ x ∈ xs ∧ p x = true ∧ ∀ y ∈ xs, p y = true → y ≠ x → before x y := by
  have hfirst : ∀ y, xs.find? p = some y →
      y ∈ xs ∧ p y = true ∧ ∀ z ∈ xs, p z = true → z ≠ y → before y z := by
    intro y hfind
    obtain ⟨hy, front, back, rfl, hfront⟩ := List.find?_eq_some_iff_append.mp hfind
    refine ⟨by simp, hy, fun z hz hpz hne => ?_⟩
    rcases List.mem_append.mp hz with hearlier | hlater
    · have hnot := hfront z hearlier
      simp [hpz] at hnot
    · rcases List.mem_cons.mp hlater with hsame | hback
      · exact absurd hsame hne
      · rw [List.pairwise_append] at hsorted
        exact (List.pairwise_cons.mp hsorted.2.1).1 z hback
  refine ⟨hfirst x, fun ⟨hx, hpx, hall⟩ => ?_⟩
  obtain ⟨y, hfind⟩ : ∃ y, xs.find? p = some y := by
    rw [← Option.isSome_iff_exists, List.find?_isSome]
    exact ⟨x, hx, hpx⟩
  obtain ⟨hy, hpy, hbefore⟩ := hfirst y hfind
  by_cases hsame : x = y
  · rw [hsame, hfind]
  · exact absurd (hall y hy hpy (Ne.symm hsame)) (hasymm y x (hbefore x hx hpx hsame))

def claimsOf (mode : CaseMode) (records : List Authority) : List Claim :=
  (Draft.ofRecords mode records).claims

/-- A claim whose pattern can be read covers a path. -/
def Claim.Covers (mode : CaseMode) (c : Claim) (p : Pattern) (path : String) : Prop :=
  Pattern.compile mode c.text = .ok p ∧ p.covers path = true

/-- The claim that covers a path and stands before all others that do. -/
def Chosen (mode : CaseMode) (records : List Authority) (path : String) (c : Claim)
    (p : Pattern) : Prop :=
  c ∈ claimsOf mode records ∧ c.Covers mode p path ∧
    ∀ other ∈ claimsOf mode records, other ≠ c → ∀ q, other.Covers mode q path →
      p.precedence q = .lt

variable {mode : CaseMode} {records : List Authority} {t : Table} {path : String}

/-- A claim becomes a rule if its text compiles. -/
theorem Claim.rule_eq_ok_iff (c : Claim) (r : Rule) :
    c.rule mode = .ok r ↔
      Pattern.compile mode c.text = .ok r.pattern ∧ r.required = .ofList [c.owner] := by
  obtain ⟨pattern, required⟩ := r
  unfold Claim.rule
  cases Pattern.compile mode c.text with
  | error e => simp [Except.map]
  | ok p => simp [Except.map, eq_comm]

/-- A table is built of the rules of all claims, the most specific ones first. -/
theorem build_eq_ok_iff : Table.build mode records = .ok t ↔
    ∃ rules, (claimsOf mode records).mapM (Claim.rule mode) = .ok rules ∧
      t = ⟨rules.mergeSort fun r s => r.pattern.atLeastAsSpecific s.pattern,
        (Draft.ofRecords mode records).collisions⟩ := by
  unfold Table.build Table.ofDraft claimsOf
  cases (Draft.ofRecords mode records).claims.mapM (Claim.rule mode) with
  | error e => simp
  | ok rules => simp [eq_comm]

/-- A table can be made exactly if every claim's pattern can be read. -/
theorem exists_build_iff :
    (∃ t, Table.build mode records = .ok t) ↔
      ∀ c ∈ claimsOf mode records, ∃ p, Pattern.compile mode c.text = .ok p := by
  have hrule : ∀ c : Claim, (∃ r, c.rule mode = .ok r) ↔
      ∃ p, Pattern.compile mode c.text = .ok p := by
    intro c
    constructor
    · rintro ⟨r, hr⟩
      exact ⟨r.pattern, ((c.rule_eq_ok_iff r).mp hr).1⟩
    · rintro ⟨p, hp⟩
      exact ⟨⟨p, .ofList [c.owner]⟩, (c.rule_eq_ok_iff _).mpr ⟨hp, rfl⟩⟩
  simp only [build_eq_ok_iff, ← hrule, ← exists_mapM_iff]
  constructor
  · rintro ⟨_, rules, hmap, _⟩
    exact ⟨rules, hmap⟩
  · rintro ⟨rules, hmap⟩
    exact ⟨_, rules, hmap, rfl⟩

/-- The rules are those of the claims. -/
theorem mem_rules_iff (hbuild : Table.build mode records = .ok t) (r : Rule) :
    r ∈ t.rules ↔ ∃ c ∈ claimsOf mode records,
      Pattern.compile mode c.text = .ok r.pattern ∧ r.required = .ofList [c.owner] := by
  obtain ⟨rules, hmap, rfl⟩ := build_eq_ok_iff.mp hbuild
  rw [List.mem_mergeSort, mem_of_mapM hmap]
  simp only [Claim.rule_eq_ok_iff]

theorem pairwise_rules (hbuild : Table.build mode records = .ok t) :
    t.rules.Pairwise fun r s => r.pattern.atLeastAsSpecific s.pattern = true := by
  obtain ⟨rules, _, rfl⟩ := build_eq_ok_iff.mp hbuild
  apply List.pairwise_mergeSort
  · intro r s u
    exact Pattern.atLeastAsSpecific_trans r.pattern s.pattern u.pattern
  · intro r s
    exact Pattern.atLeastAsSpecific_total r.pattern s.pattern

theorem text_of_compile {text : String} {p : Pattern}
    (hcompile : Pattern.compile mode text = .ok p) : p.text = canonicalText text := by
  obtain ⟨_, _, _, _, rfl⟩ := Pattern.compile_eq_ok_iff.mp hcompile
  rfl

theorem compile_canonicalText (mode : CaseMode) (text : String) :
    Pattern.compile mode (canonicalText text) = Pattern.compile mode text := by
  simp only [Pattern.compile, canonicalText_canonicalText]

/-- The rules of a table have the keys of the claims. -/
theorem perm_keys_rules (hbuild : Table.build mode records = .ok t) :
    (t.rules.map fun r => patternKey mode r.pattern.text).Perm
      ((claimsOf mode records).map (·.key)) := by
  obtain ⟨rules, hmap, rfl⟩ := build_eq_ok_iff.mp hbuild
  have hformed := Draft.Formed.ofRecords mode records
  have hkeys : rules.map (fun r => patternKey mode r.pattern.text) =
      (claimsOf mode records).map (·.key) := by
    apply map_of_mapM hmap
    intro c hc r hr
    have hclaim := hformed.claims c hc
    rw [text_of_compile ((c.rule_eq_ok_iff r).mp hr).1, hclaim.text_canonical, hclaim.key_eq]
  rw [← hkeys]
  exact (List.mergeSort_perm rules _).map _

theorem nodup_keys_rules (hbuild : Table.build mode records = .ok t) :
    (t.rules.map fun r => patternKey mode r.pattern.text).Nodup :=
  (perm_keys_rules hbuild).nodup_iff.mpr (Draft.Formed.ofRecords mode records).keys

/-- No two rules of a table have the same text. -/
theorem nodup_texts (hbuild : Table.build mode records = .ok t) :
    (t.rules.map (·.pattern.text)).Nodup := by
  apply List.Nodup.of_map (patternKey mode)
  rw [List.map_map]
  exact nodup_keys_rules hbuild

/-- The rules of a table stand in strict order of precedence. -/
theorem pairwise_precedence (hbuild : Table.build mode records = .ok t) :
    t.rules.Pairwise fun r s => r.pattern.precedence s.pattern = .lt := by
  have htexts := List.pairwise_map.mp (nodup_texts hbuild)
  apply ((pairwise_rules hbuild).and htexts).imp
  rintro r s ⟨hle, hne⟩
  exact Pattern.precedence_of_atLeastAsSpecific hle hne

/-! ### The choice for a path -/

/-- Two patterns of the claims have the same text only if the claims are one. -/
theorem eq_of_pattern_text {c other : Claim} {p q : Pattern}
    (hc : c ∈ claimsOf mode records) (hother : other ∈ claimsOf mode records)
    (hp : Pattern.compile mode c.text = .ok p) (hq : Pattern.compile mode other.text = .ok q)
    (htext : p.text = q.text) : c = other := by
  have hformed := Draft.Formed.ofRecords mode records
  apply hformed.eq_of_text hc hother
  rw [text_of_compile hp, text_of_compile hq] at htext
  rwa [(hformed.claims c hc).text_canonical, (hformed.claims other hother).text_canonical] at htext

/-- No rule is found if no claim covers the path. -/
theorem find?_eq_none_iff (hbuild : Table.build mode records = .ok t) :
    t.find? path = none ↔
      ∀ c ∈ claimsOf mode records, ∀ p, ¬ c.Covers mode p path := by
  rw [Table.find?, List.find?_eq_none]
  constructor
  · rintro hnone c hc p ⟨hcompile, hcovers⟩
    have hrule := (mem_rules_iff hbuild ⟨p, .ofList [c.owner]⟩).mpr ⟨c, hc, hcompile, rfl⟩
    exact hnone _ hrule hcovers
  · intro hnone r hr hcovers
    obtain ⟨c, hc, hcompile, _⟩ := (mem_rules_iff hbuild r).mp hr
    exact hnone c hc r.pattern ⟨hcompile, hcovers⟩

/-- The rule covers the path and stands before all others that do. -/
structure Table.Prefers (t : Table) (path : String) (r : Rule) : Prop where
  mem : r ∈ t.rules
  covers : r.pattern.covers path = true
  first : ∀ s ∈ t.rules, s.pattern.covers path = true → s ≠ r →
    r.pattern.precedence s.pattern = .lt

/-- Rules stand in order, so a rule found comes before every other that covers
the path. -/
theorem find?_eq_some_iff_prefers (hbuild : Table.build mode records = .ok t) (path : String)
    (r : Rule) : t.find? path = some r ↔ t.Prefers path r := by
  have hasymm : ∀ r s : Rule, r.pattern.precedence s.pattern = .lt →
      ¬ s.pattern.precedence r.pattern = .lt := by
    intro r s hlt hgt
    rw [Std.OrientedCmp.gt_of_lt hgt] at hlt
    cases hlt
  rw [Table.find?, find?_eq_some_iff_of_pairwise hasymm (pairwise_precedence hbuild)]
  exact ⟨fun ⟨hr, hcovers, hfirst⟩ => ⟨hr, hcovers, hfirst⟩,
    fun hprefers => ⟨hprefers.mem, hprefers.covers, hprefers.first⟩⟩

/-- The rule that is found is that of the chosen claim. -/
theorem chosen_of_find? (hbuild : Table.build mode records = .ok t) {r : Rule}
    (hfind : t.find? path = some r) :
    ∃ c, Chosen mode records path c r.pattern ∧ r.required = .ofList [c.owner] := by
  obtain ⟨hr, hcovers, hfirst⟩ := (find?_eq_some_iff_prefers hbuild path r).mp hfind
  obtain ⟨c, hc, hcompile, hrequired⟩ := (mem_rules_iff hbuild r).mp hr
  refine ⟨c, ⟨hc, ⟨hcompile, hcovers⟩, ?_⟩, hrequired⟩
  rintro other hother hne q ⟨hq, hcoversq⟩
  have hmem := (mem_rules_iff hbuild ⟨q, .ofList [other.owner]⟩).mpr ⟨other, hother, hq, rfl⟩
  apply hfirst _ hmem hcoversq
  rintro rfl
  exact hne (eq_of_pattern_text hother hc hq hcompile rfl)

/-- At most one claim is chosen. -/
theorem Chosen.unique {c other : Claim} {p q : Pattern} (hc : Chosen mode records path c p)
    (hother : Chosen mode records path other q) : c = other := by
  by_contra hne
  obtain ⟨hmem, hcovers, hfirst⟩ := hc
  obtain ⟨hmem', hcovers', hfirst'⟩ := hother
  have hlt := hfirst other hmem' (Ne.symm hne) q hcovers'
  have hgt := hfirst' c hmem hne p hcovers
  rw [Std.OrientedCmp.gt_of_lt hgt] at hlt
  cases hlt

end RouteGuard.Rules
