import RouteGuard.Proofs.Glob.SegmentWeight

/-! # Patterns without wildcards

In a pattern that counts no wildcards every character stands for itself, behind
a backslash or not. So it covers one path at most.
-/

namespace RouteGuard

open Glob

/-- The two stars behind a slash at the end are counted, whatever stands before. -/
theorem Wildcards.double_count_below (cs : List Char) :
    (count (cs ++ '/' :: anySegments)).double ≠ 0 := by
  have hends : (count anySegments).double ≠ 0 ∧ (count ('/' :: anySegments)).double ≠ 0 := by
    decide +kernel
  fun_induction count cs with
  | case1 => exact hends.2
  | case2 rest ih =>
      have hskip : count ('\\' :: rest ++ '/' :: anySegments) =
          count (rest ++ '/' :: anySegments).tail := by
        rw [List.cons_append, count]
      rw [hskip]
      cases rest with
      | nil => exact hends.1
      | cons c rest => exact ih
  | case3 rest =>
      rw [List.cons_append, List.cons_append, count.eq_def]
      exact Nat.succ_ne_zero _
  | case4 c rest hc hstars w hmark ih =>
      have hnext : c = '*' → (rest ++ '/' :: anySegments).head? ≠ some '*' := by
        cases rest with
        | nil => simp
        | cons d rest => simpa using hstars rest
      rwa [List.cons_append, count_cons hc hnext, if_pos hmark]
  | case5 c rest hc hstars w hmark ih =>
      have hnext : c = '*' → (rest ++ '/' :: anySegments).head? ≠ some '*' :=
        fun hstar => absurd (Or.inl hstar) hmark
      rwa [List.cons_append, count_cons hc hnext, if_neg hmark]

namespace Glob

variable {cs : List Char} {out : List Piece}

/-- Where nothing is a wildcard the reader takes every character as it is. -/
theorem Reader.readAll_of_wildless (hcount : Wildcards.count cs = {}) :
    ∀ pieces last, readAll { pieces, last } cs = .ok out →
      ∃ chars, out = (List.map Piece.char chars).reverse ++ pieces := by
  fun_induction Wildcards.count cs with
  | case1 => exact fun pieces last hread => ⟨[], (Except.ok.inj hread).symm⟩
  | case2 rest ih =>
      intro pieces last hread
      cases rest with
      | nil => cases hread -- a backslash with nothing behind it is a fault
      | cons c rest =>
          have hescape : readAll { pieces, last } ('\\' :: c :: rest) =
              readAll { pieces := .char c :: pieces, last := some c } rest := rfl
          rw [hescape] at hread
          obtain ⟨chars, hchars⟩ := ih hcount _ _ hread
          exact ⟨c :: chars, by simp [hchars]⟩
  | case3 => simp at hcount
  | case4 => simp at hcount
  | case5 c rest hc hstars w hmark ih =>
      intro pieces last hread
      by_cases hclose : c = '}'
      · -- outside of groups it is the one mark that is not counted, and a fault
        subst hclose
        cases hread
      · have hplain : c ∉ marks := by
          simp only [not_or] at hmark
          simp only [marks, List.mem_cons, List.not_mem_nil, or_false, not_or]
          exact ⟨hmark.2.1, hmark.1, hmark.2.2.1, hc, hmark.2.2.2, hclose⟩
        rw [readAll_char hplain] at hread
        obtain ⟨chars, hchars⟩ := ih hcount _ _ hread
        exact ⟨c :: chars, by simp [hchars]⟩

theorem exists_chars_of_wildless {s : Shape} (hcount : Wildcards.count cs = {})
    (hparse : parse cs = .ok s) : ∃ chars, s = branchShape (List.map Piece.char chars).reverse := by
  rw [parse_eq_readAll] at hparse
  cases hread : Reader.readAll {} cs with
  | error e => rw [hread] at hparse; cases hparse
  | ok pieces =>
      obtain ⟨chars, rfl⟩ := Reader.readAll_of_wildless hcount _ _ hread
      rw [hread, List.append_nil, Except.bind, if_neg (reverse_map_char_ne chars)] at hparse
      exact ⟨chars, (Except.ok.inj hparse).symm⟩

end Glob

namespace Pattern

theorem bareText?_of_wildless {cs : List Char} (hcount : Wildcards.count cs = {}) :
    bareText? cs = none := by
  rw [Option.eq_none_iff_forall_ne_some]
  intro front hbare
  obtain ⟨_, hends⟩ := bareText?_eq_some_iff.mp hbare
  have hdouble := Wildcards.double_count_below front
  rw [← hends, hcount] at hdouble
  exact absurd rfl hdouble

/-- A pattern that covers two paths has a wildcard. -/
theorem eq_of_covers_of_wildless {text : String} {p : Pattern}
    (hcompile : compile .exact text = .ok p) (hcount : p.wildcards = {}) {path other : String}
    (hpath : p.covers path = true) (hother : p.covers other = true) : path = other := by
  obtain ⟨whole, bare, hwhole, hbare, rfl⟩ := compile_eq_ok_iff.mp hcompile
  rw [bareText?_of_wildless hcount] at hbare
  obtain rfl : none = bare := Except.ok.inj hbare
  have hcatchAll : (canonicalText text == "/**") = false := by
    rw [beq_eq_false_iff_ne]
    intro hsame
    have hstars : Wildcards.count "/**".toList ≠ {} := by decide +kernel
    exact hstars (hsame ▸ hcount)
  obtain ⟨chars, rfl⟩ := exists_chars_of_wildless hcount (readGlob_eq_ok_iff.mp hwhole)
  simp only [covers, isCatchAll, hcatchAll, Bool.false_or, Option.any_none, Bool.or_false,
    Shape.covers_iff, spells_branchShape_iff, CaseMode.fold, List.map_id] at hpath hother
  exact String.toList_injective (Text.encode_injective (hpath.trans hother.symm))

end Pattern

end RouteGuard
