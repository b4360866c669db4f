import RouteGuard.Proofs.Glob.Plain
import RouteGuard.Proofs.Rules.Protection

/-! # Patterns at their own address

A pattern is trimmed and given a leading slash, while the path of a request loses
its empty and dot segments. So a pattern without marks covers the path that its
own text leads to exactly if nothing of the text is lost on the way.
-/

namespace RouteGuard

open Glob (CaseMode)

/-- Nothing in the trimmed text has a meaning in patterns or in request targets. -/
def IsPlain (url : String) : Prop :=
  ∀ c ∈ (Text.trim url).toList, c ∉ ['*', '?', '[', ']', '{', '}', '\\', '%', '#']

instance (url : String) : Decidable (IsPlain url) := List.decidableBAll _ _

variable {url : String}

theorem toList_canonicalText (url : String) :
    (canonicalText url).toList = (Text.trim url).toList ∨
      (canonicalText url).toList = '/' :: (Text.trim url).toList := by
  simp only [canonicalText, Text.trim, String.toList_ofList]
  split
  · exact Or.inl rfl
  · exact Or.inr rfl

theorem IsPlain.unmarked (hplain : IsPlain url) :
    ∀ c ∈ (canonicalText url).toList, c ∉ Glob.marks := by
  have htrimmed : ∀ c ∈ (Text.trim url).toList, c ∉ Glob.marks := by
    intro c hc hmark
    have hsub : Glob.marks ⊆ ['*', '?', '[', ']', '{', '}', '\\', '%', '#'] := by decide
    exact hplain c hc (hsub hmark)
  rcases toList_canonicalText url with hsame | hslash
  · rwa [hsame]
  · rw [hslash, List.forall_mem_cons]
    exact ⟨by decide, htrimmed⟩

/-- The path of a request for a plain text is told by its segments alone. -/
theorem IsPlain.canonical?_eq (hplain : IsPlain url) :
    Path.canonical? (Text.trim url) = some (String.ofList
      (Path.render (Path.resolve (Path.segments (canonicalText url).toList)))) := by
  have hunmarked : ∀ c ∈ (Text.trim url).toList, c ∉ ['?', '#', '%'] := by
    intro c hc hmark
    have hsub : ['?', '#', '%'] ⊆ ['*', '?', '[', ']', '{', '}', '\\', '%', '#'] := by decide
    exact hplain c hc (hsub hmark)
  rw [Path.canonical?_eq, Path.decoded?_of_unmarked hunmarked, Option.map_some]
  rcases toList_canonicalText url with hsame | hslash
  · rw [hsame]
  · rw [hslash, Path.resolve_segments_cons]

/-- A text that a mode does not tell apart from its canonical form is canonical,
since it has as many bytes. -/
theorem same_canonical_iff (mode : CaseMode) {path text : String} {rest : List Char}
    (htext : text.toList = '/' :: rest)
    (hpath : path.toList = Path.render (Path.resolve (Path.segments text.toList))) :
    mode.Same path text ↔ Path.Direct text.toList := by
  have hiff := Path.render_resolve_eq_self_iff rest
  rw [← htext, ← hpath] at hiff
  rw [← hiff]
  constructor
  · intro hsame
    have hlength := congrArg List.length hsame
    rw [List.length_map, List.length_map] at hlength
    have hsublist := Path.render_resolve_sublist rest
    rw [← htext, ← hpath] at hsublist
    exact Text.encode_injective ((hsublist.flatMap String.utf8EncodeChar).eq_of_length hlength)
  · intro hsame
    rw [CaseMode.Same, Text.bytes, hsame, Text.bytes]

namespace Rules

open Directory (Authority)

variable {mode : CaseMode} {records : List Authority} {t : Table} {a : Authority}

/-- A plain pattern protects the path of its own text, if that is direct. So does
a plain pattern that has taken it over, if the mode does not tell them apart. -/
theorem find?_of_direct (hbuild : Table.build mode records = .ok t) (ha : a ∈ records)
    (hbinds : Binds a) (hplain : IsPlain a.url) {path : String}
    (hpath : mode.Same path (canonicalText a.url))
    (hkept : mode = .folded → ∀ b, Kept mode records b →
      (claimOf mode b).key = (claimOf mode a).key →
        mode.Same (canonicalText b.url) (canonicalText a.url)) :
    t.find? path ≠ none := by
  rw [Ne, find?_eq_none_iff_kept hbuild, not_forall]
  obtain ⟨b, hb, hkey⟩ := @exists_kept mode _ _ ha hbinds
  have hsame : mode.Same (canonicalText b.url) (canonicalText a.url) := by
    cases mode with
    | exact =>
        have htext : canonicalText b.url = canonicalText a.url := hkey
        rw [CaseMode.Same, htext]
    | folded => exact hkept rfl b hb hkey
  obtain ⟨p, hcompile, hcovers⟩ :=
    Pattern.exists_compile_of_unmarked mode (hsame.unmarked hplain.unmarked)
  refine ⟨b, fun hnot => hnot hb ⟨hb.1, p, hcompile, (hcovers path).mpr ?_⟩⟩
  exact Eq.trans hpath hsame.symm

/-- The pattern of a plain record covers the path that its own text leads to
exactly if its canonical text is direct. If it is, the path has a rule; only in
folded mode a later record may take the rule over with another text. -/
theorem own_address (hbuild : Table.build mode records = .ok t) (ha : a ∈ records)
    (hbinds : Binds a) (hplain : IsPlain a.url) :
    ∃ path p, Path.canonical? (Text.trim a.url) = some path ∧
      Pattern.compile mode a.url = .ok p ∧
      (p.covers path = true ↔ Path.Direct (canonicalText a.url).toList) ∧
      (Path.Direct (canonicalText a.url).toList →
        (mode = .folded → ∀ b, Kept mode records b →
          (claimOf mode b).key = (claimOf mode a).key →
            mode.Same (canonicalText b.url) (canonicalText a.url)) →
        t.find? path ≠ none) := by
  obtain ⟨rest, htext⟩ := exists_canonicalText a.url
  obtain ⟨p, hcompile, hcovers⟩ := Pattern.exists_compile_of_unmarked mode hplain.unmarked
  let path := String.ofList
    (Path.render (Path.resolve (Path.segments (canonicalText a.url).toList)))
  have hdirect : mode.Same path (canonicalText a.url) ↔ Path.Direct (canonicalText a.url).toList :=
    same_canonical_iff mode htext String.toList_ofList
  refine ⟨path, p, hplain.canonical?_eq, hcompile, (hcovers path).trans hdirect, ?_⟩
  exact fun hself hkept => find?_of_direct hbuild ha hbinds hplain (hdirect.mpr hself) hkept

/-- In folded mode the second record takes the rule of the first one over. -/
def reports : List Authority := [⟨"ROLE_OLD", "/Reports/q1"⟩, ⟨"ROLE_NEW", " reports/q1 "⟩]

/-- The path of the first record is still covered, by the rule that the second one took over. -/
theorem own_address_reports :
    ∃ t, Table.build .folded reports = .ok t ∧ t.find? "/Reports/q1" ≠ none := by
  have hclaims : claimsOf .folded reports = [⟨"/reports/q1", "/reports/q1", "ROLE_NEW"⟩] := by
    decide +kernel
  have hbuild : ∃ t, Table.build .folded reports = .ok t := by
    rw [exists_build_iff, hclaims]
    simp only [List.forall_mem_cons]
    exact ⟨⟨_, rfl⟩, by simp⟩
  obtain ⟨t, ht⟩ := hbuild
  obtain ⟨path, p, hpath, _, _, hfind⟩ :=
    own_address ht (a := ⟨"ROLE_OLD", "/Reports/q1"⟩) (by simp [reports]) (by decide +kernel)
      (by decide +kernel)
  have hcanonical : Path.canonical? (Text.trim "/Reports/q1") = some "/Reports/q1" := by
    decide +kernel
  obtain rfl := Option.some.inj (hcanonical.symm.trans hpath)
  refine ⟨t, ht, hfind (by decide +kernel) fun _ b hb _ => ?_⟩
  have hsame : ∀ b ∈ reports, CaseMode.folded.Same (canonicalText b.url)
      (canonicalText "/Reports/q1") := by
    decide +kernel
  exact hsame b hb.mem

/-- A pattern with a slash at its end. -/
def slashed : List Authority := [⟨"ROLE_REPORTS", "/reports/"⟩]

/-- The rule is there, but a request for its own text does not find it. -/
theorem find?_slashed :
    ∃ t, Table.build .exact slashed = .ok t ∧
      (∃ a ∈ slashed, Binds a ∧ IsPlain a.url ∧
        Path.canonical? (Text.trim a.url) = some "/reports") ∧
      t.find? "/reports" = none := by
  have hclaims : claimsOf .exact slashed = [⟨"/reports/", "/reports/", "ROLE_REPORTS"⟩] := by
    decide +kernel
  have hbuild : ∃ t, Table.build .exact slashed = .ok t := by
    rw [exists_build_iff, hclaims]
    simp only [List.forall_mem_cons]
    exact ⟨⟨_, rfl⟩, by simp⟩
  obtain ⟨t, ht⟩ := hbuild
  refine ⟨t, ht, ⟨⟨"ROLE_REPORTS", "/reports/"⟩, List.mem_singleton_self _, by decide +kernel,
    by decide +kernel, by decide +kernel⟩, ?_⟩
  rw [find?_eq_none_iff_kept ht]
  rintro a hkept ⟨_, p, hcompile, hcovers⟩
  obtain rfl := List.mem_singleton.mp hkept.mem
  cases hcompile
  revert hcovers
  decide +kernel

end Rules

end RouteGuard
