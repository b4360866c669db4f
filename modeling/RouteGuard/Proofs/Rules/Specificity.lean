import RouteGuard.Proofs.Glob.Segmentwise
import RouteGuard.Proofs.Glob.Wildless
import RouteGuard.Proofs.Path.Disguise
import RouteGuard.Proofs.Rules.Preference

/-! # Preference for the narrower pattern

The order of preference is read off the texts of two patterns, but it follows what
they cover up to a point. A pattern that covers fewer paths than another stands
before it if it has no wildcards, or if the other one is that for everything. With
as many wildcards as the other one it may come second for the sake of its text.
Where both are patterns of segments that is a tie in length: the narrower one
spells out at least as much.
-/

namespace RouteGuard

open Glob

/-- The first count that differs is the smaller one. -/
def Wildcards.Fewer (w v : Wildcards) : Prop :=
  w.double < v.double ∨ w.double = v.double ∧ w.single < v.single

/-- Of two counts of wildcards one is fewer, or they are equal. -/
theorem Wildcards.fewer_trichotomy (w v : Wildcards) : w.Fewer v ∨ w = v ∨ v.Fewer w := by
  obtain ⟨double, single⟩ := w
  obtain ⟨double', single'⟩ := v
  simp only [Fewer, Wildcards.mk.injEq]
  omega

namespace Pattern

/-- `p` covers some canonical path. -/
def Live (p : Pattern) : Prop := ∃ path, Path.IsCanonical path ∧ p.covers path = true

/-- The canonical paths that `p` covers are some of those that `q` covers, but not
all. -/
structure Narrower (p q : Pattern) : Prop where
  within : ∀ path, Path.IsCanonical path → p.covers path = true → q.covers path = true
  beyond : ∃ path, Path.IsCanonical path ∧ q.covers path = true ∧ p.covers path = false

/-- `p` stands before `q`, and no table with a rule for `p` finds one for `q` where
`p` covers the path. -/
structure Leads (p q : Pattern) : Prop where
  first : p.precedence q = .lt
  found : ∀ mode records t, Rules.Table.build mode records = .ok t →
    (∃ r ∈ t.rules, r.pattern = p) → ∀ path, p.covers path = true →
      ∀ s, t.find? path = some s → s.pattern ≠ q

/-- The text is one of simple segments and of segments for any number of them. -/
def IsSegmented (p : Pattern) : Prop := Segmented (Path.parts p.text)

/-- What can put `p` behind `q` whatever they cover. -/
inductive Handicap (p q : Pattern) : Prop
  | moreWildcards (hwildcards : q.wildcards.Fewer p.wildcards)
  /-- never between two patterns of segments -/
  | shorterText (hwildcards : p.wildcards = q.wildcards)
    (hlength : p.text.utf8ByteSize < q.text.utf8ByteSize)
    (hsegments : ¬ (p.IsSegmented ∧ q.IsSegmented))
  | laterText (hwildcards : p.wildcards = q.wildcards)
    (hlength : p.text.utf8ByteSize = q.text.utf8ByteSize) (htext : compare q.text p.text = .lt)

variable {p q : Pattern}

/-! ### The keys of the order -/

theorem Leads.of_precedence (hfirst : p.precedence q = .lt) : p.Leads q := by
  refine ⟨hfirst, ?_⟩
  rintro mode records t hbuild ⟨r, hr, rfl⟩ path hcovers s hfind rfl
  have hgt : r.pattern.precedence s.pattern ≠ .gt := by rw [hfirst]; decide
  have hprefers := (Rules.find?_eq_some_iff_prefers hbuild path s).mp hfind
  by_cases hsame : r = s
  · rw [hsame, precedence_congr rfl] at hfirst
    cases hfirst
  · exact hgt (Std.OrientedCmp.gt_of_lt (hprefers.first r hr hcovers hsame))

/-- A catch-all comes behind every other pattern. -/
theorem precedence_of_isCatchAll (hp : p.isCatchAll = false) (hq : q.isCatchAll = true) :
    p.precedence q = .lt := by
  have hlt : compare false true = .lt := by decide
  simp [precedence, hp, hq, hlt]

/-- Fewer wildcards lead, whatever the texts. -/
theorem precedence_of_fewer (hp : p.isCatchAll = false) (hfewer : p.wildcards.Fewer q.wildcards) :
    p.precedence q = .lt := by
  cases hq : q.isCatchAll with
  | true => exact precedence_of_isCatchAll hp hq
  | false =>
      rcases hfewer with hdouble | ⟨hdouble, hsingle⟩
      · simp [precedence, hp, hq, Nat.compare_eq_lt.mpr hdouble, Std.ReflCmp.compare_self]
      · simp [precedence, hp, hq, hdouble, Nat.compare_eq_lt.mpr hsingle, Std.ReflCmp.compare_self]

/-- With equal wildcards, the longer text leads. -/
theorem precedence_of_longer (hp : p.isCatchAll = false) (hwildcards : p.wildcards = q.wildcards)
    (hlonger : q.text.utf8ByteSize < p.text.utf8ByteSize) : p.precedence q = .lt := by
  cases hq : q.isCatchAll with
  | true => exact precedence_of_isCatchAll hp hq
  | false =>
      simp [precedence, hp, hq, hwildcards, Nat.compare_eq_lt.mpr hlonger, Std.ReflCmp.compare_self]

/-- With equal wildcards and lengths, the texts decide. -/
theorem precedence_of_sameLength (hp : p.isCatchAll = false) (hq : q.isCatchAll = false)
    (hwildcards : p.wildcards = q.wildcards) (hlength : p.text.utf8ByteSize = q.text.utf8ByteSize) :
    p.precedence q = compare p.text q.text := by
  simp [precedence, hp, hq, hwildcards, hlength, Std.ReflCmp.compare_self]

end Pattern

/-! ### The path of a pattern's own -/

namespace Path

variable {path : String} {segs : List (List Char)}

/-- A segment that resolving would take away stands for itself alone. -/
theorem eq_or_ordinary_of_spells {seg other : List Char}
    (hspells : SegmentSpells seg (Text.encode other)) : seg = other ∨ Ordinary seg := by
  by_cases hseg : Ordinary seg
  · exact Or.inr hseg
  · left
    have hplain : ∀ c ∈ seg, Pattern.IsOrdinary c := by
      simp only [Ordinary, not_and_or, not_not] at hseg
      rcases hseg with rfl | rfl | rfl <;> simp [Pattern.IsOrdinary]
    exact Text.encode_injective ((Pattern.segmentSpells_iff_of_ordinary hplain).mp hspells).symm

theorem pathText_eq_rooted (hne : segs ≠ []) : pathText segs = '/' :: Text.joined '/' segs := by
  rw [pathText, ← render_eq_flatMap hne, render_eq_rooted]

theorem parts_of_joined (hne : segs ≠ []) (hslash : ∀ seg ∈ segs, '/' ∉ seg)
    (hpath : path.toList = '/' :: Text.joined '/' segs) : parts path = segs := by
  have hparts : parts path = Text.pieces '/' (Text.joined '/' segs) := by rw [parts, hpath]; rfl
  rw [hparts, Text.pieces_joined hne hslash]

theorem texts_pathText (hne : segs ≠ []) (hslash : ∀ seg ∈ segs, '/' ∉ seg) :
    texts (String.ofList (pathText segs)) = segs.map Text.encode := by
  rw [texts, parts_of_joined hne hslash]
  rw [String.toList_ofList, pathText_eq_rooted hne]

/-- The standing segments of a pattern that covers some canonical path make one
up themselves. -/
theorem rooted_standing (hslash : ∀ seg ∈ segs, '/' ∉ seg) (hne : standing segs ≠ [])
    (hpath : Rooted path) (hspells : PathSpells segs (texts path)) :
    Rooted (String.ofList (pathText (standing segs))) := by
  obtain ⟨names, hnames, hordinary⟩ := hpath
  rw [Rooted, String.toList_ofList, pathText_eq_rooted hne]
  by_cases hroot : names = []
  · -- the root has one empty segment, and a segment that takes it is empty itself or ordinary
    have htexts : texts path = [Text.encode []] := by
      rw [texts, parts, hnames, hroot]
      rfl
    rw [htexts] at hspells
    obtain ⟨seg, hseg⟩ : ∃ seg, standing segs = [seg] := by
      have hlength := hspells.length_le
      have hpos := List.length_pos_of_ne_nil hne
      rw [List.length_singleton] at hlength
      exact List.length_eq_one_iff.mp (by omega)
    have hmem : seg ∈ standing segs := by simp [hseg]
    obtain ⟨text, htext, htaken⟩ := hspells.exists_mem seg hmem
    rw [List.mem_singleton.mp htext] at htaken
    rw [hseg]
    rcases eq_or_ordinary_of_spells htaken with rfl | hseg
    · exact ⟨[], rfl, by simp⟩
    · refine ⟨[seg], rfl, ?_⟩
      rw [List.forall_mem_singleton]
      exact ⟨hseg, hslash seg (List.mem_of_mem_filter hmem)⟩
  · have htexts : texts path = names.map Text.encode := by
      rw [texts, parts_of_joined hroot (fun seg hseg => (hordinary seg hseg).2) hnames]
    refine ⟨standing segs, rfl, fun seg hseg => ⟨?_, hslash seg (List.mem_of_mem_filter hseg)⟩⟩
    obtain ⟨text, htext, htaken⟩ := hspells.exists_mem seg hseg
    rw [htexts] at htext
    obtain ⟨other, hother, rfl⟩ := List.mem_map.mp htext
    rcases eq_or_ordinary_of_spells htaken with rfl | hseg
    · exact (hordinary seg hother).1
    · exact hseg

end Path

/-! ### Patterns of segments -/

namespace Pattern

variable {p q : Pattern} {first second text path : String}

theorem canonicalText_text (hcompile : compile .exact text = .ok p) :
    canonicalText p.text = p.text := by
  rw [Rules.text_of_compile hcompile, canonicalText_canonicalText]

theorem compile_text (hcompile : compile .exact text = .ok p) : compile .exact p.text = .ok p := by
  rw [Rules.text_of_compile hcompile, Rules.compile_canonicalText, hcompile]

theorem absolute_text (hcompile : compile .exact text = .ok p) : Path.Absolute p.text :=
  Rules.text_of_compile hcompile ▸ exists_canonicalText text

/-- A segmented pattern covers the paths that its segments spell. -/
theorem covers_iff_of_segmented (hcompile : compile .exact text = .ok p)
    (hsegs : p.IsSegmented) (hpath : Path.Absolute path) :
    p.covers path = true ↔ PathSpells (Path.parts p.text) (Path.texts path) := by
  obtain ⟨p', hp', hcovers⟩ := exists_compile_of_segmented (canonicalText_text hcompile) hsegs
  rw [compile_text hcompile] at hp'
  obtain rfl := Except.ok.inj hp'
  exact hcovers path hpath

/-- The length of a pattern is what it spells out and its wildcards. -/
theorem utf8ByteSize_text (hcompile : compile .exact text = .ok p) (hsegs : p.IsSegmented) :
    p.text.utf8ByteSize =
      weight (slashed ((standing (Path.parts p.text)).map Text.encode)) +
        p.wildcards.single + 3 * p.wildcards.double := by
  have htext := Path.pathText_parts (absolute_text hcompile)
  rw [← Text.length_bytes, Text.bytes, wildcards, ← htext, hsegs.length_encode_pathText, htext]

/-- A pattern of `**` segments only is a catch-all. -/
theorem isCatchAll_of_standing (hcompile : compile .exact text = .ok p)
    (hsegs : p.IsSegmented) (hnone : standing (Path.parts p.text) = []) :
    p.isCatchAll = true := by
  have htext := Path.pathText_parts (absolute_text hcompile)
  have hne : Path.parts p.text ≠ [] := by
    intro hnil
    obtain ⟨rest, hrest⟩ := absolute_text hcompile
    rw [hnil, hrest] at htext
    cases htext
  rw [hsegs.eq_any hne hnone] at htext
  rw [isCatchAll, beq_iff_eq]
  exact String.toList_injective htext.symm

namespace Narrower

variable (hnarrower : p.Narrower q)
include hnarrower

/-- The narrower pattern is no catch-all. -/
theorem not_isCatchAll : p.isCatchAll = false := by
  obtain ⟨path, _, _, hnot⟩ := hnarrower.beyond
  by_contra hcatchAll
  rw [Bool.not_eq_false] at hcatchAll
  simp [covers, hcatchAll] at hnot

/-- Patterns of which one is narrower differ in text. -/
theorem text_ne (hp : compile .exact first = .ok p) (hq : compile .exact second = .ok q) :
    p.text ≠ q.text := by
  intro hsame
  obtain ⟨path, _, hcovers, hnot⟩ := hnarrower.beyond
  have hboth := compile_text hq
  rw [← hsame, compile_text hp] at hboth
  obtain rfl := Except.ok.inj hboth
  rw [hcovers] at hnot
  cases hnot

/-- Where the counts and the lengths are equal the texts decide. -/
theorem leads_or_behind (hp : compile .exact first = .ok p) (hq : compile .exact second = .ok q)
    (hall : q.isCatchAll = false) (hwildcards : p.wildcards = q.wildcards)
    (hlength : p.text.utf8ByteSize = q.text.utf8ByteSize) :
    p.Leads q ∨ compare q.text p.text = .lt := by
  have hprecedence :=
    precedence_of_sameLength hnarrower.not_isCatchAll hall hwildcards hlength
  cases hcompare : compare p.text q.text with
  | lt => exact Or.inl (.of_precedence (hprecedence.trans hcompare))
  | eq => exact absurd (Std.LawfulEqOrd.eq_of_compare hcompare) (hnarrower.text_ne hp hq)
  | gt => exact Or.inr (Std.OrientedCmp.lt_of_gt hcompare)

/-- What covers more than a pattern without wildcards has wildcards itself. -/
theorem fewer_of_wildless (hlive : p.Live) (hwildless : p.wildcards = {})
    (hq : compile .exact second = .ok q) : p.wildcards.Fewer q.wildcards := by
  obtain ⟨path, hpath, hcovers⟩ := hlive
  obtain ⟨other, _, hother, hnot⟩ := hnarrower.beyond
  have hwild : q.wildcards ≠ {} := by
    intro hnone
    have hcovered := hnarrower.within path hpath hcovers
    rw [eq_of_covers_of_wildless hq hnone hcovered hother, hnot] at hcovers
    cases hcovers
  rcases Wildcards.fewer_trichotomy p.wildcards q.wildcards with hfewer | hsame | hmore
  · exact hfewer
  · exact absurd (hsame.symm.trans hwildless) hwild
  · rw [hwildless] at hmore
    rcases hmore with hdouble | ⟨_, hsingle⟩
    · exact absurd hdouble (Nat.not_lt_zero _)
    · exact absurd hsingle (Nat.not_lt_zero _)

/-- The broader pattern covers the narrower one's own path, so it spells out no
more. -/
theorem weight_le (hlive : p.Live) (hp : compile .exact first = .ok p)
    (hq : compile .exact second = .ok q) (hpsegs : p.IsSegmented) (hqsegs : q.IsSegmented) :
    weight (slashed ((standing (Path.parts q.text)).map Text.encode)) ≤
      weight (slashed ((standing (Path.parts p.text)).map Text.encode)) := by
  obtain ⟨path, hpath, hcovers⟩ := hlive
  have hne : standing (Path.parts p.text) ≠ [] := by
    intro hnone
    have hall := isCatchAll_of_standing hp hpsegs hnone
    rw [hnarrower.not_isCatchAll] at hall
    cases hall
  have hrooted := Path.rooted_standing hpsegs.slash_not_mem hne
    (Path.isCanonical_iff_rooted.mp hpath)
    ((covers_iff_of_segmented hp hpsegs hpath.absolute).mp hcovers)
  have hown := Path.isCanonical_iff_rooted.mpr hrooted
  have htexts := Path.texts_pathText hne fun seg hseg =>
    hpsegs.slash_not_mem seg (List.mem_of_mem_filter hseg)
  have hcovered := hnarrower.within _ hown (by
    rw [covers_iff_of_segmented hp hpsegs hown.absolute, htexts]
    exact pathSpells_standing _)
  rw [covers_iff_of_segmented hq hqsegs hown.absolute, htexts] at hcovered
  exact hcovered.weight_le

end Narrower

/-- A pattern that covers some path and is narrower than another one leads it. Only
with wildcards of its own, and not to the pattern for everything, can it come
second: with more wildcards, or with as many and a text that is shorter or comes
later. Between two patterns of segments its text is never shorter. -/
theorem leads_of_narrower (hp : compile .exact first = .ok p) (hq : compile .exact second = .ok q)
    (hlive : p.Live) (hnarrower : p.Narrower q) :
    p.Leads q ∨ p.wildcards ≠ {} ∧ q.isCatchAll = false ∧ p.Handicap q := by
  have hcatchAll := hnarrower.not_isCatchAll
  by_cases hall : q.isCatchAll = true
  · exact Or.inl (.of_precedence (precedence_of_isCatchAll hcatchAll hall))
  rw [Bool.not_eq_true] at hall
  by_cases hwildless : p.wildcards = {}
  · exact Or.inl (.of_precedence
      (precedence_of_fewer hcatchAll (hnarrower.fewer_of_wildless hlive hwildless hq)))
  rcases Wildcards.fewer_trichotomy p.wildcards q.wildcards with hfewer | hsame | hmore
  · exact Or.inl (.of_precedence (precedence_of_fewer hcatchAll hfewer))
  · rcases Nat.lt_trichotomy p.text.utf8ByteSize q.text.utf8ByteSize with
      hshorter | hequal | hlonger
    · refine Or.inr ⟨hwildless, hall, .shorterText hsame hshorter ?_⟩
      intro hboth
      obtain ⟨hpsegs, hqsegs⟩ := hboth
      have hweight := hnarrower.weight_le hlive hp hq hpsegs hqsegs
      rw [utf8ByteSize_text hp hpsegs, utf8ByteSize_text hq hqsegs, hsame] at hshorter
      omega
    · rcases hnarrower.leads_or_behind hp hq hall hsame hequal with hleads | hbehind
      · exact Or.inl hleads
      · exact Or.inr ⟨hwildless, hall, .laterText hsame hequal hbehind⟩
    · exact Or.inl (.of_precedence (precedence_of_longer hcatchAll hsame hlonger))
  · exact Or.inr ⟨hwildless, hall, .moreWildcards hmore⟩

/-! ### Single patterns -/

/-- Between segmented patterns it is enough to compare what the segments spell. -/
theorem Narrower.of_segmented (segs others : List (List Char))
    (hp : compile .exact first = .ok p) (hq : compile .exact second = .ok q)
    (hfirst : Path.parts (canonicalText first) = segs)
    (hsecond : Path.parts (canonicalText second) = others)
    (hsegs : Segmented segs) (hothers : Segmented others)
    (hwithin : ∀ texts, PathSpells segs texts → PathSpells others texts)
    (hbeyond : ∃ path, Path.IsCanonical path ∧ q.covers path = true ∧ p.covers path = false) :
    p.Narrower q := by
  rw [← Rules.text_of_compile hp] at hfirst
  rw [← Rules.text_of_compile hq] at hsecond
  subst hfirst
  subst hsecond
  refine ⟨fun path hpath hcovers => ?_, hbeyond⟩
  rw [covers_iff_of_segmented hp hsegs hpath.absolute] at hcovers
  exact (covers_iff_of_segmented hq hothers hpath.absolute).mpr (hwithin _ hcovers)

theorem pathSpells_star {last : List Char} (hlast : last ≠ anySegments) (hslash : '/' ∉ last)
    {texts : List (List UInt8)} (hspells : PathSpells [['a'], last] texts) :
    PathSpells [['a'], ['*']] texts := by
  rw [pathSpells_cons_iff (by decide)] at hspells ⊢
  obtain ⟨front, _, rfl, hfront, hspells⟩ := hspells
  rw [pathSpells_cons_iff hlast] at hspells
  obtain ⟨text, _, rfl, htext, hnil⟩ := hspells
  cases hnil
  have hrun : SegmentSpells ['*'] (text ++ []) := .run (htext.separate hslash) .nil
  rw [List.append_nil] at hrun
  exact ⟨front, [text], rfl, hfront, .segment (by decide) hrun .nil⟩

theorem narrower_star (last : List Char) (hp : compile .exact first = .ok p)
    (hq : compile .exact "/a/*" = .ok q) (hfirst : Path.parts (canonicalText first) = [['a'], last])
    (hsegs : Segmented [['a'], last]) (hlast : last ≠ anySegments) (hslash : '/' ∉ last)
    (hbeyond : ∃ path, Path.IsCanonical path ∧ q.covers path = true ∧ p.covers path = false) :
    p.Narrower q :=
  .of_segmented _ _ hp hq hfirst (by decide +kernel) hsegs (by decide +kernel)
    (fun _ => pathSpells_star hlast hslash) hbeyond

/-- A longer text makes up for a star. -/
theorem leads_of_narrower_star :
    ∃ p q, compile .exact "/a/b*" = .ok p ∧ compile .exact "/a/*" = .ok q ∧ p.Live ∧
      p.Narrower q ∧ p.wildcards = q.wildcards ∧ p.Leads q := by
  obtain ⟨p, hp⟩ : ∃ p, compile .exact "/a/b*" = .ok p := ⟨_, rfl⟩
  obtain ⟨q, hq⟩ : ∃ q, compile .exact "/a/*" = .ok q := ⟨_, rfl⟩
  have hcanonical : ∀ path ∈ ["/a/b", "/a/c"], Path.IsCanonical path := by
    simp only [List.forall_mem_cons]
    exact ⟨⟨"/a/b", by decide +kernel⟩, ⟨"/a/c", by decide +kernel⟩, by simp⟩
  have hlive : p.Live := ⟨"/a/b", hcanonical _ (by simp), by cases hp; decide +kernel⟩
  have hnarrower : p.Narrower q := by
    apply narrower_star ['b', '*'] hp hq (by decide +kernel) (by decide +kernel) (by decide)
      (by decide)
    exact ⟨"/a/c", hcanonical _ (by simp), by cases hq; decide +kernel, by cases hp; decide +kernel⟩
  have hwildcards : p.wildcards = q.wildcards := by cases hp; cases hq; decide +kernel
  refine ⟨p, q, hp, hq, hlive, hnarrower, hwildcards, ?_⟩
  rcases leads_of_narrower hp hq hlive hnarrower with hleads | ⟨_, _, hhandicap⟩
  · exact hleads
  have hlonger : q.text.utf8ByteSize < p.text.utf8ByteSize := by cases hp; cases hq; decide +kernel
  cases hhandicap with
  | moreWildcards hmore => simp [hwildcards, Wildcards.Fewer] at hmore
  | shorterText _ hshorter => omega
  | laterText _ hequal => omega

/-- A pattern that comes second although it covers fewer paths. -/
def Overtaken (narrow wide : String) : Prop :=
  ∃ p q, compile .exact narrow = .ok p ∧ compile .exact wide = .ok q ∧ p.Narrower q ∧ q.Leads p

/-- Where all else is equal, the text decides, and `*` comes before `?`. -/
theorem overtaken_sameLength : Overtaken "/a/?" "/a/*" := by
  obtain ⟨p, hp⟩ : ∃ p, compile .exact "/a/?" = .ok p := ⟨_, rfl⟩
  obtain ⟨q, hq⟩ : ∃ q, compile .exact "/a/*" = .ok q := ⟨_, rfl⟩
  refine ⟨p, q, hp, hq, ?_, .of_precedence (by cases hp; cases hq; decide +kernel)⟩
  apply narrower_star ['?'] hp hq (by decide +kernel) (by decide +kernel) (by decide) (by decide)
  exact ⟨"/a/xy", ⟨"/a/xy", by decide +kernel⟩, by cases hq; decide +kernel,
    by cases hp; decide +kernel⟩

/-- The narrower pattern may need more single wildcards. -/
theorem overtaken_single : Overtaken "/a/*b*" "/a/*" := by
  obtain ⟨p, hp⟩ : ∃ p, compile .exact "/a/*b*" = .ok p := ⟨_, rfl⟩
  obtain ⟨q, hq⟩ : ∃ q, compile .exact "/a/*" = .ok q := ⟨_, rfl⟩
  refine ⟨p, q, hp, hq, ?_, .of_precedence (by cases hp; cases hq; decide +kernel)⟩
  apply narrower_star ['*', 'b', '*'] hp hq (by decide +kernel) (by decide +kernel) (by decide)
    (by decide)
  exact ⟨"/a/x", ⟨"/a/x", by decide +kernel⟩, by cases hq; decide +kernel,
    by cases hp; decide +kernel⟩

/-- The narrower pattern may need more double wildcards. -/
theorem overtaken_double : Overtaken "/a/**/b/**" "/a/**" := by
  obtain ⟨p, hp⟩ : ∃ p, compile .exact "/a/**/b/**" = .ok p := ⟨_, rfl⟩
  obtain ⟨q, hq⟩ : ∃ q, compile .exact "/a/**" = .ok q := ⟨_, rfl⟩
  refine ⟨p, q, hp, hq, ?_, .of_precedence (by cases hp; cases hq; decide +kernel)⟩
  apply Narrower.of_segmented [['a'], anySegments, ['b'], anySegments] [['a'], anySegments] hp hq
    (by decide +kernel) (by decide +kernel) (by decide +kernel) (by decide +kernel)
  · intro texts hspells
    rw [pathSpells_cons_iff (by decide)] at hspells ⊢
    obtain ⟨front, rest, rfl, hfront, _⟩ := hspells
    refine ⟨front, rest, rfl, hfront, ?_⟩
    rw [← List.append_nil rest]
    exact .skip .nil
  · exact ⟨"/a", ⟨"/a", by decide +kernel⟩, by cases hq; decide +kernel,
      by cases hp; decide +kernel⟩

theorem spells_more_members {members : List (UInt8 × UInt8)} {text : List UInt8}
    (hspells : Shape.Spells .exact (.seq .slash (.one ⟨members, false⟩)) text)
    (more : List (UInt8 × UInt8)) :
    Shape.Spells .exact (.seq .slash (.one ⟨members ++ more, false⟩)) text := by
  cases hspells with
  | seq hslash hone =>
      cases hone with
      | one haccepts =>
          refine .seq hslash (.one ?_)
          simp only [ByteTest.accepts, ByteTest.listed, List.any_append] at haccepts ⊢
          simp_all

/-- More members make a class longer. -/
theorem overtaken_class : Overtaken "/[ab]" "/[abc]" := by
  let members : List (UInt8 × UInt8) := [(0x61, 0x61), (0x62, 0x62)]
  have hp : compile .exact "/[ab]" =
      .ok ⟨"/[ab]", .exact, .seq .slash (.one ⟨members, false⟩), none⟩ := by decide +kernel
  have hq : compile .exact "/[abc]" =
      .ok ⟨"/[abc]", .exact, .seq .slash (.one ⟨members ++ [(0x63, 0x63)], false⟩), none⟩ := by
    decide +kernel
  refine ⟨_, _, hp, hq, ⟨fun path _ hcovers => ?_, "/c", ⟨"/c", by decide +kernel⟩,
    by decide +kernel, by decide +kernel⟩, .of_precedence (by decide +kernel)⟩
  have hspells : Shape.Spells .exact (.seq .slash (.one ⟨members, false⟩)) (Text.bytes path) := by
    rw [← Shape.covers_iff]
    simpa [covers, isCatchAll] using hcovers
  simpa [covers, isCatchAll] using (Shape.covers_iff _ _ _).mpr (spells_more_members hspells _)

/-- No canonical path has a dot for a segment, so nothing is covered. -/
theorem overtaken_dead : Overtaken "/." "/bb" := by
  obtain ⟨p, hp⟩ : ∃ p, compile .exact "/." = .ok p := ⟨_, rfl⟩
  obtain ⟨q, hq⟩ : ∃ q, compile .exact "/bb" = .ok q := ⟨_, rfl⟩
  refine ⟨p, q, hp, hq, ⟨fun path hpath hcovers => ?_, "/bb", ⟨"/bb", by decide +kernel⟩,
    by cases hq; decide +kernel, by cases hp; decide +kernel⟩,
    .of_precedence (by cases hp; cases hq; decide +kernel)⟩
  have hdot : path = "/." := eq_of_covers_of_wildless hp (by cases hp; decide +kernel) hcovers
    (by cases hp; decide +kernel)
  have hresolved := (Path.isCanonical_iff_rooted.mp hpath).render_resolve
  rw [hdot] at hresolved
  exact absurd hresolved (by decide +kernel)

/-- The order of preference is not that of the covered paths. -/
theorem narrower_overtaken :
    Overtaken "/a/?" "/a/*" ∧ Overtaken "/a/*b*" "/a/*" ∧ Overtaken "/a/**/b/**" "/a/**" ∧
      Overtaken "/[ab]" "/[abc]" ∧ Overtaken "/." "/bb" :=
  ⟨overtaken_sameLength, overtaken_single, overtaken_double, overtaken_class, overtaken_dead⟩

end Pattern

end RouteGuard
