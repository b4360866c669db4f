import RouteGuard.Proofs.Glob.Refusal
import RouteGuard.Proofs.Text.Trim

/-! # Everything below a pattern

With `/**` behind it a pattern covers what its text covers as a glob, and what
goes on below that. It need not cover what the pattern itself does: of two
endings only one is taken off, so the bare part of the pattern is lost.
-/

namespace RouteGuard

open Glob

namespace Glob

variable {mode : CaseMode} {text : List UInt8} {cs front : List Char} {pieces out : List Piece}
  {groups : List OpenGroup} {c : Char} {p q : Piece} {s below : Shape}

/-! ### Expressions from the root -/

/-- The pieces whose texts all begin with a slash. -/
def Piece.Slashed (p : Piece) : Prop :=
  p = .char '/' ∨ p = .innerSegments ∨ p = .trailingSegments

/-- The texts of such a piece begin with a slash. -/
theorem Piece.Slashed.exists_of_spells (hp : p.Slashed) (hspells : Shape.Spells mode p.shape text) :
    ∃ rest, text = 0x2F :: rest := by
  rcases hp with rfl | rfl | rfl
  · have hslash : text = [0x2F] := spells_slash_iff.mp hspells
    exact ⟨[], hslash⟩
  · cases hspells with
    | left hslash => exact ⟨[], spells_slash_iff.mp hslash⟩
    | right hmore =>
        cases hmore with
        | @seq _ _ slash rest hslash _ =>
            rw [spells_slash_iff.mp hslash]
            exact ⟨rest, rfl⟩
  · exact spells_rest_iff.mp hspells

namespace Reader

variable {r next : Reader}

/-- The outermost branch begins with a slash. The branches of open groups stand
behind it. -/
def Rooted : List OpenGroup → List Piece → Prop
  | [], pieces => ∃ p, pieces.getLast? = some p ∧ p.Slashed
  | g :: outer, _ => Rooted outer g.before

theorem Rooted.cons (hrooted : Rooted groups pieces) (p : Piece) : Rooted groups (p :: pieces) := by
  cases groups with
  | nil =>
      obtain ⟨first, hfirst, hslashed⟩ := hrooted
      exact ⟨first, by rw [List.getLast?_cons, hfirst]; rfl, hslashed⟩
  | cons g outer => exact hrooted

theorem Rooted.replace (hrooted : Rooted groups (q :: pieces)) (hp : p.Slashed) :
    Rooted groups (p :: pieces) := by
  cases groups with
  | nil =>
      obtain ⟨first, hfirst, hslashed⟩ := hrooted
      cases pieces with
      | nil => exact ⟨p, rfl, hp⟩
      | cons top rest => exact ⟨first, hfirst, hslashed⟩
  | cons g outer => exact hrooted

theorem Rooted.pushSegments (hrooted : Rooted r.groups r.pieces) (hp : p.Slashed) :
    Rooted (r.pushSegments p).groups (r.pushSegments p).pieces := by
  unfold Reader.pushSegments
  split
  · exact hrooted
  · exact hrooted
  next hpieces => exact (hpieces ▸ hrooted).replace hp
  next hpieces => exact hrooted.cons p

/-- Settling a run of stars leaves the slash in front. -/
theorem Rooted.settle (hrooted : Rooted r.groups r.pieces) (before follower : Option Char) :
    Rooted (r.settle before follower).1.groups (r.settle before follower).1.pieces := by
  have hsettled := r.settled before follower
  generalize r.settle before follower = result at hsettled
  cases hsettled with
  | runs => exact (hrooted.cons .anyRun).cons .anyRun
  | leading => exact hrooted.cons .leadingSegments
  | segments _ hp => exact hrooted.pushSegments (Or.inr hp.symm)

theorem Rooted.readPlain (hrooted : Rooted r.groups r.pieces) (hread : r.readPlain c = .ok next) :
    Rooted next.groups next.pieces := by
  unfold Reader.readPlain at hread
  split at hread
  case h_6 =>
    split at hread
    · cases hread
    next g outer hgroups =>
      cases hread
      rw [hgroups] at hrooted
      have houter : Rooted outer g.before := hrooted
      exact houter.cons _
  case h_7 =>
    split at hread
    · cases hread
      exact hrooted.cons _
    next g outer hgroups =>
      cases hread
      rw [hgroups] at hrooted
      exact hrooted
  all_goals
    cases hread
    first | exact hrooted | exact hrooted.cons _

theorem Rooted.readClass {k : OpenClass} (hrooted : Rooted r.groups r.pieces)
    (hread : r.readClass k c = .ok next) : Rooted next.groups next.pieces := by
  unfold Reader.readClass at hread
  split at hread
  · cases hread
    exact hrooted.cons _
  · split at hread
    · cases hread
      exact hrooted
    · obtain ⟨added, _, rfl⟩ := map_eq_ok_iff.mp hread
      exact hrooted

/-- No character takes the first slash away. -/
theorem Rooted.read (hrooted : Rooted r.groups r.pieces) (hread : r.read c = .ok next) :
    Rooted next.groups next.pieces := by
  obtain ⟨mid, hmid, rfl⟩ := map_eq_ok_iff.mp hread
  change Rooted mid.groups mid.pieces
  cases hmode : r.mode with
  | plain =>
      simp only [hmode] at hmid
      exact hrooted.readPlain hmid
  | escaped =>
      simp only [hmode] at hmid
      cases hmid
      exact hrooted.cons _
  | star before =>
      simp only [hmode] at hmid
      split at hmid
      · cases hmid
        exact hrooted
      · exact Rooted.readPlain (r := r.push .anyRun) (hrooted.cons _) hmid
  | stars before =>
      have hsettle := hrooted.settle before (some c)
      simp only [hmode] at hmid
      split at hmid
      next settled heq =>
        cases hmid
        rwa [heq] at hsettle
      next settled heq =>
        rw [heq] at hsettle
        exact hsettle.readPlain hmid
  | classOpen =>
      simp only [hmode] at hmid
      split at hmid
      · cases hmid
        exact hrooted
      · exact hrooted.readClass hmid
  | inClass k =>
      simp only [hmode] at hmid
      exact hrooted.readClass hmid

/-- Reading on leaves the slash in front. -/
theorem Rooted.foldlM (hrooted : Rooted r.groups r.pieces)
    (hread : cs.foldlM Reader.read r = .ok next) : Rooted next.groups next.pieces := by
  induction cs generalizing r with
  | nil =>
      cases hread
      exact hrooted
  | cons c cs ih =>
      rw [← List.singleton_append, foldlM_read_append_iff, foldlM_read_singleton] at hread
      obtain ⟨mid, hmid, hrest⟩ := hread
      exact ih (hrooted.read hmid) hrest

theorem Rooted.ended (hrooted : Rooted r.groups r.pieces) (hended : Ended r out) :
    Rooted r.groups out := by
  cases hended with
  | plain => exact hrooted
  | star => exact hrooted.cons _
  | @stars before hmode =>
      obtain ⟨pieces, taken, hsettle, _⟩ := r.exists_settle before none
      have hrooted := hrooted.settle before none
      rw [hsettle] at hrooted ⊢
      exact hrooted

/-- What is read from a slash on begins with a slash. -/
theorem After.rooted (hr : After ('/' :: cs) r) : Rooted r.groups r.pieces := by
  have hfirst : Reader.read {} '/' = .ok { pieces := [.char '/'], last := some '/' } := rfl
  rw [After, ← List.singleton_append, foldlM_read_append_iff, foldlM_read_singleton, hfirst] at hr
  obtain ⟨mid, hmid, hrest⟩ := hr
  cases hmid
  exact Rooted.foldlM (r := { pieces := [.char '/'], last := some '/' }) ⟨_, rfl, Or.inl rfl⟩ hrest

/-- An expression that starts with a slash is read as one. -/
theorem rooted_of_readAll (hread : Reader.readAll {} ('/' :: cs) = .ok out) : Rooted [] out := by
  obtain ⟨last, hlast, hfinish⟩ := readAll_eq_ok_iff.mp hread
  obtain ⟨hgroups, hended⟩ := finish_eq_ok_iff.mp hfinish
  have hrooted := (After.rooted hlast).ended hended
  rwa [hgroups] at hrooted

/-! ### A slash and two stars behind the end -/

/-- Behind two stars that stand between a slash and the end they add nothing. -/
theorem readAll_below_of_stars (hgroups : r.groups = []) (hne : r.pieces ≠ [])
    (hmode : r.mode = .stars (some '/')) : r.readAll ('/' :: anySegments) = r.finish := by
  obtain ⟨pieces, groups, last, mode⟩ := r
  subst hgroups hmode
  cases pieces with
  | nil => exact absurd rfl hne
  | cons top rest => cases top <;> rfl

/-- The slash is read behind what would be there at the end. -/
theorem Ended.read_slash (hended : Ended r out) (hgroups : r.groups = []) (hne : r.pieces ≠ [])
    (hmode : r.mode ≠ .stars (some '/')) :
    r.read '/' = .ok { pieces := .char '/' :: out, last := some '/' } := by
  obtain ⟨pieces, groups, last, mode⟩ := r
  subst hgroups
  cases hended with
  | plain hplain =>
      subst hplain
      rfl
  | star hstar =>
      subst hstar
      rfl
  | @stars before hstars =>
      subst hstars
      have hbefore : before ≠ some '/' := fun hslash => hmode (congrArg Mode.stars hslash)
      have hruns : ∀ follower, settle ⟨pieces, [], last, .stars before⟩ before follower =
          (⟨.anyRun :: .anyRun :: pieces, [], last, .plain⟩, false) := by
        intro follower
        simp only [settle, if_neg hne, hbefore, ne_eq, not_true_eq_false, false_and, or_self,
          if_false]
        rfl
      simp only [read, hruns]
      rfl

theorem Ended.readAll_below (hended : Ended r out) (hgroups : r.groups = []) (hne : r.pieces ≠ [])
    (hmode : r.mode ≠ .stars (some '/')) :
    r.readAll ('/' :: anySegments) = .ok (.trailingSegments :: out) := by
  rw [readAll_cons (hended.read_slash hgroups hne hmode)]
  exact readAll_trailing

theorem readAll_append {cs rest : List Char} (hr : After cs r) :
    Reader.readAll {} (cs ++ rest) = r.readAll rest := by
  rw [Reader.readAll, List.foldlM_append, hr]
  rfl

end Reader

/-- A rooted expression is read as the branch of its pieces. -/
theorem parse_rooted_iff : parse ('/' :: cs) = .ok s ↔
    ∃ out, Reader.readAll {} ('/' :: cs) = .ok out ∧ s = branchShape out := by
  rw [parse_eq_readAll]
  cases hread : Reader.readAll {} ('/' :: cs) with
  | error fault => simp [Except.bind]
  | ok out =>
      obtain ⟨p, hlast, hslashed⟩ := Reader.rooted_of_readAll hread
      have hne : out ≠ [.leadingSegments] := by
        rintro rfl
        obtain rfl : .leadingSegments = p := Option.some.inj hlast
        simp [Piece.Slashed] at hslashed
      simp [Except.bind, hne, eq_comm]

theorem branchShape_eq_rowShape (pieces : List Piece) :
    branchShape pieces = rowShape pieces.reverse := by
  rw [branchShape, rowShape, List.foldr_reverse]

/-- An expression that starts with a slash spells texts that do. -/
theorem exists_slash_of_spells (hparse : parse ('/' :: cs) = .ok s)
    (hspells : Shape.Spells mode s text) : ∃ rest, text = 0x2F :: rest := by
  obtain ⟨out, hread, rfl⟩ := parse_rooted_iff.mp hparse
  obtain ⟨p, hlast, hslashed⟩ := Reader.rooted_of_readAll hread
  obtain ⟨rest, hrest⟩ := List.getLast?_eq_some_iff.mp hlast
  rw [branchShape_eq_rowShape, hrest, List.reverse_append, List.reverse_singleton,
    List.singleton_append, spells_row_cons_iff] at hspells
  obtain ⟨first, second, rfl, hfirst, _⟩ := hspells
  obtain ⟨more, rfl⟩ := hslashed.exists_of_spells hfirst
  exact ⟨_, rfl⟩

/-! ### Expressions with any segments at the end -/

/-- The text has a slash and two stars at its end. -/
def EndsBelow (cs : List Char) : Prop := ∃ front, cs = front ++ '/' :: anySegments

/-- Where the text ends so already, once more adds nothing. -/
theorem parse_below_of_endsBelow (hends : EndsBelow cs) (hparse : parse cs = .ok s) :
    parse (cs ++ '/' :: anySegments) = .ok s := by
  obtain ⟨out, hread⟩ := exists_parse_iff.mp ⟨s, hparse⟩
  obtain ⟨last, hlast, hfinish⟩ := Reader.readAll_eq_ok_iff.mp hread
  obtain ⟨front, rfl⟩ := hends
  obtain ⟨mid, hmid, hrest⟩ := Reader.foldlM_read_append_iff.mp hlast
  obtain ⟨hclass, hgroups⟩ :=
    Reader.closed_of_readAll_below (Reader.readAll_eq_ok_iff.mpr ⟨last, hrest, hfinish⟩)
  obtain ⟨pieces, hne, hbelow⟩ := mid.exists_foldlM_below hclass
  obtain rfl := Except.ok.inj (hbelow.symm.trans hrest)
  have hsame : Reader.readAll {} ((front ++ '/' :: anySegments) ++ '/' :: anySegments) =
      Reader.readAll {} (front ++ '/' :: anySegments) := by
    rw [Reader.readAll_append hlast, hread, ← hfinish]
    exact Reader.readAll_below_of_stars (r := ⟨pieces, mid.groups, _, _⟩) hgroups hne rfl
  rw [parse_eq_readAll, hsame, ← parse_eq_readAll, hparse]

/-- Else it covers what goes on below a text of the expression. -/
theorem exists_parse_below (hends : ¬ EndsBelow ('/' :: cs)) (hparse : parse ('/' :: cs) = .ok s) :
    ∃ below, parse (('/' :: cs) ++ '/' :: anySegments) = .ok below ∧
      ∀ mode text, Shape.Spells mode below text ↔
        ∃ top rest, text = top ++ 0x2F :: rest ∧ Shape.Spells mode s top := by
  obtain ⟨out, hread, rfl⟩ := parse_rooted_iff.mp hparse
  obtain ⟨last, hlast, hfinish⟩ := Reader.readAll_eq_ok_iff.mp hread
  obtain ⟨hgroups, hended⟩ := Reader.finish_eq_ok_iff.mp hfinish
  have hclass : ¬ last.InClass := by
    intro hopen
    rw [hopen.finish] at hfinish
    cases hfinish
  have hne : last.pieces ≠ [] := by
    have hrooted := Reader.After.rooted hlast
    intro hnil
    rw [hgroups, hnil] at hrooted
    obtain ⟨p, hp, _⟩ := hrooted
    cases hp
  have hmode : last.mode ≠ .stars (some '/') :=
    fun hstars => hends ((Reader.After.mode_eq_stars_iff hlast hclass).mp hstars)
  have hbelow : Reader.readAll {} (('/' :: cs) ++ '/' :: anySegments) =
      .ok (.trailingSegments :: out) := by
    rw [Reader.readAll_append hlast, hended.readAll_below hgroups hne hmode]
  refine ⟨_, parse_rooted_iff.mpr ⟨_, hbelow, rfl⟩, fun mode text => ?_⟩
  have htrailing : ∀ bs, Shape.Spells mode (rowShape [.trailingSegments]) bs ↔
      Shape.Spells mode Piece.trailingSegments.shape bs := fun bs => Iff.rfl
  rw [branchShape_eq_rowShape, branchShape_eq_rowShape, List.reverse_cons, spells_row_append_iff]
  simp only [htrailing, spells_rest_iff]
  constructor
  · rintro ⟨top, _, rfl, htop, rest, rfl⟩
    exact ⟨top, rest, rfl, htop⟩
  · rintro ⟨top, rest, rfl, htop⟩
    exact ⟨top, _, rfl, htop, rest, rfl⟩

/-- What goes on below a text of a shape is no text of it if every text of it goes
on below another. -/
theorem covers_eq_false_of_below
    (hbelow : ∀ path, s.covers mode (Text.bytes path) = true →
      ∃ top rest, Text.bytes path = top ++ 0x2F :: rest ∧ Shape.Spells mode s top) (path : String) :
    s.covers mode (Text.bytes path) = false := by
  -- a shortest path would go on below a shorter one
  induction hlength : (Text.bytes path).length using Nat.strong_induction_on generalizing path with
  | _ n ih =>
    subst hlength
    rw [Bool.eq_false_iff]
    intro hcovers
    obtain ⟨top, rest, hbytes, htop⟩ := hbelow path hcovers
    obtain ⟨front, _, _, hfront, _⟩ :=
      Text.exists_split_of_encode (c := '/') (by decide) hbytes
    have hshorter : Text.bytes (String.ofList front) = top := by
      rw [Text.bytes, String.toList_ofList, hfront]
    have hnone := ih top.length (by simp [hbytes]) (String.ofList front) (by rw [hshorter])
    rw [hshorter, (Shape.covers_iff mode s top).mpr htop] at hnone
    cases hnone

end Glob

namespace Pattern

variable {mode : CaseMode} {base path : String} {p q : Pattern} {s : Shape}

theorem toList_append_below (base : String) :
    (base ++ "/**").toList = base.toList ++ '/' :: anySegments := by
  rw [String.toList_append]
  rfl

/-- A rooted text stays canonical when `/**` is put behind it. -/
theorem canonicalText_append_below (hbase : Path.Absolute base) :
    canonicalText (base ++ "/**") = base ++ "/**" := by
  obtain ⟨rest, hrest⟩ := hbase
  have htrimmed : Text.trimChars (base ++ "/**").toList = (base ++ "/**").toList := by
    rw [toList_append_below]
    apply Text.trimChars_eq_self
    · intro c more hcs
      rw [hrest] at hcs
      cases hcs
      decide
    · intro c more hcs
      rw [List.reverse_append] at hcs
      cases hcs
      decide
  have hslash : (base ++ "/**").toList.head? = some '/' := by
    rw [toList_append_below, hrest]
    rfl
  rw [canonicalText, htrimmed, if_pos hslash, String.ofList_toList]

/-- A catch-all covers every path, and any other pattern what its whole or its bare glob covers. -/
theorem covers_iff : p.covers path = true ↔
    p.isCatchAll = true ∨ p.whole.covers p.mode (Text.bytes path) = true ∨
      ∃ bare, p.bare = some bare ∧ bare.covers p.mode (Text.bytes path) = true := by
  simp [covers, Option.any_eq_true, or_assoc]

theorem mapM_readGlob_some_iff {cs : List Char} {bares : Option Shape} :
    (some cs).mapM readGlob = .ok bares ↔ ∃ bare, parse cs = .ok bare ∧ bares = some bare := by
  rw [Option.mapM_some]
  refine map_eq_ok_iff.trans ?_
  simp only [readGlob_eq_ok_iff, @eq_comm _ bares]

/-- Before the ending of a canonical text stands a slash, if anything does. -/
theorem exists_slash_of_bareText? {front : List Char} (hbase : Path.Absolute base)
    (hfront : bareText? base.toList = some front) :
    ∃ cs, front = '/' :: cs ∧ base.toList = ('/' :: cs) ++ '/' :: anySegments := by
  obtain ⟨rest, hrest⟩ := hbase
  obtain ⟨hne, hends⟩ := bareText?_eq_some_iff.mp hfront
  obtain ⟨c, cs, rfl⟩ := List.exists_cons_of_ne_nil hne
  obtain rfl : '/' = c := (List.cons.inj (hrest.symm.trans hends)).1
  exact ⟨cs, rfl, hends⟩

/-- The text before the ending is read as the glob that it is. -/
theorem exists_bare_of_compile_below (hbase : Path.Absolute base)
    (hq : compile mode (base ++ "/**") = .ok q) :
    ∃ bare, parse base.toList = .ok bare ∧
      parse (base.toList ++ '/' :: anySegments) = .ok q.whole ∧
      ∀ path, q.covers path = true ↔ q.whole.covers mode (Text.bytes path) = true ∨
        bare.covers mode (Text.bytes path) = true := by
  obtain ⟨rest, hrest⟩ := hbase
  have hbare : bareText? (base ++ "/**").toList = some base.toList :=
    bareText?_eq_some_iff.mpr ⟨by simp [hrest], toList_append_below base⟩
  have hcatchAll : (base ++ "/**" == "/**") = false := by
    rw [beq_eq_false_iff_ne]
    intro hsame
    have hlength := congrArg (fun text => text.toList.length) hsame
    simp [hrest] at hlength
  rw [compile_eq_ok_iff, canonicalText_append_below ⟨rest, hrest⟩, hbare] at hq
  obtain ⟨whole, bares, hwhole, hbares, rfl⟩ := hq
  rw [readGlob_eq_ok_iff, toList_append_below] at hwhole
  obtain ⟨bare, hread, rfl⟩ := mapM_readGlob_some_iff.mp hbares
  refine ⟨bare, hread, hwhole, fun path => ?_⟩
  simp [covers_iff, isCatchAll, hcatchAll]

/-- The pattern for everything is a glob for every path too. -/
theorem covers_of_parse_below (hparse : parse ('/' :: anySegments) = .ok s)
    (hpath : Path.Absolute path) : s.covers mode (Text.bytes path) = true := by
  obtain rfl : branchShape [.trailingSegments] = s := Except.ok.inj hparse
  rw [Shape.covers_iff]
  exact spells_rest_iff.mpr (Path.absolute_iff_bytes.mp hpath)

/-- A base ends below a double wildcard if it ends in two of them. -/
theorem endsBelow_iff {first : List Char} (hends : base.toList = first ++ '/' :: anySegments) :
    EndsBelow first ↔ ∃ first, base = first ++ "/**/**" := by
  have htext : ∀ front : String,
      base = front ++ "/**/**" ↔ first = front.toList ++ '/' :: anySegments := by
    intro front
    have hmore : ("/**/**" : String).toList = ('/' :: anySegments) ++ '/' :: anySegments := rfl
    rw [← String.toList_inj, hends, String.toList_append, hmore, ← List.append_assoc,
      List.append_cancel_right_eq]
  simp only [htext]
  constructor
  · rintro ⟨front, rfl⟩
    exact ⟨String.ofList front, by rw [String.toList_ofList]⟩
  · rintro ⟨front, rfl⟩
    exact ⟨_, rfl⟩

/-- The part before the ending is covered with it only if it has that ending too,
or covers nothing. -/
theorem covers_bare_iff {cs : List Char} {bare whole : Shape} (hbare : parse ('/' :: cs) = .ok bare)
    (hwhole : parse (('/' :: cs) ++ '/' :: anySegments) = .ok whole) :
    (∀ path, Path.Absolute path → bare.covers mode (Text.bytes path) = true →
        whole.covers mode (Text.bytes path) = true) ↔
      EndsBelow ('/' :: cs) ∨ ∀ path, bare.covers mode (Text.bytes path) = false := by
  by_cases hends : EndsBelow ('/' :: cs)
  · obtain rfl : bare = whole :=
      Except.ok.inj ((parse_below_of_endsBelow hends hbare).symm.trans hwhole)
    exact iff_of_true (fun _ _ hcovers => hcovers) (Or.inl hends)
  · obtain ⟨below, hbelow, hspells⟩ := exists_parse_below hends hbare
    obtain rfl : below = whole := Except.ok.inj (hbelow.symm.trans hwhole)
    simp only [hends, false_or]
    constructor
    · intro hall path
      refine covers_eq_false_of_below (fun path hcovers => ?_) path
      have hslash := exists_slash_of_spells hbare ((Shape.covers_iff mode bare _).mp hcovers)
      have hwhole := hall path (Path.absolute_iff_bytes.mpr hslash) hcovers
      exact (hspells mode _).mp ((Shape.covers_iff mode _ _).mp hwhole)
    · intro hnone path _ hcovers
      rw [hnone path] at hcovers
      cases hcovers

/-- The pattern for everything below covers what a pattern covers, unless that
covers a path by a bare part of its own: both parts of `/a/**/**` are the whole of
`/a/**`, and its bare part is lost. An ending that stands there twice has none to
lose. -/
theorem covers_below_iff (hcanonical : canonicalText base = base) (hp : compile mode base = .ok p)
    (hq : compile mode (base ++ "/**") = .ok q) :
    (∀ path, Path.Absolute path → p.covers path = true → q.covers path = true) ↔
      ∀ bare, p.bare = some bare →
        (∃ first, base = first ++ "/**/**") ∨
          ∀ path, bare.covers mode (Text.bytes path) = false := by
  have hbase : Path.Absolute base := hcanonical ▸ exists_canonicalText base
  obtain ⟨glob, hglob, hbelow, hq⟩ := exists_bare_of_compile_below hbase hq
  obtain ⟨whole, bares, hwhole, hbares, rfl⟩ := compile_eq_ok_iff.mp hp
  rw [hcanonical] at hwhole hbares ⊢
  obtain rfl : whole = glob := Except.ok.inj ((readGlob_eq_ok_iff.mp hwhole).symm.trans hglob)
  simp only [hq, covers_iff, isCatchAll]
  cases hfront : bareText? base.toList with
  | none =>
      obtain rfl : none = bares := by
        rw [hfront] at hbares
        exact Except.ok.inj hbares
      refine iff_of_true ?_ ?_
      · rintro path hpath (hall | hcovers | ⟨_, ⟨⟩, _⟩)
        · obtain rfl : base = "/**" := beq_iff_eq.mp hall
          exact Or.inr (covers_of_parse_below hglob hpath)
        · exact Or.inr hcovers
      · rintro bare ⟨⟩
  | some front =>
      obtain ⟨cs, rfl, hends⟩ := exists_slash_of_bareText? hbase hfront
      have hnotAll : (base == "/**") = false := by
        rw [beq_eq_false_iff_ne]
        rintro rfl
        cases hfront
      rw [hfront, mapM_readGlob_some_iff] at hbares
      obtain ⟨bare, hbare, rfl⟩ := hbares
      have hagain := parse_below_of_endsBelow ⟨_, hends⟩ hglob
      obtain rfl : q.whole = whole := Except.ok.inj (hbelow.symm.trans hagain)
      rw [hends] at hglob
      simp only [hnotAll, Bool.false_eq_true, false_or, or_self, Option.some.injEq, forall_eq',
        exists_eq_left', ← endsBelow_iff hends, ← covers_bare_iff hbare hglob]
      exact ⟨fun hall path hpath hcovers => hall path hpath (Or.inr hcovers),
        fun hall path hpath hcovers => hcovers.elim id (hall path hpath)⟩

/-- `/a/**` covers `/a` by its bare part, and `/a/**/**` does not. -/
theorem covers_below_iff_stars :
    ∃ p q, canonicalText "/a/**" = "/a/**" ∧ compile .exact "/a/**" = .ok p ∧
      compile .exact ("/a/**" ++ "/**") = .ok q ∧
      p.covers "/a" = true ∧ q.covers "/a" = false ∧
      ¬ ∀ bare, p.bare = some bare →
        (∃ first, "/a/**" = first ++ "/**/**") ∨
          ∀ path, bare.covers .exact (Text.bytes path) = false := by
  have hcanonical : canonicalText "/a/**" = "/a/**" := by decide
  refine ⟨_, _, hcanonical, rfl, rfl, by decide, by decide, ?_⟩
  rw [← covers_below_iff hcanonical rfl rfl]
  intro hall
  exact absurd (hall "/a" ⟨_, rfl⟩ (by decide)) (by decide)

end Pattern

end RouteGuard
