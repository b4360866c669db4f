import RouteGuard.Proofs.Glob.SegmentReading
import RouteGuard.Proofs.Path.Canonical

/-! # What patterns of segments cover

A pattern of simple segments is compared with a path segment by segment. Two
stars take any number of whole segments, and every other segment takes one: in it
a star stands for any run of bytes and a question mark for one byte.
-/

namespace RouteGuard.Glob

open Shape (Spells)

/-- The bytes of a segment that a simple segment of a pattern stands for. -/
inductive SegmentSpells : List Char → List UInt8 → Prop
  | nil : SegmentSpells [] []
  | run {seg : List Char} {skipped text : List UInt8} (hskipped : 0x2F ∉ skipped)
    (hrest : SegmentSpells seg text) : SegmentSpells ('*' :: seg) (skipped ++ text)
  | byte {seg : List Char} {b : UInt8} {text : List UInt8} (hb : b ≠ 0x2F)
    (hrest : SegmentSpells seg text) : SegmentSpells ('?' :: seg) (b :: text)
  | char {c : Char} {seg : List Char} {text : List UInt8} (hc : c ∉ ['*', '?'])
    (hrest : SegmentSpells seg text) :
    SegmentSpells (c :: seg) (String.utf8EncodeChar c ++ text)

/-- The segments of a path that the segments of a pattern stand for. -/
inductive PathSpells : List (List Char) → List (List UInt8) → Prop
  | nil : PathSpells [] []
  | skip {segs : List (List Char)} {skipped texts : List (List UInt8)}
    (hrest : PathSpells segs texts) : PathSpells (anySegments :: segs) (skipped ++ texts)
  | segment {seg : List Char} {segs : List (List Char)} {text : List UInt8}
    {texts : List (List UInt8)} (hseg : seg ≠ anySegments) (hfirst : SegmentSpells seg text)
    (hrest : PathSpells segs texts) : PathSpells (seg :: segs) (text :: texts)

/-- The bytes of a path, each segment behind its slash. -/
def slashed (texts : List (List UInt8)) : List UInt8 := texts.flatMap (0x2F :: ·)

/-- The segments are those of some path: they hold no slash. -/
def Separate (texts : List (List UInt8)) : Prop := ∀ text ∈ texts, 0x2F ∉ text

/-! ### Bytes with slashes -/

theorem slashed_cons (text : List UInt8) (texts : List (List UInt8)) :
    slashed (text :: texts) = 0x2F :: (text ++ slashed texts) := rfl

theorem slashed_append (texts others : List (List UInt8)) :
    slashed (texts ++ others) = slashed texts ++ slashed others := List.flatMap_append

theorem slashed_eq_nil_iff {texts : List (List UInt8)} : slashed texts = [] ↔ texts = [] := by
  cases texts <;> simp [slashed]

/-- Behind a slash come segments. -/
theorem exists_slashed (bs : List UInt8) :
    ∃ text texts, Separate (text :: texts) ∧ 0x2F :: bs = slashed (text :: texts) := by
  induction bs with
  | nil => exact ⟨[], [], by simp [Separate], rfl⟩
  | cons b bs ih =>
      obtain ⟨text, texts, hseparate, hbs⟩ := ih
      by_cases hb : b = 0x2F
      · exact ⟨[], text :: texts, List.forall_mem_cons.mpr ⟨List.not_mem_nil, hseparate⟩,
          by rw [hb, hbs]; rfl⟩
      · obtain ⟨htext, htexts⟩ := List.forall_mem_cons.mp hseparate
        refine ⟨b :: text, texts, List.forall_mem_cons.mpr ⟨?_, htexts⟩, ?_⟩
        · rw [List.mem_cons, not_or]
          exact ⟨Ne.symm hb, htext⟩
        · rw [slashed_cons] at hbs ⊢
          rw [(List.cons.inj hbs).2, List.cons_append]

theorem takeWhile_append_slashed {text : List UInt8} (htext : 0x2F ∉ text)
    (texts : List (List UInt8)) : (text ++ slashed texts).takeWhile (· != 0x2F) = text := by
  have hkept : ∀ b ∈ text, (b != 0x2F) = true := by
    intro b hb
    rw [bne_iff_ne]
    rintro rfl
    exact htext hb
  have hstop : (slashed texts).takeWhile (· != 0x2F) = [] := by
    cases texts <;> rfl
  rw [List.takeWhile_append_of_pos hkept, hstop, List.append_nil]

/-- Segments without slashes are told apart again. -/
theorem slashed_injective {texts others : List (List UInt8)} (htexts : Separate texts)
    (hothers : Separate others) (hsame : slashed texts = slashed others) : texts = others := by
  induction texts generalizing others with
  | nil => exact (slashed_eq_nil_iff.mp hsame.symm).symm
  | cons text texts ih =>
      cases others with
      | nil => exact absurd (slashed_eq_nil_iff.mp hsame) (List.cons_ne_nil text texts)
      | cons other others =>
          rw [Separate, List.forall_mem_cons] at htexts hothers
          rw [slashed_cons, slashed_cons] at hsame
          have hrest := (List.cons.inj hsame).2
          have hfirst := congrArg (List.takeWhile (· != 0x2F)) hrest
          rw [takeWhile_append_slashed htexts.1, takeWhile_append_slashed hothers.1] at hfirst
          subst hfirst
          rw [ih htexts.2 hothers.2 (List.append_cancel_left hrest)]

/-! ### Rows of pieces -/

variable {mode : CaseMode} {text : List UInt8} {pieces others : List Piece}

theorem ByteTest.accepts_notSlash_iff (b : UInt8) :
    notSlash.accepts .exact b = true ↔ b ≠ 0x2F := by
  rw [accepts_notSlash, Bool.not_eq_true', ← Bool.not_eq_true, ByteTest.accepts_only_iff]
  rfl

theorem spells_row_cons_iff {p : Piece} : Spells mode (rowShape (p :: pieces)) text ↔
    ∃ first second, text = first ++ second ∧ Spells mode p.shape first ∧
      Spells mode (rowShape pieces) second :=
  Shape.spells_andThen_iff

/-- Two rows in sequence spell a text of the one and then a text of the other. -/
theorem spells_row_append_iff : Spells mode (rowShape (pieces ++ others)) text ↔
    ∃ first second, text = first ++ second ∧ Spells mode (rowShape pieces) first ∧
      Spells mode (rowShape others) second := by
  induction pieces generalizing text with
  | nil => simp [rowShape, Shape.spells_blank_iff]
  | cons p pieces ih =>
      simp only [List.cons_append, spells_row_cons_iff, ih]
      constructor
      · rintro ⟨first, _, rfl, hfirst, second, third, rfl, hsecond, hthird⟩
        exact ⟨first ++ second, third, by simp, ⟨first, second, rfl, hfirst, hsecond⟩, hthird⟩
      · rintro ⟨_, third, rfl, ⟨first, second, rfl, hfirst, hsecond⟩, hthird⟩
        exact ⟨first, second ++ third, by simp, hfirst, second, third, rfl, hsecond, hthird⟩

theorem spells_char_iff {c : Char} :
    Spells .exact (Piece.char c).shape text ↔ text = String.utf8EncodeChar c := by
  have hword := @Shape.spells_word_iff .exact (String.utf8EncodeChar c) text
  simp only [CaseMode.fold, List.map_id] at hword
  exact hword

/-- A `?` spells any byte but the slash. -/
theorem spells_anyByte_iff :
    Spells .exact Piece.anyByte.shape text ↔ ∃ b, text = [b] ∧ b ≠ 0x2F := by
  simp only [Piece.shape, Shape.spells_one_iff, Shape.OneOf, ByteTest.accepts_notSlash_iff]

/-- A `*` spells any bytes but slashes. -/
theorem spells_anyRun_iff : Spells .exact Piece.anyRun.shape text ↔ 0x2F ∉ text := by
  simp only [Piece.shape, Shape.spells_many_iff, Shape.AllOf, ByteTest.accepts_notSlash_iff]
  exact ⟨fun h hmem => h _ hmem rfl, fun h b hb hslash => h (hslash ▸ hb)⟩

theorem spells_slash_iff : Spells mode .slash text ↔ text = [0x2F] := by
  rw [Shape.slash, Shape.spells_one_iff]
  simp only [Shape.OneOf, ByteTest.accepts_only_iff]
  constructor
  · rintro ⟨b, rfl, hb⟩
    rw [eq_of_fold_eq (by decide) hb.symm]
  · exact fun htext => ⟨_, htext, rfl⟩

/-- A trailing `**` spells a slash and anything after it. -/
theorem spells_rest_iff :
    Spells mode Piece.trailingSegments.shape text ↔ ∃ rest, text = 0x2F :: rest := by
  constructor
  · intro hspells
    cases hspells with
    | @seq _ _ slash rest hslash _ =>
        rw [spells_slash_iff] at hslash
        exact ⟨rest, by rw [hslash]; rfl⟩
  · rintro ⟨rest, rfl⟩
    exact @Spells.seq _ _ _ [0x2F] _ (spells_slash_iff.mpr rfl)
      (.many fun b _ => ByteTest.accepts_all mode b)

/-- A slash and anything behind it are at least one segment. -/
theorem spells_trailing_iff : Spells .exact Piece.trailingSegments.shape text ↔
    ∃ texts, texts ≠ [] ∧ Separate texts ∧ text = slashed texts := by
  rw [spells_rest_iff]
  constructor
  · rintro ⟨rest, rfl⟩
    obtain ⟨first, texts, hseparate, hbytes⟩ := exists_slashed rest
    exact ⟨first :: texts, List.cons_ne_nil _ _, hseparate, hbytes⟩
  · rintro ⟨texts, hne, _, rfl⟩
    obtain ⟨first, texts, rfl⟩ := List.exists_cons_of_ne_nil hne
    exact ⟨_, slashed_cons first texts⟩

/-- Slashes around anything are those around any number of segments. -/
theorem spells_inner_iff : Spells .exact Piece.innerSegments.shape text ↔
    ∃ texts, Separate texts ∧ text = slashed texts ++ [0x2F] := by
  constructor
  · intro hspells
    cases hspells with
    | left hslash => exact ⟨[], by simp [Separate], spells_slash_iff.mp hslash⟩
    | right hmore =>
        cases hmore with
        | @seq _ _ slash rest hslash hrest =>
            cases hrest with
            | @seq _ _ between final _ hfinal =>
                rw [spells_slash_iff] at hslash hfinal
                obtain ⟨first, texts, hseparate, hbytes⟩ := exists_slashed between
                refine ⟨first :: texts, hseparate, ?_⟩
                rw [hslash, hfinal, ← hbytes]
                rfl
  · rintro ⟨texts, _, rfl⟩
    cases texts with
    | nil => exact .left (spells_slash_iff.mpr rfl)
    | cons first texts =>
        have hall : Spells .exact (.many .all) (first ++ slashed texts) :=
          .many fun b _ => ByteTest.accepts_all .exact b
        have hslash : Spells .exact .slash [0x2F] := spells_slash_iff.mpr rfl
        exact .right (@Spells.seq _ _ _ [0x2F] _ hslash (.seq hall hslash))

/-! ### Segments -/

/-- The pieces of a segment spell the texts of the segment. -/
theorem spells_segment_iff {seg : List Char} :
    Spells .exact (rowShape (seg.map Piece.ofChar)) text ↔ SegmentSpells seg text := by
  induction seg generalizing text with
  | nil =>
      rw [List.map_nil, rowShape, List.foldr_nil, Shape.spells_blank_iff]
      constructor
      · rintro rfl
        exact .nil
      · intro hspells
        cases hspells
        rfl
  | cons c seg ih =>
      rw [List.map_cons, spells_row_cons_iff]
      simp only [ih]
      by_cases hstar : c = '*'
      · subst hstar
        simp only [Piece.ofChar, if_true, spells_anyRun_iff]
        constructor
        · rintro ⟨skipped, rest, rfl, hskipped, hrest⟩
          exact .run hskipped hrest
        · intro hspells
          cases hspells with
          | run hskipped hrest => exact ⟨_, _, rfl, hskipped, hrest⟩
          | char hc => exact absurd (by decide) hc
      · by_cases hbyte : c = '?'
        · subst hbyte
          simp only [Piece.ofChar, if_neg hstar, if_true, spells_anyByte_iff]
          constructor
          · rintro ⟨_, rest, rfl, ⟨b, rfl, hb⟩, hrest⟩
            exact .byte hb hrest
          · intro hspells
            cases hspells with
            | byte hb hrest => exact ⟨[_], _, rfl, ⟨_, rfl, hb⟩, hrest⟩
            | char hc => exact absurd (by decide) hc
        · simp only [Piece.ofChar, if_neg hstar, if_neg hbyte, spells_char_iff]
          constructor
          · rintro ⟨_, rest, rfl, rfl, hrest⟩
            exact .char (by simp [hstar, hbyte]) hrest
          · intro hspells
            cases hspells with
            | run => exact absurd rfl hstar
            | byte => exact absurd rfl hbyte
            | char _ hrest => exact ⟨_, _, rfl, rfl, hrest⟩

/-- A segment never reaches across a slash. -/
theorem SegmentSpells.separate {seg : List Char} (hspells : SegmentSpells seg text)
    (hseg : '/' ∉ seg) : 0x2F ∉ text := by
  induction hspells with
  | nil => exact List.not_mem_nil
  | run hskipped _ ih =>
      rw [List.mem_append, not_or]
      exact ⟨hskipped, ih fun hmem => hseg (List.mem_cons_of_mem _ hmem)⟩
  | byte hb _ ih =>
      rw [List.mem_cons, not_or]
      exact ⟨Ne.symm hb, ih fun hmem => hseg (List.mem_cons_of_mem _ hmem)⟩
  | @char c _ _ _ _ ih =>
      rw [List.mem_cons, not_or] at hseg
      rw [List.mem_append, not_or]
      refine ⟨fun hmem => hseg.1 ?_, ih hseg.2⟩
      have hsame : c.toNat = 0x2F := Text.toNat_of_mem_encodeChar hmem (by decide)
      exact (Char.toNat_inj.mp hsame).symm

/-! ### Paths -/

/-- A `**` skips any number of segments. -/
theorem pathSpells_any_iff {segs : List (List Char)} {texts : List (List UInt8)} :
    PathSpells (anySegments :: segs) texts ↔
      ∃ skipped others, texts = skipped ++ others ∧ PathSpells segs others := by
  constructor
  · intro hspells
    cases hspells with
    | skip hrest => exact ⟨_, _, rfl, hrest⟩
    | segment hseg => exact absurd rfl hseg
  · rintro ⟨skipped, others, rfl, hrest⟩
    exact .skip hrest

/-- Any other segment of a pattern takes one segment of the path. -/
theorem pathSpells_cons_iff {seg : List Char} {segs : List (List Char)}
    {texts : List (List UInt8)} (hseg : seg ≠ anySegments) :
    PathSpells (seg :: segs) texts ↔
      ∃ first others, texts = first :: others ∧ SegmentSpells seg first ∧
        PathSpells segs others := by
  constructor
  · intro hspells
    cases hspells with
    | skip => exact absurd rfl hseg
    | segment _ hfirst hrest => exact ⟨_, _, rfl, hfirst, hrest⟩
  · rintro ⟨first, others, rfl, hfirst, hrest⟩
    exact .segment hseg hfirst hrest

/-- A row of pieces covers the paths of a set of lists of segments. -/
def CoversPaths (pieces : List Piece) (paths : List (List UInt8) → Prop) : Prop :=
  ∀ text, Spells .exact (rowShape pieces) text ↔
    ∃ texts, Separate texts ∧ text = slashed texts ∧ paths texts

variable {paths : List (List UInt8) → Prop}

/-- In front of pieces for some paths, a segment makes pieces for these paths with one segment
more. -/
theorem CoversPaths.segment (hpieces : CoversPaths pieces paths) {seg : List Char}
    (hseg : '/' ∉ seg) :
    CoversPaths (.char '/' :: (seg.map .ofChar ++ pieces)) fun texts =>
      ∃ first others, texts = first :: others ∧ SegmentSpells seg first ∧ paths others := by
  intro text
  rw [spells_row_cons_iff]
  simp only [spells_row_append_iff, spells_char_iff, spells_segment_iff, hpieces _]
  constructor
  · rintro ⟨_, _, rfl, rfl, first, _, rfl, hfirst, others, hothers, rfl, hpaths⟩
    exact ⟨first :: others, List.forall_mem_cons.mpr ⟨hfirst.separate hseg, hothers⟩, rfl,
      first, others, rfl, hfirst, hpaths⟩
  · rintro ⟨_, hseparate, rfl, first, others, rfl, hfirst, hpaths⟩
    exact ⟨[0x2F], first ++ slashed others, rfl, by decide, first, slashed others, rfl, hfirst,
      others, (List.forall_mem_cons.mp hseparate).2, rfl, hpaths⟩

/-- Segments that may be skipped stand in place of a slash. -/
theorem CoversPaths.inner (hpieces : CoversPaths (.char '/' :: pieces) paths) :
    CoversPaths (.innerSegments :: pieces) fun texts =>
      ∃ skipped others, texts = skipped ++ others ∧ paths others := by
  intro text
  rw [spells_row_cons_iff]
  simp only [spells_inner_iff]
  constructor
  · rintro ⟨_, rest, rfl, ⟨skipped, hskipped, rfl⟩, hrest⟩
    obtain ⟨others, hothers, hbytes, hpaths⟩ := (hpieces ([0x2F] ++ rest)).mp
      (spells_row_cons_iff.mpr ⟨[0x2F], rest, rfl, spells_char_iff.mpr (by decide), hrest⟩)
    refine ⟨skipped ++ others, List.forall_mem_append.mpr ⟨hskipped, hothers⟩, ?_,
      skipped, others, rfl, hpaths⟩
    rw [slashed_append, ← hbytes, List.append_assoc]
  · rintro ⟨_, hseparate, rfl, skipped, others, rfl, hpaths⟩
    obtain ⟨hskipped, hothers⟩ := List.forall_mem_append.mp hseparate
    have hspells := (hpieces (slashed others)).mpr ⟨others, hothers, rfl, hpaths⟩
    obtain ⟨slash, rest, hbytes, hslash, hrest⟩ := spells_row_cons_iff.mp hspells
    have hslash : slash = [0x2F] := (spells_char_iff.mp hslash).trans (by decide)
    refine ⟨slashed skipped ++ [0x2F], rest, ?_, ⟨skipped, hskipped, rfl⟩, hrest⟩
    rw [slashed_append, hbytes, hslash, List.append_assoc]

theorem CoversPaths.congr {others : List (List UInt8) → Prop} (hpieces : CoversPaths pieces paths)
    (hsame : ∀ texts, others texts ↔ paths texts) : CoversPaths pieces others := by
  intro text
  simp only [hpieces text, hsame]

/-- No pieces are for the empty path. -/
theorem coversPaths_nil : CoversPaths [] (PathSpells []) := by
  intro text
  rw [rowShape, List.foldr_nil, Shape.spells_blank_iff]
  constructor
  · rintro rfl
    exact ⟨[], List.forall_mem_nil _, rfl, .nil⟩
  · rintro ⟨_, _, rfl, hspells⟩
    cases hspells
    rfl

theorem getLast?_cons_ne {α : Type} {x y : α} {xs : List α} (hlast : (x :: xs).getLast? ≠ some y) :
    xs.getLast? ≠ some y := by
  intro hsame
  rw [List.getLast?_cons, hsame] at hlast
  exact hlast rfl

/-- A pattern whose last segment is a simple one covers the paths that its
segments stand for. -/
theorem coversPaths_of_segmented {segs : List (List Char)} (hsegs : Segmented segs)
    (hlast : segs.getLast? ≠ some anySegments) :
    CoversPaths (pathPieces segs) (PathSpells segs) := by
  fun_induction pathPieces segs with
  | case1 => exact coversPaths_nil
  | case2 => exact absurd rfl hlast
  | case3 next rest ih =>
      have hrest := ih hsegs.tail.tail (getLast?_cons_ne (getLast?_cons_ne hlast))
      apply (hrest.segment hsegs.second.slash_not_mem).inner.congr
      intro texts
      rw [pathSpells_any_iff]
      simp only [pathSpells_cons_iff hsegs.second.ne_anySegments]
  | case4 seg segs hseg ih =>
      have hrest := ih hsegs.tail (getLast?_cons_ne hlast)
      apply (hrest.segment (hsegs.head hseg).slash_not_mem).congr
      intro texts
      exact pathSpells_cons_iff hseg

/-! ### Any segments at the end -/

variable {front : List (List Char)} {texts : List (List UInt8)}

/-- A `**` at the end becomes a trailing one. -/
theorem pathPieces_concat (hlast : front.getLast? ≠ some anySegments) :
    pathPieces (front ++ [anySegments]) = pathPieces front ++ [.trailingSegments] := by
  fun_induction pathPieces front with
  | case1 => rfl
  | case2 => exact absurd rfl hlast
  | case3 next rest ih =>
      have ih := ih (getLast?_cons_ne (getLast?_cons_ne hlast))
      simp [pathPieces, ih]
  | case4 seg segs hseg ih =>
      have ih := ih (getLast?_cons_ne hlast)
      rw [List.cons_append, pathPieces_cons hseg, ih]
      simp

/-- With a `**` at the end, only a front of the path has to be spelled. -/
theorem pathSpells_concat_iff : PathSpells (front ++ [anySegments]) texts ↔
    ∃ first rest, texts = first ++ rest ∧ PathSpells front first := by
  induction front generalizing texts with
  | nil =>
      rw [List.nil_append, pathSpells_any_iff]
      constructor
      · rintro ⟨skipped, _, rfl, hnil⟩
        cases hnil
        exact ⟨[], skipped, by simp, .nil⟩
      · rintro ⟨_, rest, rfl, hnil⟩
        cases hnil
        exact ⟨rest, [], by simp, .nil⟩
  | cons seg front ih =>
      rw [List.cons_append]
      by_cases hseg : seg = anySegments
      · subst hseg
        simp only [pathSpells_any_iff, ih]
        constructor
        · rintro ⟨skipped, _, rfl, first, rest, rfl, hfirst⟩
          exact ⟨skipped ++ first, rest, by simp, skipped, first, rfl, hfirst⟩
        · rintro ⟨_, rest, rfl, skipped, first, rfl, hfirst⟩
          exact ⟨skipped, first ++ rest, by simp, first, rest, rfl, hfirst⟩
      · simp only [pathSpells_cons_iff hseg, ih]
        constructor
        · rintro ⟨text, _, rfl, htext, first, rest, rfl, hfirst⟩
          exact ⟨text :: first, rest, rfl, text, first, rfl, htext, hfirst⟩
        · rintro ⟨_, rest, rfl, text, first, rfl, htext, hfirst⟩
          exact ⟨text, first ++ rest, rfl, htext, first, rest, rfl, hfirst⟩

/-- With any segments at its end a pattern covers the paths that go on below what
the segments before stand for. -/
theorem coversPaths_concat (hsegs : Segmented front)
    (hlast : front.getLast? ≠ some anySegments) :
    CoversPaths (pathPieces (front ++ [anySegments])) fun texts =>
      ∃ first rest, texts = first ++ rest ∧ rest ≠ [] ∧ PathSpells front first := by
  have hfront := coversPaths_of_segmented hsegs hlast
  intro text
  rw [pathPieces_concat hlast, spells_row_append_iff]
  have htrailing : ∀ bs, Spells .exact (rowShape [.trailingSegments]) bs ↔
      Spells .exact Piece.trailingSegments.shape bs := fun bs => Iff.rfl
  simp only [htrailing, spells_trailing_iff, hfront _]
  constructor
  · rintro ⟨_, _, rfl, ⟨first, hfirst, rfl, hspells⟩, rest, hne, hrest, rfl⟩
    exact ⟨first ++ rest, List.forall_mem_append.mpr ⟨hfirst, hrest⟩,
      (slashed_append first rest).symm, first, rest, rfl, hne, hspells⟩
  · rintro ⟨_, hseparate, rfl, first, rest, rfl, hne, hspells⟩
    obtain ⟨hfirst, hrest⟩ := List.forall_mem_append.mp hseparate
    exact ⟨slashed first, slashed rest, slashed_append first rest, ⟨first, hfirst, rfl, hspells⟩,
      rest, hne, hrest, rfl⟩

end RouteGuard.Glob
