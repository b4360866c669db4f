import RouteGuard.Proofs.Glob.SegmentMeaning

/-! # Wildcards by segments

A pattern of segments covers a path exactly if its segments stand for those of
the path, one after another. So the pattern for everything below a plain path
covers that path itself and what comes behind it and a slash.
-/

namespace RouteGuard

open Glob

namespace Path

/-- The segments of a path from the root; the root has one empty segment. -/
def parts (path : String) : List (List Char) := (segments path.toList).tail

/-- The segments of a path as bytes. -/
def texts (path : String) : List (List UInt8) := (parts path).map Text.encode

/-- A path from the root. Every canonical path is one. -/
def Absolute (path : String) : Prop := ∃ rest, path.toList = '/' :: rest

variable {path : String}

/-- A canonical path starts with a slash. -/
theorem IsCanonical.absolute (hpath : IsCanonical path) : Absolute path := by
  obtain ⟨target, htarget⟩ := hpath
  rw [canonical?_eq] at htarget
  obtain ⟨cs, _, rfl⟩ := Option.map_eq_some_iff.mp htarget
  exact ⟨_, by rw [String.toList_ofList, render_eq_rooted]⟩

theorem Absolute.of_append {base : String} {more : List Char} (hpath : Absolute path)
    (happend : path.toList = base.toList ++ more) (hne : base ≠ "") : Absolute base := by
  obtain ⟨rest, hrest⟩ := hpath
  rw [happend, List.append_eq_cons_iff] at hrest
  rcases hrest with ⟨hnil, _⟩ | ⟨more, hbase, _⟩
  · exact absurd (String.toList_injective hnil) hne
  · exact ⟨more, hbase⟩

/-- The first byte of a path tells whether it starts at the root. -/
theorem absolute_iff_bytes : Absolute path ↔ ∃ rest, Text.bytes path = 0x2F :: rest := by
  constructor
  · rintro ⟨rest, hrest⟩
    exact ⟨Text.encode rest, by rw [Text.bytes, hrest]; rfl⟩
  · rintro ⟨after, hafter⟩
    have hcut : Text.encode path.toList = [] ++ 0x2F :: after := hafter
    obtain ⟨front, rest, hpath, hfront, _⟩ :=
      Text.exists_split_of_encode (c := '/') (by decide) hcut
    obtain rfl : front = [] := Text.encode_injective hfront
    exact ⟨rest, hpath⟩

/-- The parts of a path put together are the path. -/
theorem pathText_parts (hpath : Absolute path) : pathText (parts path) = path.toList := by
  obtain ⟨rest, hrest⟩ := hpath
  have hparts : parts path = segments rest := by rw [parts, hrest]; rfl
  have hne : segments rest ≠ [] := Text.pieces_ne_nil '/' rest
  rw [hparts, hrest, pathText, ← render_eq_flatMap hne, render_segments]

/-- A path is parted at any of its slashes. -/
theorem parts_of_append {base : String} {more : List Char}
    (hpath : path.toList = base.toList ++ '/' :: more) :
    parts path = parts base ++ segments more := by
  rw [parts, hpath, segments, Text.pieces_append_separator,
    List.tail_append_of_ne_nil (Text.pieces_ne_nil '/' _)]
  rfl

theorem slash_not_mem_parts : ∀ seg ∈ parts path, '/' ∉ seg :=
  fun _ hseg => Text.not_mem_of_mem_pieces (List.mem_of_mem_tail hseg)

theorem separate_texts (path : String) : Separate (texts path) := by
  intro text htext
  obtain ⟨seg, hseg, rfl⟩ := List.mem_map.mp htext
  have hslash : UInt8.ofNat '/'.toNat ∉ Text.encode seg :=
    (Text.mem_encode_iff (by decide) seg).not.mpr (slash_not_mem_parts seg hseg)
  exact hslash

/-- Encoding goes segment by segment. -/
theorem encode_pathText (segs : List (List Char)) :
    Text.encode (pathText segs) = slashed (segs.map Text.encode) := by
  induction segs with
  | nil => rfl
  | cons seg segs ih =>
      have htext : pathText (seg :: segs) = ['/'] ++ (seg ++ pathText segs) := rfl
      rw [htext, Text.encode_append, Text.encode_append, ih]
      rfl

/-- The bytes of a path are its segments, each behind a slash. -/
theorem bytes_eq_slashed (hpath : Absolute path) : Text.bytes path = slashed (texts path) := by
  rw [Text.bytes, ← pathText_parts hpath, encode_pathText, texts]

end Path

/-- A row of pieces covers the paths whose segments it stands for. -/
theorem Glob.CoversPaths.covers_iff {pieces : List Piece} {paths : List (List UInt8) → Prop}
    (hpieces : CoversPaths pieces paths) {path : String} (hpath : Path.Absolute path) :
    (rowShape pieces).covers .exact (Text.bytes path) = true ↔ paths (Path.texts path) := by
  rw [Shape.covers_iff, hpieces, Path.bytes_eq_slashed hpath]
  constructor
  · rintro ⟨texts, hseparate, hsame, hpaths⟩
    rwa [slashed_injective (Path.separate_texts path) hseparate hsame]
  · exact fun hpaths => ⟨_, Path.separate_texts path, rfl, hpaths⟩

namespace Pattern

variable {text path : String} {front segs : List (List Char)}

/-! ### The part before a final wildcard -/

theorem pathText_concat (seg : List Char) :
    pathText (front ++ [seg]) = pathText front ++ '/' :: seg := by
  simp [pathText]

/-- A pattern whose last segment is not `**` has no bare prefix. -/
theorem bareText?_eq_none (hplain : ∀ seg ∈ segs, '/' ∉ seg)
    (hlast : segs.getLast? ≠ some anySegments) : bareText? (pathText segs) = none := by
  rw [Option.eq_none_iff_forall_ne_some]
  intro cs hbare
  obtain ⟨_, hends⟩ := bareText?_eq_some_iff.mp hbare
  rcases List.eq_nil_or_concat segs with rfl | ⟨init, seg, rfl⟩
  · simp [pathText] at hends
  · rw [List.concat_eq_append, pathText_concat] at hends
    -- the last segments of both are the same
    have hpieces := congrArg (fun cs => (Text.pieces '/' cs).getLast?) hends
    have hseg : '/' ∉ seg := hplain seg (by simp)
    simp only [Text.pieces_append_separator, Text.pieces_of_not_mem hseg,
      Text.pieces_of_not_mem (show '/' ∉ anySegments by decide), List.getLast?_concat] at hpieces
    rw [List.concat_eq_append, List.getLast?_concat] at hlast
    exact absurd hpieces hlast

/-! ### Patterns of segments -/

/-- A segmented text is read segment by segment. -/
theorem readGlob_of_segmented (hsegs : Segmented segs) :
    readGlob (pathText segs) = .ok (rowShape (pathPieces segs)) := by
  rw [readGlob, parse_of_segmented hsegs]
  rfl

/-- A pattern without a bare prefix compiles to one glob. -/
theorem compile_of_bareText?_eq_none (htext : canonicalText text = text)
    {whole : Shape} (hwhole : readGlob text.toList = .ok whole)
    (hbare : bareText? text.toList = none) :
    compile .exact text = .ok ⟨text, .exact, whole, none⟩ := by
  rw [compile, htext, hwhole, hbare]
  rfl

/-- A pattern with a bare prefix compiles to two. -/
theorem compile_of_bareText?_eq_some (htext : canonicalText text = text)
    {whole bare : Shape} (hwhole : readGlob text.toList = .ok whole) {cs : List Char}
    (hcs : bareText? text.toList = some cs) (hbare : readGlob cs = .ok bare) :
    compile .exact text = .ok ⟨text, .exact, whole, some bare⟩ := by
  rw [compile, htext, hwhole, hcs]
  simp only [Option.mapM_some, hbare]
  rfl

/-- The bare part covers the paths that end where the wildcard begins. -/
theorem exists_compile_of_trailing (htext : canonicalText text = text)
    (hparts : Path.parts text = front ++ [anySegments]) (hne : front ≠ [])
    (hsegs : Segmented (front ++ [anySegments])) :
    ∃ p, compile .exact text = .ok p ∧ ∀ path, Path.Absolute path →
      (p.covers path = true ↔ PathSpells (front ++ [anySegments]) (Path.texts path)) := by
  have hcs : text.toList = pathText (front ++ [anySegments]) := by
    rw [← hparts, Path.pathText_parts (htext ▸ exists_canonicalText text)]
  have hwhole := readGlob_of_segmented hsegs
  have hbare : bareText? text.toList = some (pathText front) := by
    rw [hcs, pathText_concat]
    refine bareText?_eq_some_iff.mpr ⟨?_, rfl⟩
    obtain ⟨seg, segs, rfl⟩ := List.exists_cons_of_ne_nil hne
    exact List.cons_ne_nil _ _
  rw [← hcs] at hwhole
  refine ⟨_, compile_of_bareText?_eq_some htext hwhole hbare
    (readGlob_of_segmented hsegs.of_append), fun path hpath => ?_⟩
  have hcatchAll : (text == "/**") = false := by
    rw [beq_eq_false_iff_ne]
    rintro rfl
    have hone : [anySegments] = front ++ [anySegments] := hparts
    exact hne (List.append_cancel_right hone).symm
  simp only [covers, isCatchAll, hcatchAll, Bool.false_or, Option.any_some, Bool.or_eq_true]
  rw [(coversPaths_concat hsegs.of_append hsegs.getLast?_ne).covers_iff hpath,
    (coversPaths_of_segmented hsegs.of_append hsegs.getLast?_ne).covers_iff hpath,
    pathSpells_concat_iff]
  constructor
  · rintro (⟨first, rest, hsame, _, hfirst⟩ | hall)
    · exact ⟨first, rest, hsame, hfirst⟩
    · exact ⟨_, [], (List.append_nil _).symm, hall⟩
  · rintro ⟨first, rest, hsame, hfirst⟩
    by_cases hrest : rest = []
    · rw [hsame, hrest, List.append_nil]
      exact Or.inr hfirst
    · exact Or.inl ⟨first, rest, hsame, hrest, hfirst⟩

/-- A pattern of segments can be read, and covers the paths that its segments
stand for. -/
theorem exists_compile_of_segmented (htext : canonicalText text = text)
    (hsegs : Segmented (Path.parts text)) :
    ∃ p, compile .exact text = .ok p ∧ ∀ path, Path.Absolute path →
      (p.covers path = true ↔ PathSpells (Path.parts text) (Path.texts path)) := by
  have habsolute : Path.Absolute text := htext ▸ exists_canonicalText text
  have hcs := Path.pathText_parts habsolute
  by_cases hlast : (Path.parts text).getLast? = some anySegments
  · obtain ⟨front, hfront⟩ := List.getLast?_eq_some_iff.mp hlast
    by_cases hne : front = []
    · rw [hfront, hne] at hcs
      obtain rfl : text = "/**" := String.toList_injective hcs.symm
      refine ⟨_, rfl, fun path hpath => ?_⟩
      have hany : PathSpells [anySegments] (Path.texts path) := by
        rw [← List.append_nil (Path.texts path)]
        exact .skip .nil
      exact ⟨fun _ => hany, fun _ => rfl⟩
    · rw [hfront] at hsegs ⊢
      exact exists_compile_of_trailing htext hfront hne hsegs
  · have hwhole := readGlob_of_segmented hsegs
    rw [hcs] at hwhole
    have hbare : bareText? text.toList = none := by
      rw [← hcs]
      exact bareText?_eq_none Path.slash_not_mem_parts hlast
    refine ⟨_, compile_of_bareText?_eq_none htext hwhole hbare, fun path hpath => ?_⟩
    have hcatchAll : (text == "/**") = false := by
      rw [beq_eq_false_iff_ne]
      rintro rfl
      exact hlast (by decide)
    simp only [covers, isCatchAll, hcatchAll, Bool.false_or, Option.any_none, Bool.or_false]
    exact (coversPaths_of_segmented hsegs hlast).covers_iff hpath

/-! ### Everything below a plain path -/

/-- The characters that stand for themselves in every segment. -/
def IsOrdinary (c : Char) : Prop := c ∉ ['*', '?', '[', ']', '{', '}', '\\']

instance (c : Char) : Decidable (IsOrdinary c) := by
  unfold IsOrdinary
  infer_instance

theorem segmentSpells_iff_of_ordinary {seg : List Char} (hseg : ∀ c ∈ seg, IsOrdinary c)
    {bs : List UInt8} : SegmentSpells seg bs ↔ bs = Text.encode seg := by
  induction seg generalizing bs with
  | nil =>
      constructor
      · intro hspells
        cases hspells
        rfl
      · rintro rfl
        exact .nil
  | cons c seg ih =>
      obtain ⟨hc, hseg⟩ := List.forall_mem_cons.mp hseg
      have hchar : c ∉ ['*', '?'] := fun hmem => hc (List.mem_append_left _ hmem)
      constructor
      · intro hspells
        cases hspells with
        | run => exact absurd (by decide) hchar
        | byte => exact absurd (by decide) hchar
        | char _ hrest => rw [(ih hseg).mp hrest, Text.encode_cons]
      · rintro rfl
        exact .char hchar ((ih hseg).mpr rfl)

/-- A path pattern without wildcards spells itself alone. -/
theorem pathSpells_iff_of_ordinary (hsegs : ∀ seg ∈ segs, ∀ c ∈ seg, IsOrdinary c)
    {texts : List (List UInt8)} : PathSpells segs texts ↔ texts = segs.map Text.encode := by
  induction segs generalizing texts with
  | nil =>
      constructor
      · intro hspells
        cases hspells
        rfl
      · rintro rfl
        exact .nil
  | cons seg segs ih =>
      obtain ⟨hseg, hsegs⟩ := List.forall_mem_cons.mp hsegs
      have hne : seg ≠ anySegments := by
        rintro rfl
        exact hseg '*' (by decide) (by decide)
      rw [pathSpells_cons_iff hne]
      simp only [segmentSpells_iff_of_ordinary hseg, ih hsegs]
      simp

/-- Everything below a plain path is that path itself and whatever has it and a
slash in front. -/
theorem pathSpells_below_iff {base : String} (hbase : Path.Absolute base)
    (hplain : ∀ c ∈ base.toList, IsOrdinary c) (hpath : Path.Absolute path) :
    PathSpells (Path.parts base ++ [anySegments]) (Path.texts path) ↔
      path = base ∨ base.toList ++ ['/'] <+: path.toList := by
  have hsegs : ∀ seg ∈ Path.parts base, ∀ c ∈ seg, IsOrdinary c := by
    intro seg hseg c hc
    apply hplain
    rw [← Path.pathText_parts hbase, pathText, List.mem_flatMap]
    exact ⟨seg, hseg, List.mem_cons_of_mem _ hc⟩
  simp only [pathSpells_concat_iff, pathSpells_iff_of_ordinary hsegs]
  constructor
  · intro hspells
    obtain ⟨first, rest, hsame, hfirst⟩ := hspells
    have hbytes : Text.encode path.toList = Text.encode base.toList ++ slashed rest := by
      rw [← Text.bytes, Path.bytes_eq_slashed hpath, hsame, hfirst, slashed_append]
      rw [← Path.encode_pathText, Path.pathText_parts hbase]
    cases rest with
    | nil =>
        left
        rw [slashed, List.flatMap_nil, List.append_nil] at hbytes
        exact String.toList_injective (Text.encode_injective hbytes)
    | cons text rest =>
        right
        have hslash : Text.encode path.toList =
            Text.encode (base.toList ++ ['/']) ++ (text ++ slashed rest) := by
          rw [hbytes, slashed_cons, Text.encode_append, List.append_assoc]
          rfl
        obtain ⟨more, hmore, _⟩ := Text.exists_append_of_encode hslash
        exact ⟨more, hmore.symm⟩
  · intro hbelow
    rcases hbelow with hsame | ⟨more, hmore⟩
    · exact ⟨_, [], (List.append_nil _).symm, by rw [hsame, Path.texts]⟩
    · refine ⟨_, (Path.segments more).map Text.encode, ?_, rfl⟩
      rw [List.append_assoc] at hmore
      rw [Path.texts, ← List.map_append, Path.parts_of_append hmore.symm]
      rfl

/-- A pattern of segments can be read and covers the paths whose segments its
own stand for. So if a plain path stands before its last segment, and that is for
any number of segments, it covers that path and all below it. -/
theorem segmentwise (text : String) (htext : canonicalText text = text)
    (hsegs : Segmented (Path.parts text)) :
    ∃ p, compile .exact text = .ok p ∧
      (∀ path, Path.Absolute path →
        (p.covers path = true ↔ PathSpells (Path.parts text) (Path.texts path))) ∧
      ∀ base, text = base ++ "/**" → base ≠ "" → (∀ c ∈ base.toList, IsOrdinary c) →
        ∀ path, Path.Absolute path →
          (p.covers path = true ↔ path = base ∨ base.toList ++ ['/'] <+: path.toList) := by
  obtain ⟨p, hcompile, hcovers⟩ := exists_compile_of_segmented htext hsegs
  refine ⟨p, hcompile, hcovers, fun base hbelow hne hplain path hpath => ?_⟩
  have happend : text.toList = base.toList ++ '/' :: anySegments := by
    rw [hbelow, String.toList_append]
    rfl
  have hbase : Path.Absolute base :=
    Path.Absolute.of_append (htext ▸ exists_canonicalText text) happend hne
  have hparts : Path.parts text = Path.parts base ++ [anySegments] :=
    Path.parts_of_append happend
  rw [hcovers path hpath, hparts]
  exact pathSpells_below_iff hbase hplain hpath

/-- The pattern `/api/**` covers its prefix and what lies below it, and no path that only starts
like it. -/
theorem segmentwise_api :
    canonicalText "/api/**" = "/api/**" ∧ Segmented (Path.parts "/api/**") ∧
      ∃ p, compile .exact "/api/**" = .ok p ∧
        (p.covers "/api/v1" = true ↔
          PathSpells (Path.parts "/api/**") (Path.texts "/api/v1")) ∧
        p.covers "/api" = true ∧ p.covers "/apis" = false := by
  have htext : canonicalText "/api/**" = "/api/**" := by decide
  have hsegs : Segmented (Path.parts "/api/**") := by decide
  obtain ⟨p, hcompile, hcovers, hbelow⟩ := segmentwise "/api/**" htext hsegs
  have hplain : "/api".toList.all (fun c => decide (IsOrdinary c)) = true := by decide
  simp only [List.all_eq_true, decide_eq_true_eq] at hplain
  have hbelow := hbelow "/api" rfl (by decide) hplain
  refine ⟨htext, hsegs, p, hcompile, hcovers _ ⟨_, rfl⟩, (hbelow _ ⟨_, rfl⟩).mpr (Or.inl rfl), ?_⟩
  rw [Bool.eq_false_iff, Ne, hbelow _ ⟨_, rfl⟩]
  decide

end Pattern

end RouteGuard
