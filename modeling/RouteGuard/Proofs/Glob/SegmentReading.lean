import Mathlib.Data.List.Chain
import RouteGuard.Proofs.Glob.Plain

/-! # Reading patterns segment by segment

A pattern of plain segments has no wildcards but stars and question marks, and
two stars only as a segment of their own. Its pieces are those of its segments in
order; a segment of two stars swallows the slashes around it.
-/

namespace RouteGuard.Glob

/-- The segment that stands for any number of segments. -/
def anySegments : List Char := ['*', '*']

/-- No element of a list stands next to another element of one kind. -/
def Apart {α : Type} (x : α) (xs : List α) : Prop := xs.IsChain fun a b => ¬ (a = x ∧ b = x)

instance {α : Type} [DecidableEq α] (x : α) (xs : List α) : Decidable (Apart x xs) := by
  unfold Apart
  infer_instance

/-- A segment in which only single stars and question marks have a meaning. -/
structure Simple (seg : List Char) : Prop where
  plain : ∀ c ∈ seg, c ∉ ['/', '[', ']', '{', '}', '\\']
  stars : Apart '*' seg

/-- A pattern made of simple segments and single segments for any number of
segments. -/
structure Segmented (segs : List (List Char)) : Prop where
  each : ∀ seg ∈ segs, seg = anySegments ∨ Simple seg
  apart : Apart anySegments segs

instance (seg : List Char) : Decidable (Simple seg) :=
  decidable_of_iff
    (seg.all (fun c => decide (c ∉ ['/', '[', ']', '{', '}', '\\'])) = true ∧ Apart '*' seg)
    (by simp only [List.all_eq_true, decide_eq_true_eq]
        exact ⟨fun h => ⟨h.1, h.2⟩, fun h => ⟨h.plain, h.stars⟩⟩)

instance (segs : List (List Char)) : Decidable (Segmented segs) :=
  decidable_of_iff
    (segs.all (fun seg => decide (seg = anySegments ∨ Simple seg)) = true ∧ Apart anySegments segs)
    (by simp only [List.all_eq_true, decide_eq_true_eq]
        exact ⟨fun h => ⟨h.1, h.2⟩, fun h => ⟨h.each, h.apart⟩⟩)

theorem apart_cons_iff {α : Type} {x a : α} {xs : List α} :
    Apart x (a :: xs) ↔ (a = x → xs.head? ≠ some x) ∧ Apart x xs := by
  rw [Apart, List.isChain_cons, ← Apart]
  constructor
  · rintro ⟨hfirst, hrest⟩
    exact ⟨fun ha hhead => hfirst x hhead ⟨ha, rfl⟩, hrest⟩
  · rintro ⟨hfirst, hrest⟩
    refine ⟨?_, hrest⟩
    rintro b hb ⟨ha, rfl⟩
    exact hfirst ha hb

namespace Simple

variable {seg : List Char} {c : Char}

theorem ne_anySegments (hseg : Simple seg) : seg ≠ anySegments := by
  rintro rfl
  exact absurd hseg (by decide)

theorem tail (hseg : Simple (c :: seg)) : Simple seg :=
  ⟨(List.forall_mem_cons.mp hseg.plain).2, (apart_cons_iff.mp hseg.stars).2⟩

theorem slash_not_mem (hseg : Simple seg) : '/' ∉ seg :=
  fun hslash => hseg.plain '/' hslash (by decide)

end Simple

namespace Segmented

variable {seg next : List Char} {segs : List (List Char)}

theorem tail (hsegs : Segmented (seg :: segs)) : Segmented segs :=
  ⟨(List.forall_mem_cons.mp hsegs.each).2, (apart_cons_iff.mp hsegs.apart).2⟩

theorem head (hsegs : Segmented (seg :: segs)) (hseg : seg ≠ anySegments) : Simple seg :=
  (hsegs.each seg List.mem_cons_self).resolve_left hseg

/-- Behind a segment for any number of segments stands a simple one. -/
theorem second (hsegs : Segmented (anySegments :: next :: segs)) : Simple next := by
  apply hsegs.tail.head
  rintro rfl
  exact (apart_cons_iff.mp hsegs.apart).1 rfl rfl

theorem slash_not_mem (hsegs : Segmented segs) : ∀ seg ∈ segs, '/' ∉ seg := by
  intro seg hseg
  rcases hsegs.each seg hseg with rfl | hsimple
  · decide
  · exact hsimple.slash_not_mem

theorem of_append {others : List (List Char)} (hsegs : Segmented (segs ++ others)) :
    Segmented segs :=
  ⟨(List.forall_mem_append.mp hsegs.each).1, List.IsChain.left_of_append hsegs.apart⟩

theorem getLast?_ne (hsegs : Segmented (segs ++ [anySegments])) :
    segs.getLast? ≠ some anySegments := by
  intro hlast
  have happend := (List.isChain_append.mp hsegs.apart).2.2
  exact happend anySegments hlast anySegments rfl ⟨rfl, rfl⟩

end Segmented

/-! ### Pieces -/

/-- The piece that a character of a simple segment stands for. -/
def Piece.ofChar (c : Char) : Piece :=
  if c = '*' then .anyRun else if c = '?' then .anyByte else .char c

/-- The pieces of a pattern, each segment behind its slash. -/
def pathPieces : List (List Char) → List Piece
  | [] => []
  | seg :: segs =>
    if seg = anySegments then
      match segs with
      | [] => [.trailingSegments]
      | next :: rest => .innerSegments :: (next.map .ofChar ++ pathPieces rest)
    else .char '/' :: (seg.map .ofChar ++ pathPieces segs)

theorem pathPieces_cons {seg : List Char} (hseg : seg ≠ anySegments) (segs : List (List Char)) :
    pathPieces (seg :: segs) = .char '/' :: (seg.map .ofChar ++ pathPieces segs) := by
  rw [pathPieces.eq_def]
  exact if_neg hseg

/-- The text of a pattern, each segment behind its slash. -/
def pathText (segs : List (List Char)) : List Char := segs.flatMap ('/' :: ·)

/-- The text of a path is empty or starts with a slash. -/
theorem head?_pathText (segs : List (List Char)) :
    pathText segs = [] ∨ ∃ rest, pathText segs = '/' :: rest := by
  cases segs with
  | nil => exact Or.inl rfl
  | cons seg segs => exact Or.inr ⟨seg ++ pathText segs, rfl⟩

theorem head?_append_pathText_ne {seg : List Char} (hseg : seg.head? ≠ some '*')
    (segs : List (List Char)) :
    (seg ++ pathText segs).head? ≠ some '*' := by
  cases seg with
  | nil =>
      rcases head?_pathText segs with hnil | ⟨rest, hrest⟩
      · simp [hnil]
      · simp [hrest]
  | cons c seg => exact hseg

namespace Reader

/-- What a reader makes of the rest of the text. -/
def readAll (r : Reader) (cs : List Char) : Except Fault (List Piece) :=
  cs.foldlM Reader.read r >>= Reader.finish

variable {pieces : List Piece} {last before : Option Char} {c : Char} {cs : List Char}

theorem readAll_cons {r next : Reader} (hread : r.read c = .ok next) :
    r.readAll (c :: cs) = next.readAll cs := by
  simp [readAll, hread, bind, Except.bind]

/-- A character without a meaning of its own is read as itself. -/
theorem readAll_char (hc : c ∉ marks) :
    readAll { pieces, last } (c :: cs) =
      readAll { pieces := .char c :: pieces, last := some c } cs :=
  readAll_cons (read_of_unmarked hc pieces last)

theorem readAll_byte :
    readAll { pieces, last } ('?' :: cs) =
      readAll { pieces := .anyByte :: pieces, last := some '?' } cs :=
  readAll_cons rfl

/-- A star that no other star follows is a piece of its own. -/
theorem readAll_star (hcs : cs.head? ≠ some '*') :
    readAll { pieces, last } ('*' :: cs) =
      readAll { pieces := .anyRun :: pieces, last := some '*' } cs := by
  have hstar : readAll { pieces, last } ('*' :: cs) =
      readAll { pieces, last := some '*', mode := .star last } cs := readAll_cons rfl
  rw [hstar]
  cases cs with
  | nil => rfl
  | cons c cs =>
      have hc : c ≠ '*' := by simpa using hcs
      have hread : read { pieces, last := some '*', mode := .star last } c =
          read { pieces := .anyRun :: pieces, last := some '*' } c := by
        simp only [read, if_neg hc]
        rfl
      rw [readAll, readAll, List.foldlM_cons, List.foldlM_cons, hread]

/-- A character of a simple segment is read as its piece. -/
theorem readAll_ofChar (hc : c ∉ ['/', '[', ']', '{', '}', '\\'])
    (hcs : c = '*' → cs.head? ≠ some '*') :
    readAll { pieces, last } (c :: cs) =
      readAll { pieces := .ofChar c :: pieces, last := some c } cs := by
  by_cases hstar : c = '*'
  · subst hstar
    exact readAll_star (hcs rfl)
  · by_cases hbyte : c = '?'
    · subst hbyte
      exact readAll_byte
    · have hmark : c ∉ marks := by
        simp only [marks, List.mem_cons, List.not_mem_nil, or_false, not_or] at hc ⊢
        exact ⟨hbyte, hstar, hc.2.1, hc.2.2.2.2.2, hc.2.2.2.1, hc.2.2.2.2.1⟩
      rw [readAll_char hmark, Piece.ofChar, if_neg hstar, if_neg hbyte]

/-- The end of a segment is read alike whatever was read last. -/
theorem readAll_pathText (segs : List (List Char)) :
    readAll { pieces, last } (pathText segs) =
      readAll { pieces, last := before } (pathText segs) := by
  rcases head?_pathText segs with hnil | ⟨rest, hrest⟩
  · rw [hnil]
    rfl
  · rw [hrest, readAll_char (by decide), readAll_char (by decide)]

/-- A simple segment is read piece by piece. -/
theorem readAll_simple {seg : List Char} (hseg : Simple seg) (segs : List (List Char))
    (before : Option Char) :
    readAll { pieces, last } (seg ++ pathText segs) =
      readAll { pieces := (seg.map Piece.ofChar).reverse ++ pieces, last := before }
        (pathText segs) := by
  induction seg generalizing pieces last with
  | nil => exact readAll_pathText segs
  | cons c seg ih =>
      obtain ⟨hstars, _⟩ := apart_cons_iff.mp hseg.stars
      have hnext : c = '*' → (seg ++ pathText segs).head? ≠ some '*' :=
        fun hc => head?_append_pathText_ne (hstars hc) segs
      rw [List.cons_append, readAll_ofChar (hseg.plain c List.mem_cons_self) hnext, ih hseg.tail]
      simp

/-- Two stars between slashes take both of them. -/
theorem readAll_inner :
    readAll { pieces := .char '/' :: pieces, last := some '/' } ('*' :: '*' :: '/' :: cs) =
      readAll { pieces := .innerSegments :: pieces, last := some '/' } cs := by
  let opened : Reader := { pieces := .char '/' :: pieces, last := some '*' }
  have hfirst : readAll { pieces := .char '/' :: pieces, last := some '/' }
      ('*' :: '*' :: '/' :: cs) =
        readAll { opened with mode := .star (some '/') } ('*' :: '/' :: cs) := readAll_cons rfl
  have hsecond : readAll { opened with mode := .star (some '/') } ('*' :: '/' :: cs) =
      readAll { opened with mode := .stars (some '/') } ('/' :: cs) := readAll_cons rfl
  rw [hfirst, hsecond]
  exact readAll_cons rfl

/-- A `**` at the end of a text takes the slash before it. -/
theorem readAll_trailing :
    readAll { pieces := .char '/' :: pieces, last := some '/' } anySegments =
      .ok (.trailingSegments :: pieces) := rfl

/-- A pattern of segments is read as their pieces. -/
theorem readAll_segmented {segs : List (List Char)} (hsegs : Segmented segs) :
    readAll { pieces, last } (pathText segs) = .ok ((pathPieces segs).reverse ++ pieces) := by
  fun_induction pathPieces segs generalizing pieces last with
  | case1 => rfl
  | case2 =>
      have htext : pathText [anySegments] = '/' :: anySegments := rfl
      rw [htext, readAll_char (by decide), readAll_trailing]
      rfl
  | case3 next rest ih =>
      have htext : pathText (anySegments :: next :: rest) =
          '/' :: '*' :: '*' :: '/' :: (next ++ pathText rest) := by
        simp [pathText, anySegments]
      rw [htext, readAll_char (by decide), readAll_inner,
        readAll_simple hsegs.second rest none, ih hsegs.tail.tail]
      simp
  | case4 seg segs hseg ih =>
      have htext : pathText (seg :: segs) = '/' :: (seg ++ pathText segs) := rfl
      rw [htext, readAll_char (by decide), readAll_simple (hsegs.head hseg) segs none,
        ih hsegs.tail]
      simp

end Reader

/-- A row of pieces from a slash on is never the pattern for everything. -/
theorem pathPieces_ne (segs : List (List Char)) :
    (pathPieces segs).reverse ≠ [.leadingSegments] := by
  rw [Ne, List.reverse_eq_iff]
  cases segs with
  | nil => simp [pathPieces]
  | cons seg segs =>
      unfold pathPieces
      split
      · split <;> simp
      · simp

/-- The shape of a row of pieces. -/
def rowShape (pieces : List Piece) : Shape :=
  pieces.foldr (fun p s => p.shape.andThen s) .blank

/-- A text parses to the shape of the pieces that are read. -/
theorem parse_eq_readAll (cs : List Char) :
    parse cs = (Reader.readAll {} cs).bind fun pieces =>
      .ok (if pieces = [.leadingSegments] then .many .all else branchShape pieces) := by
  unfold parse Reader.readAll
  cases cs.foldlM Reader.read {} <;> rfl

/-- A segmented text parses to the shape of its path. -/
theorem parse_of_segmented {segs : List (List Char)} (hsegs : Segmented segs) :
    parse (pathText segs) = .ok (rowShape (pathPieces segs)) := by
  rw [parse_eq_readAll, Reader.readAll_segmented hsegs, List.append_nil, Except.bind,
    if_neg (pathPieces_ne segs), branchShape, List.foldl_reverse]
  rfl

end RouteGuard.Glob

namespace RouteGuard.Pattern

/-- A text has a bare part if a slash and two stars stand at its end and
something stands before them. -/
theorem bareText?_eq_some_iff {cs front : List Char} :
    bareText? cs = some front ↔ front ≠ [] ∧ cs = front ++ '/' :: Glob.anySegments := by
  constructor
  · intro hbare
    unfold bareText? at hbare
    split at hbare
    next before hreverse =>
      split at hbare
      · cases hbare
      next hne =>
        cases hbare
        refine ⟨by simpa using hne, ?_⟩
        rw [← List.reverse_reverse cs, hreverse]
        simp [Glob.anySegments]
    · cases hbare
  · rintro ⟨hne, rfl⟩
    simp [bareText?, Glob.anySegments, hne]

end RouteGuard.Pattern
