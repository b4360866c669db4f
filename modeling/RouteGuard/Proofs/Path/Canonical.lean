import Mathlib.Data.List.Flatten
import RouteGuard.Path.Canonical
import RouteGuard.Proofs.Text.Encoding
import RouteGuard.Proofs.Text.Pieces

/-! # Canonical paths, part by part

The part of a request target without marks goes through decoding as it is. What
is left is a walk along its segments, which drops some of them and adds nothing.
-/

namespace RouteGuard.Path

open Text (joined pieces)

/-! ### Decoding -/

/-- Bytes before the first percent sign are decoded as they are. -/
theorem percentDecode_append {front : List UInt8} (hplain : 0x25 ∉ front) (bs : List UInt8) :
    percentDecode (front ++ bs) = front ++ percentDecode bs := by
  induction front with
  | nil => rfl
  | cons a front ih =>
      have ha : a ≠ 0x25 := by
        rintro rfl
        exact hplain List.mem_cons_self
      have ih := ih fun hmem => hplain (List.mem_cons_of_mem _ hmem)
      have hstep : percentDecode (a :: (front ++ bs)) = a :: percentDecode (front ++ bs) := by
        cases front ++ bs with
        | nil => rfl
        | cons b rest =>
            cases rest with
            | nil => rfl
            | cons c rest => simp [percentDecode, ha]
      rw [List.cons_append, List.cons_append, hstep, ih]

/-- Text without percent signs goes through as it is. -/
theorem percentDecode_encode_append {front : List Char} (hplain : '%' ∉ front)
    (rest : List Char) :
    percentDecode (Text.encode (front ++ rest)) =
      Text.encode front ++ percentDecode (Text.encode rest) := by
  have hbytes : 0x25 ∉ Text.encode front := by
    rwa [show (0x25 : UInt8) = UInt8.ofNat '%'.toNat from rfl, Text.mem_encode_iff (by decide)]
  rw [Text.encode_append, percentDecode_append hbytes]

/-- What a request target spells once its escapes are decoded. -/
def decoded? (target : List Char) : Option (List Char) :=
  Text.decode? (percentDecode (Text.encode (pathPart target)))

/-- The part of a request target that ends before the first mark of a query or a
fragment, or with the target. -/
def IsPathPart (part target : List Char) : Prop :=
  (∀ c ∈ part, c ∉ ['?', '#']) ∧ ∃ tail, target = part ++ tail ∧ ∀ c ∈ tail.head?, c ∈ ['?', '#']

/-- A target has one such part. -/
theorem isPathPart_iff {part target : List Char} :
    IsPathPart part target ↔ part = pathPart target := by
  constructor
  · rintro ⟨hpart, tail, rfl, htail⟩
    have hkept : ∀ c ∈ part, (c != '?' && c != '#') = true := by
      intro c hc
      simpa using hpart c hc
    have hcut : pathPart tail = [] := by
      cases tail with
      | nil => rfl
      | cons c tail =>
          have hmark : c = '?' ∨ c = '#' := by simpa using htail c rfl
          apply List.takeWhile_cons_of_neg
          rcases hmark with rfl | rfl <;> decide
    have happend : pathPart (part ++ tail) = part ++ pathPart tail :=
      List.takeWhile_append_of_pos hkept
    rw [happend, hcut, List.append_nil]
  · rintro rfl
    refine ⟨?_, target.dropWhile fun c => c != '?' && c != '#',
      List.takeWhile_append_dropWhile.symm, ?_⟩
    · intro c hc
      simpa using List.all_eq_true.mp List.all_takeWhile c hc
    · intro c hc
      have hstop := List.head?_dropWhile_not (fun c => c != '?' && c != '#') target
      rw [Option.mem_def.mp hc] at hstop
      simp only [Bool.and_eq_false_iff, bne_eq_false_iff_eq] at hstop
      simpa using hstop

/-- A path is canonical if it is the canonical form of some request target. -/
def IsCanonical (path : String) : Prop := ∃ target, canonical? target = some path

theorem canonical?_eq (target : String) :
    canonical? target = (decoded? target.toList).map fun cs =>
      String.ofList (render (resolve (segments cs))) := rfl

/-- A plain front of a target is decoded as it is. -/
theorem decoded?_append {front : List Char} (hfront : ∀ c ∈ front, c ∉ ['?', '#', '%'])
    (target : List Char) : decoded? (front ++ target) = (decoded? target).map (front ++ ·) := by
  have hpart : pathPart (front ++ target) = front ++ pathPart target := by
    apply List.takeWhile_append_of_pos
    intro c hc
    have hnot := hfront c hc
    simp at hnot ⊢
    exact ⟨hnot.1, hnot.2.1⟩
  have hescape : '%' ∉ front := by
    intro hmem
    have hnot := hfront '%' hmem
    simp at hnot
  rw [decoded?, hpart, percentDecode_encode_append hescape, Text.decode?_append]
  rfl

/-- A target without marks spells itself. -/
theorem decoded?_of_unmarked {target : List Char} (htarget : ∀ c ∈ target, c ∉ ['?', '#', '%']) :
    decoded? target = some target := by
  have hnil : decoded? [] = some [] := rfl
  simpa [hnil] using decoded?_append htarget []

/-! ### Walks -/

/-- A segment that a walk goes into: neither empty nor a dot segment. -/
def Ordinary (seg : List Char) : Prop := seg ≠ [] ∧ seg ≠ ['.'] ∧ seg ≠ ['.', '.']

instance (seg : List Char) : Decidable (Ordinary seg) := by
  unfold Ordinary
  infer_instance

variable {seg : List Char} {here segs : List (List Char)}

theorem walk_of_ordinary (hseg : Ordinary seg) : walk here seg = seg :: here := by
  obtain ⟨hempty, hdot, hdots⟩ := hseg
  simp [walk, hempty, hdot, hdots]

/-- A walk stays, goes back, or goes into an ordinary segment. -/
theorem walk_cases (here : List (List Char)) (seg : List Char) :
    walk here seg = here ∨ walk here seg = here.tail ∨
      (Ordinary seg ∧ walk here seg = seg :: here) := by
  unfold walk
  split
  · exact Or.inl rfl
  next hstay =>
    split
    · exact Or.inr (Or.inl rfl)
    next hback =>
      obtain ⟨hempty, hdot⟩ := not_or.mp hstay
      exact Or.inr (Or.inr ⟨⟨hempty, hdot, hback⟩, rfl⟩)

/-- A walk keeps segments in their order. -/
theorem foldl_walk_sublist (segs here : List (List Char)) :
    (segs.foldl walk here).reverse.Sublist (here.reverse ++ segs) := by
  induction segs generalizing here with
  | nil => simp
  | cons seg segs ih =>
      apply (ih (walk here seg)).trans
      rcases walk_cases here seg with hstay | hback | ⟨_, hgo⟩
      · rw [hstay]
        exact (List.sublist_cons_self seg segs).append_left _
      · rw [hback]
        have htail : here.tail.reverse.Sublist here.reverse := (List.tail_sublist here).reverse
        exact htail.append (List.sublist_cons_self seg segs)
      · have hsame : (walk here seg).reverse ++ segs = here.reverse ++ seg :: segs := by
          simp [hgo]
        exact hsame ▸ List.Sublist.refl _

/-- The segments where a walk ends are among those that it went along, in their
order. -/
theorem resolve_sublist (segs : List (List Char)) : (resolve segs).Sublist segs :=
  foldl_walk_sublist segs []

theorem ordinary_of_mem_foldl_walk (hhere : ∀ seg ∈ here, Ordinary seg)
    (hseg : seg ∈ segs.foldl walk here) : Ordinary seg := by
  induction segs generalizing here with
  | nil => exact hhere seg hseg
  | cons next segs ih =>
      refine ih (fun other hother => ?_) hseg
      rcases walk_cases here next with hstay | hback | ⟨hordinary, hgo⟩
      · exact hhere other (hstay ▸ hother)
      · exact hhere other (List.mem_of_mem_tail (hback ▸ hother))
      · rw [hgo] at hother
        rcases List.mem_cons.mp hother with rfl | hbefore
        · exact hordinary
        · exact hhere other hbefore

theorem ordinary_of_mem_resolve (hseg : seg ∈ resolve segs) : Ordinary seg :=
  ordinary_of_mem_foldl_walk (by simp) (List.mem_reverse.mp hseg)

theorem foldl_walk_of_ordinary (here : List (List Char)) (hsegs : ∀ seg ∈ segs, Ordinary seg) :
    segs.foldl walk here = segs.reverse ++ here := by
  induction segs generalizing here with
  | nil => rfl
  | cons seg segs ih =>
      rw [List.forall_mem_cons] at hsegs
      rw [List.foldl_cons, walk_of_ordinary hsegs.1, ih _ hsegs.2]
      simp

/-- A path is resolved if all its segments are ordinary. -/
theorem resolve_eq_self_iff : resolve segs = segs ↔ ∀ seg ∈ segs, Ordinary seg := by
  constructor
  · intro hsame seg hseg
    exact ordinary_of_mem_resolve (hsame.symm ▸ hseg)
  · intro hsegs
    rw [resolve, foldl_walk_of_ordinary [] hsegs, List.append_nil, List.reverse_reverse]

/-! ### Rendering -/

theorem render_eq_joined (hne : segs ≠ []) : render segs = '/' :: joined '/' segs := by
  fun_induction render segs with
  | case1 => exact absurd rfl hne
  | case2 seg => rfl
  | case3 seg segs hmore ih =>
      have hne : segs ≠ [] := fun hnil => hmore hnil
      rw [ih hne, joined]
      exact hmore

/-- A path is a slash and the segments joined, also where there are none. -/
theorem render_eq_rooted (segs : List (List Char)) : render segs = '/' :: joined '/' segs := by
  cases segs with
  | nil => rfl
  | cons seg segs => exact render_eq_joined (List.cons_ne_nil seg segs)

/-- Segments without slashes are told apart again. -/
theorem resolve_segments_joined (hplain : ∀ seg ∈ segs, '/' ∉ seg) :
    resolve (segments (joined '/' segs)) = resolve segs := by
  by_cases hne : segs = []
  · rw [hne]
    rfl
  · rw [segments, Text.pieces_joined hne hplain]

theorem render_eq_flatMap (hne : segs ≠ []) : render segs = segs.flatMap ('/' :: ·) := by
  fun_induction render segs with
  | case1 => exact absurd rfl hne
  | case2 seg => simp
  | case3 seg segs hmore ih =>
      have hne : segs ≠ [] := fun hnil => hmore hnil
      rw [ih hne, List.flatMap_cons, List.cons_append]

variable (rest : List Char)

/-- The first segment of an absolute path is empty and passed over. -/
theorem resolve_segments_cons : resolve (segments ('/' :: rest)) = resolve (segments rest) := rfl

/-- A path is put together again from its segments. -/
theorem render_segments : render (segments rest) = '/' :: rest := by
  rw [segments, render_eq_joined (Text.pieces_ne_nil '/' rest), Text.joined_pieces]

/-- Nothing is added to an absolute path. -/
theorem render_resolve_sublist :
    (render (resolve (segments ('/' :: rest)))).Sublist ('/' :: rest) := by
  rw [resolve_segments_cons]
  cases hresolve : resolve (segments rest) with
  | nil => exact (List.nil_sublist rest).cons_cons '/'
  | cons seg segs =>
      have hne : segments rest ≠ [] := Text.pieces_ne_nil '/' rest
      rw [← render_segments rest, ← hresolve, render_eq_flatMap (by simp [hresolve]),
        render_eq_flatMap hne]
      exact (resolve_sublist _).flatMap _

/-- An absolute path whose segments are all ordinary, or the root. -/
def Direct (cs : List Char) : Prop := cs = ['/'] ∨ ∀ seg ∈ (segments cs).tail, Ordinary seg

instance (cs : List Char) : Decidable (Direct cs) := by
  unfold Direct
  infer_instance

/-- An absolute path is its own canonical form exactly if it is direct. -/
theorem render_resolve_eq_self_iff :
    render (resolve (segments ('/' :: rest))) = '/' :: rest ↔ Direct ('/' :: rest) := by
  have hdirect : Direct ('/' :: rest) ↔ rest = [] ∨ ∀ seg ∈ segments rest, Ordinary seg := by
    simp [Direct, segments, pieces]
  rw [hdirect, resolve_segments_cons]
  constructor
  · intro hsame
    by_cases hroot : resolve (segments rest) = []
    · rw [hroot] at hsame
      exact Or.inl (List.cons.inj hsame).2.symm
    · -- cutting both sides again gives the segments back
      rw [render_eq_joined hroot] at hsame
      have hjoined := (List.cons.inj hsame).2
      have hplain : ∀ seg ∈ resolve (segments rest), '/' ∉ seg := fun seg hseg =>
        Text.not_mem_of_mem_pieces ((resolve_sublist _).mem hseg)
      have hpieces := Text.pieces_joined hroot hplain
      rw [hjoined] at hpieces
      exact Or.inr (resolve_eq_self_iff.mp hpieces.symm)
  · rintro (rfl | hordinary)
    · rfl
    · rw [resolve_eq_self_iff.mpr hordinary, render_segments]

end RouteGuard.Path
