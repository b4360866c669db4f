import RouteGuard.Pattern
import RouteGuard.Proofs.Glob.SegmentMeaning

/-! # What patterns of segments spell out

Without the segments that may be skipped a pattern is a path that it covers
itself, each wildcard standing for its own mark. Every path that is covered holds
all that the pattern spells out, so another pattern that covers this path too
spells out no more. The length of a pattern is what it spells out and its
wildcards.
-/

namespace RouteGuard

namespace Glob

/-- The byte is no wildcard mark. -/
def isFixed (b : UInt8) : Bool := b != 0x2A && b != 0x3F

/-- How much of a text is no wildcard mark. -/
def weight (bs : List UInt8) : Nat := bs.countP isFixed

/-- The character is a wildcard inside a segment. -/
def isSingle (c : Char) : Bool := c == '*' || c == '?'

/-- The segments that cannot be skipped. -/
def standing (segs : List (List Char)) : List (List Char) := segs.filter (· ≠ anySegments)

variable {seg : List Char} {segs : List (List Char)} {text : List UInt8}
  {texts : List (List UInt8)} {c : Char}

theorem standing_any (segs : List (List Char)) : standing (anySegments :: segs) = standing segs :=
  List.filter_cons_of_neg (by simp)

theorem standing_cons (hseg : seg ≠ anySegments) (segs : List (List Char)) :
    standing (seg :: segs) = seg :: standing segs :=
  List.filter_cons_of_pos (by simpa using hseg)

/-! ### Weights -/

@[simp] theorem weight_nil : weight [] = 0 := rfl

@[simp] theorem weight_append (bs others : List UInt8) :
    weight (bs ++ others) = weight bs + weight others := List.countP_append

@[simp] theorem weight_cons (b : UInt8) (bs : List UInt8) :
    weight (b :: bs) = weight bs + if isFixed b then 1 else 0 := List.countP_cons

/-- A character that is no wildcard mark has fixed bytes only. -/
theorem weight_encodeChar (hc : c ∉ ['*', '?']) :
    weight (String.utf8EncodeChar c) = (String.utf8EncodeChar c).length := by
  rw [weight, List.countP_eq_length]
  intro b hb
  rw [isFixed, Bool.and_eq_true, bne_iff_ne, bne_iff_ne]
  constructor
  · rintro rfl
    have hsame : c.toNat = '*'.toNat := Text.toNat_of_mem_encodeChar hb (by decide)
    obtain rfl := Char.toNat_inj.mp hsame
    exact hc (by decide)
  · rintro rfl
    have hsame : c.toNat = '?'.toNat := Text.toNat_of_mem_encodeChar hb (by decide)
    obtain rfl := Char.toNat_inj.mp hsame
    exact hc (by decide)

/-- A segment is as long as its fixed bytes and its wildcards together. -/
theorem length_encode (seg : List Char) :
    (Text.encode seg).length = weight (Text.encode seg) + seg.countP isSingle := by
  induction seg with
  | nil => rfl
  | cons c seg ih =>
      rw [Text.encode_cons, List.length_append, weight_append, List.countP_cons, ih]
      by_cases hc : c ∈ ['*', '?']
      · have hmark : (String.utf8EncodeChar c).length = 1 ∧ isSingle c = true ∧
            weight (String.utf8EncodeChar c) = 0 := by
          rcases List.mem_pair.mp hc with rfl | rfl <;> decide
        simp only [hmark, if_true]
        omega
      · have hmark : isSingle c = false := by simpa [isSingle] using hc
        simp only [weight_encodeChar hc, hmark, Bool.false_eq_true, if_false]
        omega

/-- A segment has no more fixed bytes than any text it spells. -/
theorem SegmentSpells.weight_le (hspells : SegmentSpells seg text) :
    weight (Text.encode seg) ≤ weight text := by
  induction hspells with
  | nil => exact Nat.le_refl 0
  | run _ _ ih =>
      have hmark : weight (String.utf8EncodeChar '*') = 0 := by decide
      rw [Text.encode_cons, weight_append, weight_append, hmark]
      omega
  | byte _ _ ih =>
      have hmark : weight (String.utf8EncodeChar '?') = 0 := by decide
      rw [Text.encode_cons, weight_append, weight_cons, hmark]
      omega
  | char _ _ ih =>
      rw [Text.encode_cons, weight_append, weight_append]
      omega

/-- A path pattern has no more fixed bytes than any path it spells. -/
theorem PathSpells.weight_le (hspells : PathSpells segs texts) :
    weight (slashed ((standing segs).map Text.encode)) ≤ weight (slashed texts) := by
  induction hspells with
  | nil => exact Nat.le_refl 0
  | skip _ ih =>
      rw [slashed_append, weight_append, standing_any]
      exact Nat.le_trans ih (Nat.le_add_left _ _)
  | segment hseg hfirst _ ih =>
      have hweight := hfirst.weight_le
      rw [standing_cons hseg, List.map_cons]
      simp only [slashed_cons, weight_cons, weight_append]
      omega

/-! ### A path of its own -/

/-- Every segment spells its own text. -/
theorem segmentSpells_self (seg : List Char) : SegmentSpells seg (Text.encode seg) := by
  induction seg with
  | nil => exact .nil
  | cons c seg ih =>
      by_cases hstar : c = '*'
      · subst hstar
        exact @SegmentSpells.run _ [0x2A] _ (by decide) ih
      · by_cases hbyte : c = '?'
        · subst hbyte
          exact .byte (by decide) ih
        · exact .char (by simp [hstar, hbyte]) ih

/-- A path pattern spells the segments it has besides the `**`. -/
theorem pathSpells_standing (segs : List (List Char)) :
    PathSpells segs ((standing segs).map Text.encode) := by
  induction segs with
  | nil => exact .nil
  | cons seg segs ih =>
      by_cases hseg : seg = anySegments
      · subst hseg
        exact @PathSpells.skip _ [] _ ih
      · rw [standing_cons hseg]
        exact .segment hseg (segmentSpells_self seg) ih

/-- Every segment besides the `**` takes one of the path. -/
theorem PathSpells.length_le (hspells : PathSpells segs texts) :
    (standing segs).length ≤ texts.length := by
  induction hspells with
  | nil => exact Nat.le_refl 0
  | skip _ ih =>
      rw [standing_any, List.length_append]
      omega
  | segment hseg _ _ ih =>
      rw [standing_cons hseg, List.length_cons, List.length_cons]
      omega

/-- No segment goes unused but those that may be skipped. -/
theorem PathSpells.exists_mem (hspells : PathSpells segs texts) :
    ∀ seg ∈ standing segs, ∃ text ∈ texts, SegmentSpells seg text := by
  induction hspells with
  | nil => exact List.forall_mem_nil _
  | skip _ ih =>
      rw [standing_any]
      intro seg hseg
      obtain ⟨text, htext, hspells⟩ := ih seg hseg
      exact ⟨text, List.mem_append_right _ htext, hspells⟩
  | segment hseg hfirst _ ih =>
      rw [standing_cons hseg, List.forall_mem_cons]
      refine ⟨⟨_, List.mem_cons_self, hfirst⟩, fun seg hseg => ?_⟩
      obtain ⟨text, htext, hspells⟩ := ih seg hseg
      exact ⟨text, List.mem_cons_of_mem _ htext, hspells⟩

/-- Only the pattern for everything has no segment that takes one of a path. -/
theorem Segmented.eq_any (hsegs : Segmented segs) (hne : segs ≠ []) (hnone : standing segs = []) :
    segs = [anySegments] := by
  have hall : ∀ seg ∈ segs, seg = anySegments := by
    simpa [standing] using hnone
  match segs, hne with
  | [seg], _ => rw [hall seg List.mem_cons_self]
  | seg :: next :: segs, _ =>
      rw [hall seg List.mem_cons_self] at hsegs
      exact absurd (hall next (by simp)) hsegs.second.ne_anySegments

end Glob

/-! ### Counting -/

namespace Wildcards

open Glob

variable {seg : List Char} {segs : List (List Char)} {c : Char} {cs : List Char}

/-- A character that neither hides the next one nor pairs with it is counted by
itself. -/
theorem count_cons (hc : c ≠ '\\') (hcs : c = '*' → cs.head? ≠ some '*') :
    count (c :: cs) =
      if c = '*' ∨ c = '?' ∨ c = '[' ∨ c = '{' then
        { count cs with single := (count cs).single + 1 }
      else count cs := by
  rw [count.eq_def]
  split
  next hnil => cases hnil
  next hsame => exact absurd (List.cons.inj hsame).1 hc
  next hsame =>
    obtain ⟨hstar, hrest⟩ := List.cons.inj hsame
    exact absurd (by rw [hrest]; rfl) (hcs hstar)
  next hsame =>
    obtain ⟨rfl, rfl⟩ := List.cons.inj hsame
    rfl

theorem count_of_unmarked (hc : c ∉ ['\\', '*', '?', '[', '{']) : count (c :: cs) = count cs := by
  simp only [List.mem_cons, List.not_mem_nil, or_false, not_or] at hc
  rw [count_cons hc.1 fun hstar => absurd hstar hc.2.1, if_neg (by simp [hc])]

/-- Two stars that no third one follows count as one double wildcard. -/
theorem count_stars (hcs : cs.head? ≠ some '*') :
    count ('*' :: '*' :: cs) = { count cs with double := (count cs).double + 1 } := by
  have hrest : cs.dropWhile (· == '*') = cs := by
    cases cs with
    | nil => rfl
    | cons c cs =>
      have hc : c ≠ '*' := by simpa using hcs
      simp [hc]
  rw [count.eq_def]
  simp [hrest]

theorem count_simple_append (hseg : Simple seg) (segs : List (List Char)) :
    count (seg ++ pathText segs) =
      { count (pathText segs) with
        single := (count (pathText segs)).single + seg.countP isSingle } := by
  induction seg with
  | nil => rfl
  | cons c seg ih =>
      obtain ⟨hstars, _⟩ := apart_cons_iff.mp hseg.stars
      rw [List.cons_append, List.countP_cons]
      by_cases hstar : c = '*'
      · subst hstar
        rw [count_cons (by decide) fun _ => head?_append_pathText_ne (hstars rfl) segs,
          ih hseg.tail]
        rfl
      · by_cases hbyte : c = '?'
        · subst hbyte
          rw [count_cons (by decide) fun hstar => absurd hstar (by decide), ih hseg.tail]
          rfl
        · have hplain := hseg.plain c List.mem_cons_self
          have hmark : c ∉ ['\\', '*', '?', '[', '{'] := by
            simp only [List.mem_cons, List.not_mem_nil, or_false, not_or] at hplain ⊢
            exact ⟨hplain.2.2.2.2.2, hstar, hbyte, hplain.2.1, hplain.2.2.2.1⟩
          have hsingle : isSingle c = false := by simp [isSingle, hstar, hbyte]
          rw [count_of_unmarked hmark, ih hseg.tail, hsingle]
          rfl

theorem count_any (segs : List (List Char)) :
    count (pathText (anySegments :: segs)) =
      { count (pathText segs) with double := (count (pathText segs)).double + 1 } := by
  have htext : pathText (anySegments :: segs) = '/' :: '*' :: '*' :: pathText segs := rfl
  have hhead : (pathText segs).head? ≠ some '*' := @head?_append_pathText_ne [] (by simp) segs
  rw [htext, count_of_unmarked (by decide), count_stars hhead]

/-- A simple segment adds its single wildcards to the count. -/
theorem count_simple (hseg : Simple seg) (segs : List (List Char)) :
    count (pathText (seg :: segs)) =
      { count (pathText segs) with
        single := (count (pathText segs)).single + seg.countP isSingle } := by
  have htext : pathText (seg :: segs) = '/' :: (seg ++ pathText segs) := rfl
  rw [htext, count_of_unmarked (by decide), count_simple_append hseg]

end Wildcards

/-- The length of a pattern is told by what it spells out and by its wildcards. -/
theorem Glob.Segmented.length_encode_pathText (hsegs : Segmented segs) :
    (Text.encode (pathText segs)).length =
      weight (slashed ((standing segs).map Text.encode)) +
        (Wildcards.count (pathText segs)).single +
        3 * (Wildcards.count (pathText segs)).double := by
  induction segs with
  | nil => simp [pathText, standing, slashed, Wildcards.count]
  | cons seg segs ih =>
      have ih := ih hsegs.tail
      by_cases hseg : seg = anySegments
      · have htext : Text.encode (pathText (seg :: segs)) =
            [0x2F, 0x2A, 0x2A] ++ Text.encode (pathText segs) := by rw [hseg]; rfl
        rw [htext, List.length_append, ih, hseg, Wildcards.count_any, standing_any]
        simp only [List.length_cons, List.length_nil]
        omega
      · have htext : Text.encode (pathText (seg :: segs)) =
            0x2F :: (Text.encode seg ++ Text.encode (pathText segs)) := by
          rw [← Text.encode_append]; rfl
        rw [htext, List.length_cons, List.length_append, ih, length_encode,
          Wildcards.count_simple (hsegs.head hseg), standing_cons hseg, List.map_cons,
          slashed_cons, weight_cons, weight_append]
        simp only [show isFixed 0x2F = true from rfl, if_true]
        omega

end RouteGuard
