import RouteGuard.Text.Pieces

/-! # Cutting and joining

The pieces of a text hold no separator, and joining pieces without separators
and cutting the result again gives the same pieces.
-/

namespace RouteGuard.Text

variable {separator : Char} {cs : List Char}

theorem pieces_of_not_mem (hcs : separator ∉ cs) : pieces separator cs = [cs] := by
  induction cs with
  | nil => rfl
  | cons c cs ih =>
      have hc : c ≠ separator := by
        rintro rfl
        exact hcs List.mem_cons_self
      have ih := ih fun hmem => hcs (List.mem_cons_of_mem _ hmem)
      simp [pieces, hc, ih]

theorem pieces_append_cons (hcs : separator ∉ cs) (rest : List Char) :
    pieces separator (cs ++ separator :: rest) = cs :: pieces separator rest := by
  induction cs with
  | nil => simp [pieces]
  | cons c cs ih =>
      have hc : c ≠ separator := by
        rintro rfl
        exact hcs List.mem_cons_self
      have ih := ih fun hmem => hcs (List.mem_cons_of_mem _ hmem)
      simp [pieces, hc, ih]

/-- A text is cut at every separator, so also at one between two texts. -/
theorem pieces_append_separator (cs others : List Char) :
    pieces separator (cs ++ separator :: others) =
      pieces separator cs ++ pieces separator others := by
  induction cs with
  | nil => simp [pieces]
  | cons c cs ih =>
      by_cases hc : c = separator
      · simp [pieces, hc, ih]
      · cases hpieces : pieces separator cs with
        | nil => exact absurd hpieces (pieces_ne_nil separator cs)
        | cons piece more => simp [pieces, hc, ih, hpieces]

/-- Pieces that were joined are taken apart again. -/
theorem pieces_joined {segs : List (List Char)} (hne : segs ≠ [])
    (hsegs : ∀ seg ∈ segs, separator ∉ seg) : pieces separator (joined separator segs) = segs := by
  fun_induction joined separator segs with
  | case1 => exact absurd rfl hne
  | case2 seg => exact pieces_of_not_mem (hsegs seg (by simp))
  | case3 seg segs hmore ih =>
      rw [List.forall_mem_cons] at hsegs
      have hne : segs ≠ [] := fun hnil => hmore hnil
      rw [pieces_append_cons hsegs.1, ih hne hsegs.2]

/-- No piece has the separator in it. -/
theorem not_mem_of_mem_pieces {seg : List Char} (hseg : seg ∈ pieces separator cs) :
    separator ∉ seg := by
  induction cs generalizing seg with
  | nil =>
      obtain rfl := List.mem_singleton.mp hseg
      exact List.not_mem_nil
  | cons c cs ih =>
      unfold pieces at hseg
      split at hseg
      · rcases List.mem_cons.mp hseg with rfl | hlater
        · exact List.not_mem_nil
        · exact ih hlater
      next hc =>
        cases hpieces : pieces separator cs with
        | nil => exact absurd hpieces (pieces_ne_nil separator cs)
        | cons piece more =>
            rw [hpieces] at hseg ih
            rcases List.mem_cons.mp hseg with rfl | hlater
            · rw [List.mem_cons, not_or]
              exact ⟨fun hsame => hc hsame.symm, ih List.mem_cons_self⟩
            · exact ih (List.mem_cons_of_mem _ hlater)

end RouteGuard.Text
