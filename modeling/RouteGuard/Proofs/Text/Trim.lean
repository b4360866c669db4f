import RouteGuard.Text.Blank

/-! # Trimmed texts

A trimmed text has no blank at either end, so trimming it again changes nothing.
-/

namespace RouteGuard.Text

theorem dropWhile_eq_self {α : Type} {p : α → Bool} {xs : List α}
    (hhead : ∀ x rest, xs = x :: rest → p x = false) : xs.dropWhile p = xs := by
  cases xs with
  | nil => rfl
  | cons x rest => simp [hhead x rest rfl]

theorem head_dropWhile {α : Type} {p : α → Bool} {xs rest : List α} {x : α}
    (hdrop : xs.dropWhile p = x :: rest) : p x = false := by
  have hnot := List.head?_dropWhile_not p xs
  simpa [hdrop] using hnot

/-- A trimmed text does not start with white space. -/
theorem isBlank_head_trimChars {cs rest : List Char} {c : Char}
    (htrim : trimChars cs = c :: rest) : isBlank c = false := by
  -- what is left is the beginning of the text without its leading blanks
  have hparts := List.takeWhile_append_dropWhile (p := isBlank)
    (l := (cs.dropWhile isBlank).reverse)
  have hbegin : cs.dropWhile isBlank =
      trimChars cs ++ ((cs.dropWhile isBlank).reverse.takeWhile isBlank).reverse := by
    rw [trimChars, ← List.reverse_append, hparts, List.reverse_reverse]
  rw [htrim, List.cons_append] at hbegin
  exact head_dropWhile hbegin

/-- A trimmed text does not end with white space. -/
theorem isBlank_last_trimChars {cs rest : List Char} {c : Char}
    (htrim : (trimChars cs).reverse = c :: rest) : isBlank c = false := by
  rw [trimChars, List.reverse_reverse] at htrim
  exact head_dropWhile htrim

/-- A text without white space at either end is trimmed already. -/
theorem trimChars_eq_self {cs : List Char} (hfront : ∀ c rest, cs = c :: rest → isBlank c = false)
    (hback : ∀ c rest, cs.reverse = c :: rest → isBlank c = false) : trimChars cs = cs := by
  rw [trimChars, dropWhile_eq_self hfront, dropWhile_eq_self hback, List.reverse_reverse]

theorem trimChars_trimChars (cs : List Char) : trimChars (trimChars cs) = trimChars cs :=
  trimChars_eq_self (fun _ _ => isBlank_head_trimChars) fun _ _ => isBlank_last_trimChars

/-- Trimming twice is trimming once. -/
theorem trim_trim (s : String) : trim (trim s) = trim s := by
  simp [trim, trimChars_trimChars]

theorem isBlankText_trim (s : String) : isBlankText (trim s) = isBlankText s := by
  rw [Bool.eq_iff_iff, isBlankText, isBlankText, ← trimChars_eq_nil_iff, ← trimChars_eq_nil_iff,
    trim, String.toList_ofList, trimChars_trimChars]

/-- A text is blank if nothing is left of it. -/
theorem isBlankText_eq_false_iff (s : String) : isBlankText s = false ↔ trim s ≠ "" := by
  rw [← Bool.not_eq_true, isBlankText, ← trimChars_eq_nil_iff, trim, ne_eq,
    String.ofList_eq_empty_iff]

end RouteGuard.Text
