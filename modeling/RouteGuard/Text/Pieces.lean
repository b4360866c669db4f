/-! # Pieces between separators

A text is cut at every separator. There is always one piece more than there are
separators, so pieces may be empty, and joining them gives the text back.
-/

namespace RouteGuard.Text

/-- The pieces of a text between the separators. -/
def pieces (separator : Char) : List Char → List (List Char)
  | [] => [[]]
  | c :: rest =>
    if c = separator then [] :: pieces separator rest
    else
      match pieces separator rest with
      | [] => [[c]]
      | piece :: more => (c :: piece) :: more

/-- Pieces with the separator between each two. -/
def joined (separator : Char) : List (List Char) → List Char
  | [] => []
  | [piece] => piece
  | piece :: more => piece ++ separator :: joined separator more

theorem pieces_ne_nil (separator : Char) (cs : List Char) : pieces separator cs ≠ [] := by
  cases cs with
  | nil => simp [pieces]
  | cons c rest =>
    unfold pieces
    split
    · simp
    · split <;> simp

/-- Joining the pieces of a text gives the text back. -/
theorem joined_pieces (separator : Char) (cs : List Char) :
    joined separator (pieces separator cs) = cs := by
  induction cs with
  | nil => rfl
  | cons c rest ih =>
    unfold pieces
    by_cases hc : c = separator
    · subst hc
      cases h : pieces c rest with
      | nil => exact absurd h (pieces_ne_nil c rest)
      | cons piece more => simp_all [joined]
    · cases h : pieces separator rest with
      | nil => exact absurd h (pieces_ne_nil separator rest)
      | cons piece more =>
        cases more <;> simp_all [joined]

def split (separator : Char) (s : String) : List String :=
  (pieces separator s.toList).map String.ofList

end RouteGuard.Text
