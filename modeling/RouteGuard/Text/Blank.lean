/-! # Blank characters

Names, patterns and header values are compared after the blank characters at
both ends are cut away. Blank means the white-space property of the character
standard, which is wider than the ASCII blanks and leaves out the zero-width
characters.
-/

namespace RouteGuard.Text

/-- First and last code point of each block with the white-space property. -/
def blankBlocks : List (Nat × Nat) :=
  [(0x9, 0xD), (0x20, 0x20), (0x85, 0x85), (0xA0, 0xA0), (0x1680, 0x1680), (0x2000, 0x200A),
   (0x2028, 0x2029), (0x202F, 0x202F), (0x205F, 0x205F), (0x3000, 0x3000)]

/-- Does some block hold the code point `n`? Both ends belong to a block. -/
def inBlocks (blocks : List (Nat × Nat)) (n : Nat) : Bool :=
  blocks.any fun block => block.1 ≤ n && n ≤ block.2

def isBlank (c : Char) : Bool := inBlocks blankBlocks c.toNat

/-- The text without the blanks at its start and at its end; blanks between
other characters stay. -/
def trimChars (cs : List Char) : List Char :=
  ((cs.dropWhile isBlank).reverse.dropWhile isBlank).reverse

def trim (s : String) : String := String.ofList (trimChars s.toList)

/-- A text of blanks only, the empty text among them. -/
def isBlankText (s : String) : Bool := s.toList.all isBlank

theorem dropWhile_eq_nil_iff_all {α : Type} (p : α → Bool) (xs : List α) :
    xs.dropWhile p = [] ↔ xs.all p = true := by
  induction xs with
  | nil => simp
  | cons x xs ih => by_cases h : p x <;> simp [List.dropWhile, h, ih]

/-- Nothing is left of a text exactly when all of it is blank. -/
theorem trimChars_eq_nil_iff (cs : List Char) : trimChars cs = [] ↔ cs.all isBlank = true := by
  constructor
  · intro h
    have hdrop := (dropWhile_eq_nil_iff_all isBlank _).1 (List.reverse_eq_nil_iff.1 h)
    rw [List.all_reverse] at hdrop
    cases hcs : cs.dropWhile isBlank with
    | nil => exact (dropWhile_eq_nil_iff_all isBlank cs).1 hcs
    | cons c rest =>
      have hhead := List.head?_dropWhile_not isBlank cs
      simp [hcs] at hhead hdrop
      simp [hhead] at hdrop
  · intro h
    simp [trimChars, (dropWhile_eq_nil_iff_all isBlank cs).2 h]

end RouteGuard.Text
