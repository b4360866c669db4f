import RouteGuard.Pattern

/-! # The order of preference

Patterns are compared by five keys in turn. The comparison is a total order up
to the text, so of several patterns with different texts one stands first.
-/

namespace RouteGuard.Pattern

open Std

/-- The comparison as a lexicographic one. Longer texts come first. -/
theorem precedence_eq : precedence =
    compareLex (compareLex (compareLex (compareLex (compareOn isCatchAll)
      (compareOn fun p => p.wildcards.double)) (compareOn fun p => p.wildcards.single))
      fun p q => compareOn (fun p : Pattern => p.text.utf8ByteSize) q p)
      (compareOn text) := rfl

instance : TransCmp precedence := by
  rw [precedence_eq]
  infer_instance

/-- Patterns of the same precedence have the same text. -/
theorem text_eq_of_precedence {p q : Pattern} (hsame : p.precedence q = .eq) :
    p.text = q.text := by
  rw [precedence_eq, compareLex_eq_eq] at hsame
  exact LawfulEqOrd.eq_of_compare hsame.2

theorem atLeastAsSpecific_trans (p q r : Pattern) (hpq : p.atLeastAsSpecific q = true)
    (hqr : q.atLeastAsSpecific r = true) : p.atLeastAsSpecific r = true :=
  TransCmp.isLE_trans hpq hqr

theorem atLeastAsSpecific_total (p q : Pattern) :
    (p.atLeastAsSpecific q || q.atLeastAsSpecific p) = true := by
  have hswap : q.precedence p = (p.precedence q).swap := OrientedCmp.eq_swap
  rw [atLeastAsSpecific, atLeastAsSpecific, hswap]
  cases p.precedence q <;> rfl

/-- Of two patterns with different texts one stands strictly before the other. -/
theorem precedence_of_atLeastAsSpecific {p q : Pattern} (hle : p.atLeastAsSpecific q = true)
    (hne : p.text ≠ q.text) : p.precedence q = .lt := by
  rw [atLeastAsSpecific] at hle
  cases hprecedence : p.precedence q with
  | lt => rfl
  | eq => exact absurd (text_eq_of_precedence hprecedence) hne
  | gt => rw [hprecedence] at hle; cases hle

end RouteGuard.Pattern
