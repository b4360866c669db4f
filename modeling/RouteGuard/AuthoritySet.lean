import RouteGuard.Text.Blank

/-! # Sets of authority names

Authorities are compared by their trimmed names; a blank name is no authority.
A set keeps its names in increasing order, so two sets with the same members
are equal and print alike.
-/

namespace RouteGuard

theorem pairwise_no_names : ([] : List String).Pairwise (· < ·) := List.Pairwise.nil

/-- A finite set of names in increasing order. -/
structure AuthoritySet where
  names : List String := []
  increasing : names.Pairwise (· < ·) := by exact RouteGuard.pairwise_no_names
  deriving DecidableEq

namespace AuthoritySet

/-- Puts a name into an increasing list, unless it is there. -/
def insertName (name : String) : List String → List String
  | [] => [name]
  | n :: rest =>
    if name < n then name :: n :: rest
    else if n < name then n :: insertName name rest
    else n :: rest

theorem mem_insertName (name m : String) (ns : List String) :
    m ∈ insertName name ns ↔ m = name ∨ m ∈ ns := by
  induction ns with
  | nil => simp [insertName]
  | cons n rest ih =>
    by_cases hlt : name < n
    · simp [insertName, hlt]
    · by_cases hgt : n < name
      · simp only [insertName, if_neg hlt, if_pos hgt, List.mem_cons, ih]
        grind
      · have : name = n := String.le_antisymm hgt hlt
        subst this
        simp [insertName]

/-- The names stay sorted and distinct. -/
theorem pairwise_insertName (name : String) (ns : List String) (h : ns.Pairwise (· < ·)) :
    (insertName name ns).Pairwise (· < ·) := by
  induction ns with
  | nil => simp [insertName]
  | cons n rest ih =>
    obtain ⟨hn, hrest⟩ := List.pairwise_cons.1 h
    by_cases hlt : name < n
    · simp only [insertName, if_pos hlt]
      refine List.pairwise_cons.2 ⟨fun m hm => ?_, h⟩
      rcases List.mem_cons.1 hm with rfl | hm
      · exact hlt
      · exact String.lt_trans hlt (hn m hm)
    · by_cases hgt : n < name
      · simp only [insertName, if_neg hlt, if_pos hgt]
        refine List.pairwise_cons.2 ⟨fun m hm => ?_, ih hrest⟩
        rcases (mem_insertName name m rest).1 hm with rfl | hm
        · exact hgt
        · exact hn m hm
      · simpa [insertName, hlt, hgt] using h

/-- The set with the trimmed name added; a blank name adds nothing. -/
def insert (s : AuthoritySet) (name : String) : AuthoritySet :=
  if Text.isBlankText name then s
  else ⟨insertName (Text.trim name) s.names, pairwise_insertName _ _ s.increasing⟩

/-- Is the trimmed name a member? -/
def contains (s : AuthoritySet) (name : String) : Bool := s.names.contains (Text.trim name)

def isEmpty (s : AuthoritySet) : Bool := s.names.isEmpty

def size (s : AuthoritySet) : Nat := s.names.length

/-- The set with every name of the list added. -/
def insertMany (s : AuthoritySet) (names : List String) : AuthoritySet := names.foldl insert s

/-- The set of the names in a list. -/
def ofList (names : List String) : AuthoritySet := insertMany {} names

/-- Do the two sets share a name? The names of the smaller one are tried. -/
def intersects (s t : AuthoritySet) : Bool :=
  if s.size ≤ t.size then s.names.any t.names.contains else t.names.any s.names.contains

/-- Two sets intersect if they share a name. -/
theorem intersects_eq_true_iff (s t : AuthoritySet) :
    s.intersects t = true ↔ ∃ name ∈ s.names, name ∈ t.names := by
  unfold intersects
  split
  · simp
  · simp [and_comm]

/-- The members between braces, separated by commas. -/
def render (s : AuthoritySet) : String :=
  "\x7b" ++ String.intercalate ", " s.names ++ "\x7d"

/-- A trimmed name is a member after an insertion if it was one before, or is
the name inserted. -/
theorem mem_insert (s : AuthoritySet) (name m : String) :
    m ∈ (s.insert name).names ↔
      m ∈ s.names ∨ (Text.isBlankText name = false ∧ m = Text.trim name) := by
  by_cases h : Text.isBlankText name
  · simp [insert, h]
  · simp [insert, h, mem_insertName, or_comm]

end AuthoritySet

end RouteGuard
