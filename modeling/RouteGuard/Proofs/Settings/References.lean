import Mathlib.Data.List.Basic
import RouteGuard.Proofs.Text.Pieces
import RouteGuard.Settings.Environment

/-! # References in a text

How a text with references is to be read: a dollar sign with a name in braces is
one part, and every other character is a part of its own. No two readings of a
text differ. A line is expanded part by part, up to a hash sign.
-/

namespace RouteGuard.Settings

/-! ### Parts -/

inductive Part
  | plain (c : Char)
  /-- what stands between the braces of a reference -/
  | reference (name : List Char)

/-- A text that starts with a dollar sign and a name in braces. The name is not
empty and ends at the first closing brace. -/
def StartsReference (cs : List Char) : Prop :=
  ∃ name rest, name ≠ [] ∧ '\x7d' ∉ name ∧ cs = '$' :: '\x7b' :: (name ++ '\x7d' :: rest)

/-- The parts of a text, from left to right: a reference wherever one starts. -/
inductive Reads : List Char → List Part → Prop
  | nil : Reads [] []
  | reference {name rest : List Char} {parts : List Part} (named : name ≠ [])
      (closed : '\x7d' ∉ name) (later : Reads rest parts) :
      Reads ('$' :: '\x7b' :: (name ++ '\x7d' :: rest)) (.reference name :: parts)
  | plain {c : Char} {rest : List Char} {parts : List Part}
      (unstarted : ¬StartsReference (c :: rest)) (later : Reads rest parts) :
      Reads (c :: rest) (.plain c :: parts)

/-- The names in the references among some parts. -/
def references (parts : List Part) : List String :=
  parts.filterMap fun
    | .plain _ => none
    | .reference name => some (String.ofList name)

/-- What is put in place of a part. -/
def Part.filled (env : Environment) : Part → List Char
  | plain c => [c]
  | reference name => ((env.value? (String.ofList name)).map String.toList).getD []

/-- The first of some names that has no value. -/
def firstUnset? (env : Environment) (names : List String) : Option String :=
  names.find? fun name => (env.value? name).isNone

/-- The parts with values in place of the references. -/
def fill (env : Environment) (parts : List Part) : Except Unset (List Char) :=
  match firstUnset? env (references parts) with
  | some name => .error ⟨name⟩
  | none => .ok (parts.flatMap (·.filled env))

variable {env : Environment} {cs name rest : List Char} {parts : List Part}

/-! ### Readings -/

/-- A reference is what stands in front of the first closing brace, unless that is nothing. -/
theorem reference?_eq_some_iff :
    reference? cs = some (name, rest) ↔
      name ≠ [] ∧ '\x7d' ∉ name ∧ cs = name ++ '\x7d' :: rest := by
  constructor
  · intro hreference
    have hparts := List.takeWhile_append_dropWhile (p := (· ≠ '\x7d')) (l := cs)
    have hclosed : ∀ c ∈ cs.takeWhile (· ≠ '\x7d'), decide (c ≠ '\x7d') = true :=
      List.all_eq_true.mp List.all_takeWhile
    have hbrace := List.head?_dropWhile_not (· ≠ '\x7d') cs
    unfold reference? at hreference
    split at hreference
    next => cases hreference
    next => cases hreference
    next hdrop hnamed =>
      cases hreference
      rw [hdrop] at hparts hbrace
      obtain rfl : _ = '\x7d' := by simpa using hbrace
      exact ⟨hnamed, fun hmem => by simpa using hclosed _ hmem, hparts.symm⟩
  · rintro ⟨hnamed, hclosed, rfl⟩
    have hall : ∀ c ∈ name, decide (c ≠ '\x7d') = true := by
      intro c hc
      have hne : c ≠ '\x7d' := fun hbrace => hclosed (hbrace ▸ hc)
      simp [hne]
    unfold reference?
    rw [List.takeWhile_append_of_pos hall, List.dropWhile_append_of_pos hall]
    cases name <;> simp_all

/-- Texts in front of the first brace. -/
theorem append_brace_inj {other more : List Char} (hclosed : '\x7d' ∉ name)
    (hother : '\x7d' ∉ other) (hsame : name ++ '\x7d' :: rest = other ++ '\x7d' :: more) :
    name = other ∧ rest = more := by
  have hpieces := congrArg (Text.pieces '\x7d') hsame
  rw [Text.pieces_append_cons hclosed, Text.pieces_append_cons hother] at hpieces
  obtain rfl := (List.cons.inj hpieces).1
  exact ⟨rfl, (List.cons.inj (List.append_cancel_left hsame)).2⟩

/-- A text has one reading only. -/
theorem Reads.unique {others : List Part} (hreads : Reads cs parts) (hother : Reads cs others) :
    others = parts := by
  induction hreads generalizing others with
  | nil => cases hother; rfl
  | reference hnamed hclosed _ ih =>
      generalize htext : '$' :: '\x7b' :: (_ ++ '\x7d' :: _) = text at hother
      cases hother with
      | nil => cases htext
      | reference _ hother hlater =>
          simp only [List.cons.injEq, true_and] at htext
          obtain ⟨rfl, rfl⟩ := append_brace_inj hclosed hother htext
          rw [ih hlater]
      | plain hunstarted _ => exact absurd ⟨_, _, hnamed, hclosed, htext.symm⟩ hunstarted
  | plain hunstarted _ ih =>
      cases hother with
      | reference hnamed hclosed _ => exact absurd ⟨_, _, hnamed, hclosed, rfl⟩ hunstarted
      | plain _ hlater => rw [ih hlater]

/-- Every text can be read. -/
theorem exists_reads (cs : List Char) : ∃ parts, Reads cs parts := by
  induction hlength : cs.length using Nat.strongRecOn generalizing cs with
  | _ n ih =>
    subst hlength
    by_cases hstarts : StartsReference cs
    · obtain ⟨name, rest, hnamed, hclosed, rfl⟩ := hstarts
      obtain ⟨parts, hlater⟩ := ih rest.length (by simp; omega) rest rfl
      exact ⟨_, .reference hnamed hclosed hlater⟩
    · cases cs with
      | nil => exact ⟨[], .nil⟩
      | cons c rest =>
          obtain ⟨parts, hlater⟩ := ih rest.length (by simp) rest rfl
          exact ⟨_, .plain hstarts hlater⟩

/-! ### Expansion, part by part -/

/-- From a `#` on the line is left as it is. -/
theorem expandLine_hash (rest : List Char) : expandLine env ('#' :: rest) = .ok ('#' :: rest) := by
  rw [expandLine]
  · simp
  · intro _ hdollar
    exact absurd hdollar (by decide)

theorem expandLine_cons {c : Char} (hunopened : ∀ tail, c = '$' → rest = '\x7b' :: tail → False)
    (hhash : c ≠ '#') : expandLine env (c :: rest) = (expandLine env rest).map (c :: ·) := by
  rw [expandLine, if_neg hhash]
  · cases expandLine env rest <;> rfl
  · exact hunopened

/-- A character that starts no reference is kept. -/
theorem expandLine_plain {c : Char} (hunstarted : ¬StartsReference (c :: rest)) (hhash : c ≠ '#') :
    expandLine env (c :: rest) = (expandLine env rest).map (c :: ·) := by
  by_cases hopened : ∃ tail, c = '$' ∧ rest = '\x7b' :: tail
  · -- the brace is passed over together with the dollar sign
    obtain ⟨tail, rfl, rfl⟩ := hopened
    have hnone : reference? tail = none := by
      rw [Option.eq_none_iff_forall_ne_some]
      rintro ⟨name, rest⟩ hreference
      obtain ⟨hnamed, hclosed, rfl⟩ := reference?_eq_some_iff.mp hreference
      exact hunstarted ⟨name, rest, hnamed, hclosed, rfl⟩
    rw [expandLine_cons (c := '\x7b') (fun _ hdollar => absurd hdollar (by decide)) (by decide),
      expandLine]
    split
    next => cases expandLine env tail <;> rfl
    next hreference => rw [hnone] at hreference; cases hreference
  · exact expandLine_cons (fun tail hdollar hrest => hopened ⟨tail, hdollar, hrest⟩) hhash

/-- A reference is replaced, and a `#` in its name ends the expansion. -/
theorem expandLine_reference (hnamed : name ≠ []) (hclosed : '\x7d' ∉ name) :
    expandLine env ('$' :: '\x7b' :: (name ++ '\x7d' :: rest)) =
      match env.value? (String.ofList name) with
      | none => .error ⟨String.ofList name⟩
      | some value =>
        if '#' ∈ name then .ok (value.toList ++ rest)
        else (expandLine env rest).map (value.toList ++ ·) := by
  have hreference : reference? (name ++ '\x7d' :: rest) = some (name, rest) :=
    reference?_eq_some_iff.mpr ⟨hnamed, hclosed, rfl⟩
  rw [expandLine]
  split
  next hnone => rw [hnone] at hreference; cases hreference
  next hsome =>
    rw [hsome] at hreference
    cases hreference
    cases env.value? (String.ofList name) with
    | none => rfl
    | some value =>
        simp only [List.contains_eq_mem, decide_eq_true_eq]
        split
        · rfl
        · cases expandLine env rest <;> rfl

end RouteGuard.Settings
