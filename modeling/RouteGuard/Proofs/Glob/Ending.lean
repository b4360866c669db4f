import Mathlib.Algebra.Ring.Parity
import Mathlib.Data.List.Induction
import RouteGuard.Proofs.Glob.SegmentReading

/-! # How texts end for the reader

What the reader is in the middle of after a text shows at the end of that text:
one star, two stars, an odd number of backslashes. Only a class hides it. Behind
a text that leaves no class open a slash ends whatever is waiting, so a slash and
two stars can always be read there.
-/

namespace RouteGuard.Glob

theorem map_eq_ok_iff {ε α β : Type} {f : α → β} {x : Except ε α} {y : β} :
    x.map f = .ok y ↔ ∃ a, x = .ok a ∧ f a = y := by
  cases x <;> simp [Except.map]

/-- How many backslashes stand at the end of a text. -/
def finalBackslashes (cs : List Char) : Nat := (cs.reverse.takeWhile (· == '\\')).length

namespace Reader

variable {r next : Reader} {c : Char} {cs front : List Char} {before : Option Char}
  {out : List Piece}

theorem foldlM_read_append_iff {first rest : List Char} :
    (first ++ rest).foldlM read r = .ok next ↔
      ∃ mid, first.foldlM read r = .ok mid ∧ rest.foldlM read mid = .ok next := by
  rw [List.foldlM_append]
  cases first.foldlM read r <;> simp [bind, Except.bind]

theorem foldlM_read_singleton : [c].foldlM read r = r.read c := by
  cases hread : r.read c <;> simp [hread, bind, Except.bind, pure, Except.pure]

theorem readAll_eq_ok_iff :
    r.readAll cs = .ok out ↔ ∃ last, cs.foldlM read r = .ok last ∧ last.finish = .ok out := by
  rw [readAll]
  cases cs.foldlM read r <;> simp [bind, Except.bind]

theorem last_read (hread : r.read c = .ok next) : next.last = some c := by
  obtain ⟨mid, _, rfl⟩ := map_eq_ok_iff.mp hread
  rfl

/-! ### Classes -/

/-- The reader is inside a character class. -/
def InClass (r : Reader) : Prop := r.mode = .classOpen ∨ ∃ k, r.mode = .inClass k

/-- A class is left at its closing bracket. -/
theorem mode_readClass {k : OpenClass} (hread : r.readClass k c = .ok next) :
    (c = ']' ∧ next.mode = .plain) ∨ next.InClass := by
  unfold readClass at hread
  split at hread
  next hclose =>
    cases hread
    exact Or.inl ⟨hclose.2, rfl⟩
  · split at hread
    · cases hread
      exact Or.inr (Or.inr ⟨_, rfl⟩)
    · obtain ⟨added, _, rfl⟩ := map_eq_ok_iff.mp hread
      exact Or.inr (Or.inr ⟨_, rfl⟩)

/-- Only a bracket leads out of a class. -/
theorem InClass.mode_read (hr : r.InClass) (hread : r.read c = .ok next) :
    (c = ']' ∧ next.mode = .plain) ∨ next.InClass := by
  obtain ⟨mid, hmid, rfl⟩ := map_eq_ok_iff.mp hread
  have hmode : (c = ']' ∧ mid.mode = .plain) ∨ mid.InClass := by
    obtain hmode | ⟨k, hmode⟩ := hr
    · simp only [hmode] at hmid
      split at hmid
      · cases hmid
        exact Or.inr (Or.inr ⟨_, rfl⟩)
      · exact mode_readClass hmid
    · simp only [hmode] at hmid
      exact mode_readClass hmid
  exact hmode

/-- Without a closing bracket the reader stays in the class. -/
theorem InClass.foldlM (hr : r.InClass) (hcs : ']' ∉ cs)
    (hread : cs.foldlM Reader.read r = .ok next) : next.InClass := by
  induction cs generalizing r with
  | nil =>
      cases hread
      exact hr
  | cons c cs ih =>
      rw [List.mem_cons, not_or] at hcs
      rw [← List.singleton_append, foldlM_read_append_iff, foldlM_read_singleton] at hread
      obtain ⟨mid, hmid, hrest⟩ := hread
      exact ih ((hr.mode_read hmid).resolve_left fun hclose => hcs.1 hclose.1.symm) hcs.2 hrest

/-- A class that is still open at the end is a fault. -/
theorem InClass.finish (hr : r.InClass) : r.finish = .error .unclosedClass := by
  obtain hmode | ⟨k, hmode⟩ := hr <;> simp [Reader.finish, hmode, bind, Except.bind]

/-! ### Two stars -/

/-- What two stars can be settled as. They take no other character along than a
slash. -/
inductive Settled (r : Reader) (follower : Option Char) : Reader × Bool → Prop
  | runs : Settled r follower ((r.push .anyRun).push .anyRun, false)
  | leading (hpieces : r.pieces = []) (hend : follower = none ∨ follower = some '/') :
      Settled r follower (r.push .leadingSegments, true)
  | segments {p : Piece} {taken : Bool} (hpieces : r.pieces ≠ [])
      (hp : p = .trailingSegments ∨ p = .innerSegments)
      (hend : taken = true → follower = none ∨ follower = some '/') :
      Settled r follower (r.pushSegments p, taken)

theorem settled (r : Reader) (before follower : Option Char) :
    Settled r follower (r.settle before follower) := by
  unfold settle
  dsimp only
  split
  next hpieces =>
    split
    next hend => exact .leading hpieces hend
    · exact .runs
  next hpieces =>
    split
    · split
      next hend => exact .segments hpieces (Or.inl rfl) fun _ => Or.inl hend
      · split
        · exact .segments hpieces (Or.inl rfl) nofun
        · split
          next hslash => exact .segments hpieces (Or.inr rfl) fun _ => Or.inr hslash
          · exact .runs
    · exact .runs

theorem exists_pushSegments (r : Reader) (p : Piece) :
    ∃ pieces, pieces ≠ [] ∧ r.pushSegments p = { r with pieces, mode := .plain } := by
  unfold pushSegments
  split
  next rest hpieces => exact ⟨r.pieces, by simp [hpieces], rfl⟩
  next rest hpieces => exact ⟨r.pieces, by simp [hpieces], rfl⟩
  next top rest _ _ hpieces => exact ⟨p :: rest, List.cons_ne_nil _ _, rfl⟩
  next hpieces => exact ⟨p :: r.pieces, List.cons_ne_nil _ _, rfl⟩

theorem exists_settle (r : Reader) (before follower : Option Char) :
    ∃ pieces taken, r.settle before follower = ({ r with pieces, mode := .plain }, taken) ∧
      pieces ≠ [] ∧ (taken = true → follower = none ∨ follower = some '/') := by
  have hsettled := r.settled before follower
  generalize r.settle before follower = result at hsettled
  cases hsettled with
  | runs => exact ⟨_, _, rfl, List.cons_ne_nil _ _, nofun⟩
  | leading _ hend => exact ⟨_, _, rfl, List.cons_ne_nil _ _, fun _ => hend⟩
  | @segments p taken _ _ hend =>
      obtain ⟨pieces, hne, hpush⟩ := r.exists_pushSegments p
      exact ⟨pieces, taken, by rw [hpush], hne, hend⟩

/-! ### Modes -/

/-- The mode that a character brings about where nothing is waiting for it. -/
def opening (last : Option Char) (c : Char) : Mode :=
  if c = '*' then .star last
  else if c = '[' then .classOpen
  else if c = '\\' then .escaped
  else .plain

/-- The mode after a character that is read outside classes. -/
def modeAfter (mode : Mode) (last : Option Char) (c : Char) : Mode :=
  match mode with
  | .escaped => .plain
  | .star before => if c = '*' then .stars before else opening last c
  | _ => opening last c

/-- Outside of everything, the character opens what it stands for. -/
theorem mode_readPlain (hread : r.readPlain c = .ok next) : next.mode = opening r.last c := by
  unfold readPlain at hread
  split at hread
  -- a closing brace and a comma depend on the groups that are open
  case h_6 | h_7 =>
    split at hread
    all_goals
      cases hread
      try rfl
  all_goals cases hread
  case h_8 => simp_all [opening, push]
  all_goals rfl

/-- What a character outside of classes makes of the mode. -/
theorem mode_read (hr : ¬ r.InClass) (hread : r.read c = .ok next) :
    next.mode = modeAfter r.mode r.last c := by
  obtain ⟨mid, hmid, rfl⟩ := map_eq_ok_iff.mp hread
  change mid.mode = _
  cases hmode : r.mode with
  | plain =>
      simp only [hmode] at hmid
      exact mode_readPlain hmid
  | escaped =>
      simp only [hmode] at hmid
      cases hmid
      rfl
  | star before =>
      simp only [hmode] at hmid
      split at hmid
      next hstar =>
        cases hmid
        exact (if_pos hstar).symm
      next hother =>
        rw [modeAfter, if_neg hother]
        exact @mode_readPlain (r.push .anyRun) _ _ hmid
  | stars before =>
      obtain ⟨pieces, taken, hsettle, _, htaken⟩ := r.exists_settle before (some c)
      simp only [hmode, hsettle] at hmid
      cases taken with
      | true =>
          obtain rfl : c = '/' := by simpa using htaken rfl
          cases hmid
          rfl
      | false => exact @mode_readPlain { r with pieces, mode := .plain } _ _ hmid
  | classOpen => exact absurd (Or.inl hmode) hr
  | inClass k => exact absurd (Or.inr ⟨k, hmode⟩) hr

section ModeAfter

variable {mode : Mode} {last : Option Char}

theorem modeAfter_eq_star (hmode : modeAfter mode last c = .star before) :
    c = '*' ∧ before = last := by
  unfold modeAfter opening at hmode
  grind

theorem modeAfter_eq_stars (hmode : modeAfter mode last c = .stars before) :
    c = '*' ∧ mode = .star before := by
  unfold modeAfter opening at hmode
  grind

/-- An escape is open after a backslash that was not escaped itself. -/
theorem modeAfter_eq_escaped_iff :
    modeAfter mode last c = .escaped ↔ c = '\\' ∧ mode ≠ .escaped := by
  unfold modeAfter opening
  grind

end ModeAfter

/-! ### What the mode tells of the text -/

/-- What has become of the reader after a text without fault. -/
def After (cs : List Char) (r : Reader) : Prop := cs.foldlM read {} = .ok r

namespace After

theorem exists_of_snoc (hr : After (front ++ [c]) r) :
    ∃ mid, After front mid ∧ mid.read c = .ok r := by
  simpa only [After, foldlM_read_append_iff, foldlM_read_singleton] using hr

theorem last_eq (hr : After cs r) : r.last = cs.getLast? := by
  rcases List.eq_nil_or_concat cs with rfl | ⟨front, c, rfl⟩
  · cases hr
    rfl
  · rw [List.concat_eq_append] at hr ⊢
    obtain ⟨mid, _, hread⟩ := hr.exists_of_snoc
    rw [last_read hread, List.getLast?_concat]

/-- A reader that is in no class has just closed one, or read a character
outside of them. -/
theorem mode_snoc (hr : After (front ++ [c]) r) (hclass : ¬ r.InClass) :
    (c = ']' ∧ r.mode = .plain) ∨
      ∃ mid, After front mid ∧ ¬ mid.InClass ∧ r.mode = modeAfter mid.mode front.getLast? c := by
  obtain ⟨mid, hmid, hread⟩ := hr.exists_of_snoc
  by_cases hbefore : mid.InClass
  · exact Or.inl ((hbefore.mode_read hread).resolve_right hclass)
  · exact Or.inr ⟨mid, hmid, hbefore, hmid.last_eq ▸ mode_read hbefore hread⟩

/-- One star waits at the end of the text. -/
theorem exists_of_star (hr : After cs r) (hmode : r.mode = .star before) :
    ∃ front, cs = front ++ ['*'] ∧ before = front.getLast? := by
  have hclass : ¬ r.InClass := by simp [InClass, hmode]
  rcases List.eq_nil_or_concat cs with rfl | ⟨front, c, rfl⟩
  · cases hr
    cases hmode
  · rw [List.concat_eq_append] at hr ⊢
    rcases hr.mode_snoc hclass with ⟨_, hplain⟩ | ⟨mid, _, _, hnext⟩
    · cases hplain.symm.trans hmode
    · obtain ⟨rfl, hbefore⟩ := modeAfter_eq_star (hnext.symm.trans hmode)
      exact ⟨front, rfl, hbefore⟩

/-- Two stars are open only at the end of a text that ends in them. -/
theorem exists_of_stars (hr : After cs r) (hmode : r.mode = .stars before) :
    ∃ front, cs = front ++ anySegments ∧ before = front.getLast? := by
  have hclass : ¬ r.InClass := by simp [InClass, hmode]
  rcases List.eq_nil_or_concat cs with rfl | ⟨front, c, rfl⟩
  · cases hr
    cases hmode
  · rw [List.concat_eq_append] at hr ⊢
    rcases hr.mode_snoc hclass with ⟨_, hplain⟩ | ⟨mid, hmid, _, hnext⟩
    · cases hplain.symm.trans hmode
    · obtain ⟨rfl, hstar⟩ := modeAfter_eq_stars (hnext.symm.trans hmode)
      obtain ⟨first, rfl, hbefore⟩ := hmid.exists_of_star hstar
      exact ⟨first, List.append_assoc .., hbefore⟩

/-- A backslash that waits for a character is the last of an odd number. -/
theorem mode_eq_escaped_iff (hr : After cs r) (hclass : ¬ r.InClass) :
    r.mode = .escaped ↔ Odd (finalBackslashes cs) := by
  induction cs using List.reverseRecOn generalizing r with
  | nil =>
      cases hr
      decide
  | append_singleton front c ih =>
      by_cases hc : c = '\\'
      · subst hc
        have hcount : finalBackslashes (front ++ ['\\']) = finalBackslashes front + 1 := by
          simp [finalBackslashes]
        obtain ⟨hclose, _⟩ | ⟨mid, hmid, hbefore, hnext⟩ := hr.mode_snoc hclass
        · cases hclose
        · rw [hnext, modeAfter_eq_escaped_iff, hcount, Nat.odd_add_one, ← ih hmid hbefore]
          exact and_iff_right rfl
      · have hcount : finalBackslashes (front ++ [c]) = 0 := by
          simp [finalBackslashes, hc]
        have hmode : r.mode ≠ .escaped := by
          obtain ⟨_, hplain⟩ | ⟨mid, _, _, hnext⟩ := hr.mode_snoc hclass
          · simp [hplain]
          · rw [hnext, Ne, modeAfter_eq_escaped_iff]
            exact fun hescaped => hc hescaped.1
        rw [hcount]
        exact iff_of_false hmode Nat.not_odd_zero

end After

/-! ### The end of the whole text -/

/-- How a text can end without fault, and the pieces that it leaves. -/
inductive Ended (r : Reader) : List Piece → Prop
  | plain (hmode : r.mode = .plain) : Ended r r.pieces
  | star {before : Option Char} (hmode : r.mode = .star before) : Ended r (.anyRun :: r.pieces)
  | stars {before : Option Char} (hmode : r.mode = .stars before) :
      Ended r (r.settle before none).1.pieces

/-- A text can end where no group is open. -/
theorem finish_eq_ok_iff : r.finish = .ok out ↔ r.groups = [] ∧ Ended r out := by
  have hgroups : ∀ mid : Reader, mid.groups = r.groups →
      ((if mid.groups = [] then .ok mid.pieces else .error Fault.unclosedGroup) = Except.ok out ↔
        r.groups = [] ∧ mid.pieces = out) := by
    intro mid hsame
    rw [hsame]
    split <;> simp_all
  cases hmode : r.mode with
  | escaped | classOpen | inClass =>
      -- an open escape or class is a fault
      simp only [finish, hmode, bind, Except.bind, reduceCtorEq, false_iff, not_and]
      intro _ hended
      cases hended <;> simp_all
  | plain =>
      simp only [finish, hmode, bind, Except.bind, hgroups r rfl]
      refine and_congr_right fun _ => ⟨?_, ?_⟩
      · rintro rfl
        exact .plain hmode
      · intro hended
        cases hended <;> simp_all
  | star before =>
      simp only [finish, hmode, bind, Except.bind, hgroups (r.push .anyRun) rfl]
      refine and_congr_right fun _ => ⟨?_, ?_⟩
      · rintro rfl
        exact .star hmode
      · intro hended
        cases hended <;> simp_all [push]
  | stars before =>
      obtain ⟨pieces, taken, hsettle, _⟩ := r.exists_settle before none
      have hsame : (r.settle before none).1.groups = r.groups := by rw [hsettle]
      simp only [finish, hmode, bind, Except.bind, hgroups _ hsame]
      refine and_congr_right fun _ => ⟨?_, ?_⟩
      · rintro rfl
        exact .stars hmode
      · intro hended
        cases hended <;> simp_all

/-! ### A slash and two stars at the end -/

/-- Outside of classes a slash ends whatever was waiting. -/
theorem exists_read_slash (hr : ¬ r.InClass) :
    ∃ pieces, pieces ≠ [] ∧ r.read '/' = .ok { pieces, groups := r.groups, last := some '/' } := by
  cases hmode : r.mode with
  | plain | escaped | star => exact ⟨_, List.cons_ne_nil _ _, by rw [read, hmode]; rfl⟩
  | stars before =>
      obtain ⟨pieces, taken, hsettle, hne, _⟩ := r.exists_settle before (some '/')
      cases taken with
      | true => exact ⟨pieces, hne, by simp only [read, hmode, hsettle]; rfl⟩
      | false =>
          exact ⟨.char '/' :: pieces, List.cons_ne_nil _ _,
            by simp only [read, hmode, hsettle]; rfl⟩
  | classOpen => exact absurd (Or.inl hmode) hr
  | inClass k => exact absurd (Or.inr ⟨k, hmode⟩) hr

/-- The stars are not settled before the text ends. -/
theorem exists_foldlM_below (hr : ¬ r.InClass) :
    ∃ pieces, pieces ≠ [] ∧ ('/' :: anySegments).foldlM read r =
      .ok { pieces, groups := r.groups, last := some '*', mode := .stars (some '/') } := by
  obtain ⟨pieces, hne, hread⟩ := r.exists_read_slash hr
  refine ⟨pieces, hne, ?_⟩
  rw [List.foldlM_cons, hread]
  rfl

/-- Where they can be read no class and no group is open. -/
theorem closed_of_readAll_below (hread : r.readAll ('/' :: anySegments) = .ok out) :
    ¬ r.InClass ∧ r.groups = [] := by
  obtain ⟨last, hlast, hfinish⟩ := readAll_eq_ok_iff.mp hread
  by_cases hclass : r.InClass
  · have hopen := hclass.foldlM (by decide) hlast
    rw [hopen.finish] at hfinish
    cases hfinish
  · obtain ⟨pieces, _, hbelow⟩ := r.exists_foldlM_below hclass
    rw [hbelow] at hlast
    cases hlast
    exact ⟨hclass, (finish_eq_ok_iff.mp hfinish).1⟩

/-- A text that leaves nothing open can end. -/
theorem exists_finish (hclass : ¬ r.InClass) (hgroups : r.groups = []) (hmode : r.mode ≠ .escaped) :
    ∃ out, r.finish = .ok out := by
  simp only [finish_eq_ok_iff, hgroups, true_and]
  cases h : r.mode with
  | plain => exact ⟨_, .plain h⟩
  | escaped => exact absurd h hmode
  | star before => exact ⟨_, .star h⟩
  | stars before => exact ⟨_, .stars h⟩
  | classOpen => exact absurd (Or.inl h) hclass
  | inClass k => exact absurd (Or.inr ⟨k, h⟩) hclass

/-- Outside of classes, a `**` behind a slash is open where the text ends in one. -/
theorem After.mode_eq_stars_iff (hr : After cs r) (hclass : ¬ r.InClass) :
    r.mode = .stars (some '/') ↔ ∃ front, cs = front ++ '/' :: anySegments := by
  constructor
  · intro hmode
    obtain ⟨first, rfl, hslash⟩ := hr.exists_of_stars hmode
    obtain ⟨front, rfl⟩ := List.getLast?_eq_some_iff.mp hslash.symm
    exact ⟨front, List.append_assoc ..⟩
  · rintro ⟨front, rfl⟩
    obtain ⟨mid, hmid, hrest⟩ := foldlM_read_append_iff.mp hr
    have hopen : ¬ mid.InClass := fun hopen => hclass (hopen.foldlM (by decide) hrest)
    obtain ⟨pieces, _, hbelow⟩ := mid.exists_foldlM_below hopen
    rw [hbelow] at hrest
    cases hrest
    rfl

end Reader

end RouteGuard.Glob
