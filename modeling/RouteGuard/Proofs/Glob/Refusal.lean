import RouteGuard.Proofs.Glob.Ending
import RouteGuard.Proofs.Glob.Segmentwise

/-! # Patterns that are refused

The part before a final `/**` is read on its own. Where the whole text can be
read, that part has no class, group or range at fault, since nothing is open
where it ends. Only a backslash can be: in the whole text it hides the slash, and
alone it is left without a character.
-/

namespace RouteGuard

open Glob

namespace Glob

variable {cs front : List Char} {fault : Fault} {s : Shape}

theorem parse_eq_error_iff : parse cs = .error fault ↔ Reader.readAll {} cs = .error fault := by
  rw [parse_eq_readAll]
  cases Reader.readAll {} cs <;> simp [Except.bind]

theorem exists_parse_iff : (∃ s, parse cs = .ok s) ↔ ∃ out, Reader.readAll {} cs = .ok out := by
  rw [parse_eq_readAll]
  cases Reader.readAll {} cs <;> simp [Except.bind]

/-- What is at fault in the part before a final `/**` that can be read. -/
theorem parse_front_eq_error_iff (hwhole : parse (front ++ '/' :: anySegments) = .ok s) :
    parse front = .error fault ↔ fault = .danglingEscape ∧ Odd (finalBackslashes front) := by
  obtain ⟨out, hread⟩ := exists_parse_iff.mp ⟨s, hwhole⟩
  obtain ⟨last, hlast, hfinish⟩ := Reader.readAll_eq_ok_iff.mp hread
  obtain ⟨mid, hmid, hrest⟩ := Reader.foldlM_read_append_iff.mp hlast
  obtain ⟨hclass, hgroups⟩ :=
    Reader.closed_of_readAll_below (Reader.readAll_eq_ok_iff.mpr ⟨last, hrest, hfinish⟩)
  have hfront : Reader.readAll {} front = mid.finish := by
    rw [Reader.readAll, hmid]
    rfl
  have hescaped : mid.mode = .escaped ↔ Odd (finalBackslashes front) :=
    Reader.After.mode_eq_escaped_iff hmid hclass
  rw [parse_eq_error_iff, hfront, ← hescaped]
  by_cases hmode : mid.mode = .escaped
  · have hdangling : mid.finish = .error .danglingEscape := by
      simp [Reader.finish, hmode, bind, Except.bind]
    simp [hdangling, hmode, eq_comm]
  · obtain ⟨pieces, hended⟩ := Reader.exists_finish hclass hgroups hmode
    simp [hended, hmode]

end Glob

namespace Pattern

variable {cs front : List Char} {mode : CaseMode} {pattern : String} {e : PatternError}

theorem readGlob_eq_error_iff :
    readGlob cs = .error e ↔ ∃ fault, parse cs = .error fault ∧ e = ⟨String.ofList cs, fault⟩ := by
  rw [readGlob]
  cases parse cs with
  | error fault =>
      constructor
      · rintro ⟨⟩
        exact ⟨fault, rfl, rfl⟩
      · rintro ⟨_, ⟨⟩, rfl⟩
        rfl
  | ok s =>
      constructor
      · rintro ⟨⟩
      · rintro ⟨_, ⟨⟩, _⟩

/-- A pattern is refused where its text is, or else the part before a final
`/**` is. -/
theorem compile_eq_error_iff :
    compile mode pattern = .error e ↔
      readGlob (canonicalText pattern).toList = .error e ∨
        (∃ s, parse (canonicalText pattern).toList = .ok s) ∧
          ∃ front, bareText? (canonicalText pattern).toList = some front ∧
            readGlob front = .error e := by
  unfold compile
  cases hparse : parse (canonicalText pattern).toList with
  | error fault =>
      have herror : readGlob (canonicalText pattern).toList =
          .error ⟨String.ofList (canonicalText pattern).toList, fault⟩ :=
        readGlob_eq_error_iff.mpr ⟨fault, hparse, rfl⟩
      simp [herror, bind, Except.bind]
  | ok s =>
      have hwhole := readGlob_eq_ok_iff.mpr hparse
      cases hbare : bareText? (canonicalText pattern).toList with
      | none => simp [hwhole, hbare, bind, Except.bind, pure, Except.pure]
      | some front =>
          cases hfront : readGlob front with
          | error other => simp [hwhole, hbare, hfront, bind, Except.bind]
          | ok shape => simp [hwhole, hbare, hfront, bind, Except.bind, pure, Except.pure]

/-- A backslash hides the slash of a final `/**` behind `front`. -/
def HidesSlash (text front : String) : Prop :=
  text = front ++ "/**" ∧ front ≠ "" ∧ Odd (finalBackslashes front.toList)

theorem hidesSlash_iff {text front : String} :
    HidesSlash text front ↔
      bareText? text.toList = some front.toList ∧ Odd (finalBackslashes front.toList) := by
  have htext : text = front ++ "/**" ↔ text.toList = front.toList ++ '/' :: anySegments := by
    rw [← String.toList_inj, String.toList_append]
    rfl
  have hne : front ≠ "" ↔ front.toList ≠ [] := by
    rw [Ne, ← String.toList_inj]
    rfl
  rw [HidesSlash, bareText?_eq_some_iff, htext, hne, and_left_comm, and_assoc]

/-- Where the text can be read, only a hidden slash is refused. -/
theorem readGlob_front_iff {text : String} {s : Shape} (hwhole : parse text.toList = .ok s) :
    (∃ front, bareText? text.toList = some front ∧ readGlob front = .error e) ↔
      ∃ front, HidesSlash text front ∧ e = ⟨front, .danglingEscape⟩ := by
  have hfront : ∀ front, bareText? text.toList = some front →
      (readGlob front = .error e ↔ Odd (finalBackslashes front) ∧
        e = ⟨String.ofList front, .danglingEscape⟩) := by
    intro front hbare
    obtain ⟨_, htext⟩ := bareText?_eq_some_iff.mp hbare
    simp only [readGlob_eq_error_iff, parse_front_eq_error_iff (htext ▸ hwhole)]
    grind
  constructor
  · rintro ⟨front, hbare, herror⟩
    obtain ⟨hodd, rfl⟩ := (hfront front hbare).mp herror
    refine ⟨String.ofList front, hidesSlash_iff.mpr ?_, rfl⟩
    rw [String.toList_ofList]
    exact ⟨hbare, hodd⟩
  · rintro ⟨front, hhides, rfl⟩
    obtain ⟨hbare, hodd⟩ := hidesSlash_iff.mp hhides
    exact ⟨front.toList, hbare, (hfront _ hbare).mpr ⟨hodd, by rw [String.ofList_toList]⟩⟩

/-- A pattern is refused exactly if its text is at fault or hides the slash of a
final `/**`. In the one case the error tells the whole text and its fault, in the
other the part before that ending and the backslash that is left at its end. -/
theorem refused_iff (mode : CaseMode) (pattern : String) :
    ((∃ e, compile mode pattern = .error e) ↔
      (∃ fault, parse (canonicalText pattern).toList = .error fault) ∨
        ∃ front, HidesSlash (canonicalText pattern) front) ∧
    ∀ e, compile mode pattern = .error e ↔
      (∃ fault, parse (canonicalText pattern).toList = .error fault ∧
        e = ⟨canonicalText pattern, fault⟩) ∨
      (∃ s, parse (canonicalText pattern).toList = .ok s) ∧
        ∃ front, HidesSlash (canonicalText pattern) front ∧ e = ⟨front, .danglingEscape⟩ := by
  have herror : ∀ e, compile mode pattern = .error e ↔
      (∃ fault, parse (canonicalText pattern).toList = .error fault ∧
        e = ⟨canonicalText pattern, fault⟩) ∨
      (∃ s, parse (canonicalText pattern).toList = .ok s) ∧
        ∃ front, HidesSlash (canonicalText pattern) front ∧ e = ⟨front, .danglingEscape⟩ := by
    intro e
    rw [compile_eq_error_iff, readGlob_eq_error_iff, String.ofList_toList]
    refine or_congr_right (and_congr_right ?_)
    rintro ⟨s, hwhole⟩
    exact readGlob_front_iff hwhole
  refine ⟨?_, herror⟩
  simp only [herror]
  cases hparse : parse (canonicalText pattern).toList with
  | error fault => simp
  | ok s => simp

example : compile .exact "/a\\/**" = .error ⟨"/a\\", .danglingEscape⟩ := by rfl

end Pattern

end RouteGuard
