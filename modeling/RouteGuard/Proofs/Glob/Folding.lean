import Mathlib.Data.List.Forall2
import Mathlib.Data.Option.Basic
import RouteGuard.Proofs.Glob.Ending
import RouteGuard.Proofs.Text.AsciiCase

/-! # Matching without regard to case

Without classes a pattern that is matched in folded mode covers a path exactly if
its lower-case form covers that of the path. The reader takes both texts in step,
and what it makes of them differs in the case of letters alone.
-/

namespace RouteGuard

open Glob

namespace Glob

/-- Two computations that fail together, and else have related results. -/
inductive InStep {ε δ α β : Type} (rel : α → β → Prop) : Except ε α → Except δ β → Prop
  | error (e : ε) (d : δ) : InStep rel (.error e) (.error d)
  | ok {a : α} {b : β} (hrel : rel a b) : InStep rel (.ok a) (.ok b)

namespace InStep

variable {ε δ ε' δ' α β α' β' : Type} {rel : α → β → Prop} {rel' : α' → β' → Prop}
  {x : Except ε α} {y : Except δ β}

theorem bind {f : α → Except ε α'} {g : β → Except δ β'} (hxy : InStep rel x y)
    (hfg : ∀ a b, rel a b → InStep rel' (f a) (g b)) : InStep rel' (x >>= f) (y >>= g) := by
  cases hxy with
  | error e d => exact .error e d
  | ok hrel => exact hfg _ _ hrel

theorem map {f : α → α'} {g : β → β'} (hxy : InStep rel x y)
    (hfg : ∀ a b, rel a b → rel' (f a) (g b)) : InStep rel' (x.map f) (y.map g) := by
  cases hxy with
  | error e d => exact .error e d
  | ok hrel => exact .ok (hfg _ _ hrel)

theorem mapError (hxy : InStep rel x y) (f : ε → ε') (g : δ → δ') :
    InStep rel (x.mapError f) (y.mapError g) := by
  cases hxy with
  | error e d => exact .error _ _
  | ok hrel => exact .ok hrel

/-- Computations in step succeed together. -/
theorem exists_ok_iff (hxy : InStep rel x y) : (∃ a, x = .ok a) ↔ ∃ b, y = .ok b := by
  cases hxy with
  | error => simp
  | ok => simp

theorem rel_of_ok {a : α} {b : β} (hxy : InStep rel x y) (hx : x = .ok a) (hy : y = .ok b) :
    rel a b := by
  subst hx hy
  cases hxy with
  | ok hrel => exact hrel

end InStep

/-! ### Shapes -/

/-- The second test accepts the lower-case forms of what the first accepts when
case is folded. -/
def ByteTest.Folds (t u : ByteTest) : Prop :=
  ∀ b, t.accepts .folded b = u.accepts .exact (Text.lowerAscii b)

/-- The shapes are built alike from tests of which the second ones are for
lower-case forms. -/
inductive Shape.Folds : Shape → Shape → Prop
  | blank : Folds .blank .blank
  | one {t u : ByteTest} (htest : t.Folds u) : Folds (.one t) (.one u)
  | many {t u : ByteTest} (htest : t.Folds u) : Folds (.many t) (.many u)
  | seq {a b a' b' : Shape} (hfirst : Folds a a') (hsecond : Folds b b') :
      Folds (.seq a b) (.seq a' b')
  | either {a b a' b' : Shape} (hfirst : Folds a a') (hsecond : Folds b b') :
      Folds (.either a b) (.either a' b')

/-- A test for one byte folds to the test for the lowered byte. -/
theorem ByteTest.folds_only (b : UInt8) : (only b).Folds (only (Text.lowerAscii b)) := by
  intro c
  rw [Bool.eq_iff_iff, accepts_only_iff, accepts_only_iff]
  rfl

theorem ByteTest.folds_notSlash : notSlash.Folds notSlash := by
  intro b
  rw [accepts_notSlash, accepts_notSlash, folds_only 0x2F b]
  rfl

theorem ByteTest.folds_all : all.Folds all := by
  intro b
  rw [accepts_all, accepts_all]

namespace Shape

variable {a b s u : Shape} {text : List UInt8}

/-- Folding the case is to lower it on both sides. -/
theorem Folds.spells_iff (hfolds : s.Folds u) :
    Spells .folded s text ↔ Spells .exact u (text.map Text.lowerAscii) := by
  induction hfolds generalizing text with
  | blank => rw [spells_blank_iff, spells_blank_iff, List.map_eq_nil_iff]
  | one htest =>
      simp only [spells_one_iff, OneOf, List.map_eq_singleton_iff, htest _]
      constructor
      · rintro ⟨b, rfl, hb⟩
        exact ⟨_, ⟨b, rfl, rfl⟩, hb⟩
      · rintro ⟨_, ⟨b, rfl, rfl⟩, hb⟩
        exact ⟨b, rfl, hb⟩
  | many htest => simp only [spells_many_iff, AllOf, List.forall_mem_map, htest _]
  | seq _ _ iha ihb =>
      simp only [spells_seq_iff, List.map_eq_append_iff, iha, ihb]
      constructor
      · rintro ⟨first, second, rfl, hfirst, hsecond⟩
        exact ⟨_, _, ⟨first, second, rfl, rfl, rfl⟩, hfirst, hsecond⟩
      · rintro ⟨_, _, ⟨first, second, rfl, rfl, rfl⟩, hfirst, hsecond⟩
        exact ⟨first, second, rfl, hfirst, hsecond⟩
  | either _ _ iha ihb => rw [spells_either_iff, spells_either_iff, iha, ihb]

theorem Folds.eq_blank_iff (hfolds : s.Folds u) : s = Shape.blank ↔ u = Shape.blank := by
  cases hfolds <;> simp

theorem Folds.andThen {a' b' : Shape} (ha : a.Folds a') (hb : b.Folds b') :
    (a.andThen b).Folds (a'.andThen b') := by
  unfold Shape.andThen
  simp only [ha.eq_blank_iff, hb.eq_blank_iff]
  split
  · exact hb
  · split
    · exact ha
    · exact .seq ha hb

theorem folds_choice {alternatives others : List Shape}
    (hfolds : List.Forall₂ Folds alternatives others) :
    (choice alternatives).Folds (choice others) := by
  induction hfolds with
  | nil => exact .blank
  | cons ha _ ih =>
      simp only [choice, ha.eq_blank_iff, ih.eq_blank_iff]
      split
      · exact ih
      · split
        · exact ha
        · exact .either ha ih

theorem folds_word (bs : List UInt8) : (word bs).Folds (word (bs.map Text.lowerAscii)) := by
  induction bs with
  | nil => exact .blank
  | cons b bs ih => exact Folds.andThen (.one (ByteTest.folds_only b)) ih

theorem folds_slash : slash.Folds slash := .one (ByteTest.folds_only 0x2F)

end Shape

/-! ### Pieces -/

/-- The pieces stand for the same, the second one in lower case. -/
inductive Piece.Folds : Piece → Piece → Prop
  | char (c : Char) : Folds (.char c) (.char c.toLower)
  | anyByte : Folds .anyByte .anyByte
  | anyRun : Folds .anyRun .anyRun
  | leadingSegments : Folds .leadingSegments .leadingSegments
  | trailingSegments : Folds .trailingSegments .trailingSegments
  | innerSegments : Folds .innerSegments .innerSegments
  | group {s u : Shape} (hshape : s.Folds u) : Folds (.group s) (.group u)

theorem Piece.Folds.shape {p q : Piece} (hfolds : p.Folds q) : p.shape.Folds q.shape := by
  have hall : (Shape.many .all).Folds (.many .all) := .many ByteTest.folds_all
  cases hfolds with
  | char c =>
      have hword := Shape.folds_word (String.utf8EncodeChar c)
      rwa [← Text.encodeChar_toLower] at hword
  | anyByte => exact .one ByteTest.folds_notSlash
  | anyRun => exact .many ByteTest.folds_notSlash
  | leadingSegments =>
      exact .either .blank (.either Shape.folds_slash (.seq hall Shape.folds_slash))
  | trailingSegments => exact .seq Shape.folds_slash hall
  | innerSegments =>
      exact .either Shape.folds_slash
        (.seq Shape.folds_slash (.seq hall Shape.folds_slash))
  | group hshape => exact hshape

/-- Branches of pieces that stand for the same. -/
abbrev FoldsEach : List Piece → List Piece → Prop := List.Forall₂ Piece.Folds

theorem FoldsEach.branchShape {pieces others : List Piece} (hfolds : FoldsEach pieces others) :
    (branchShape pieces).Folds (branchShape others) := by
  have hfold : ∀ {s u : Shape}, s.Folds u → (pieces.foldl (fun s p => p.shape.andThen s) s).Folds
      (others.foldl (fun s p => p.shape.andThen s) u) := by
    induction hfolds with
    | nil => exact id
    | cons hp _ ih => exact fun hs => ih (hp.shape.andThen hs)
  exact hfold .blank

/-- Neither branch is that of everything unless both are. -/
theorem FoldsEach.eq_leading_iff {pieces others : List Piece} (hfolds : FoldsEach pieces others) :
    pieces = [.leadingSegments] ↔ others = [.leadingSegments] := by
  constructor
  · rintro rfl
    obtain _ | ⟨⟨⟩, ⟨⟩⟩ := hfolds
    rfl
  · rintro rfl
    obtain _ | ⟨⟨⟩, ⟨⟩⟩ := hfolds
    rfl

/-! ### Reading in step -/

structure OpenGroup.Folds (g h : OpenGroup) : Prop where
  before : FoldsEach g.before h.before
  done : List.Forall₂ Shape.Folds g.done h.done

/-- The modes are the same up to the case of the characters they keep. A class is
open in neither. -/
inductive Mode.Folds : Mode → Mode → Prop
  | plain : Folds .plain .plain
  | escaped : Folds .escaped .escaped
  | star (before : Option Char) : Folds (.star before) (.star (before.map Char.toLower))
  | stars (before : Option Char) : Folds (.stars before) (.stars (before.map Char.toLower))

/-- The readers are at the same place, the second one of the text in lower case. -/
structure Reader.Folds (r q : Reader) : Prop where
  pieces : FoldsEach r.pieces q.pieces
  groups : List.Forall₂ OpenGroup.Folds r.groups q.groups
  last : q.last = r.last.map Char.toLower
  mode : r.mode.Folds q.mode

namespace Reader

variable {r q : Reader} {c : Char}

theorem Folds.push {p p' : Piece} (hfolds : r.Folds q) (hp : p.Folds p') :
    (r.push p).Folds (q.push p') :=
  { hfolds with pieces := .cons hp hfolds.pieces, mode := .plain }

theorem Folds.pushSegments {p : Piece} (hfolds : r.Folds q) (hp : p.Folds p) :
    (r.pushSegments p).Folds (q.pushSegments p) := by
  obtain ⟨pieces, groups, last, mode⟩ := r
  obtain ⟨others, groups', last', mode'⟩ := q
  obtain ⟨hpieces, hgroups, hlast, _⟩ := hfolds
  cases hpieces with
  | nil => exact ⟨.cons hp .nil, hgroups, hlast, .plain⟩
  | cons htop hrest =>
      cases htop with
      | leadingSegments => exact ⟨.cons .leadingSegments hrest, hgroups, hlast, .plain⟩
      | trailingSegments => exact ⟨.cons .trailingSegments hrest, hgroups, hlast, .plain⟩
      | _ => exact ⟨.cons hp hrest, hgroups, hlast, .plain⟩

theorem Folds.pieces_eq_nil_iff (hfolds : r.Folds q) : q.pieces = [] ↔ r.pieces = [] := by
  rw [← List.length_eq_zero_iff, ← List.length_eq_zero_iff, hfolds.pieces.length_eq]

theorem Folds.groups_eq_nil_iff (hfolds : r.Folds q) : q.groups = [] ↔ r.groups = [] := by
  rw [← List.length_eq_zero_iff, ← List.length_eq_zero_iff, hfolds.groups.length_eq]

/-- Two stars are settled alike. -/
theorem Folds.settle (hfolds : r.Folds q) (before follower : Option Char) :
    (r.settle before follower).1.Folds
        (q.settle (before.map Char.toLower) (follower.map Char.toLower)).1 ∧
      (r.settle before follower).2 =
        (q.settle (before.map Char.toLower) (follower.map Char.toLower)).2 := by
  have hruns := (hfolds.push .anyRun).push .anyRun
  simp only [Reader.settle, hfolds.pieces_eq_nil_iff, hfolds.groups_eq_nil_iff, ne_eq,
    Option.map_eq_none_iff,
    Text.map_toLower_eq_some_iff (d := '/') (by decide),
    Text.map_toLower_eq_some_iff (d := ',') (by decide),
    Text.map_toLower_eq_some_iff (d := '{') (by decide),
    Text.map_toLower_eq_some_iff (d := '}') (by decide)]
  split
  · split
    · exact ⟨hfolds.push .leadingSegments, rfl⟩
    · exact ⟨hruns, rfl⟩
  · split
    · split
      · exact ⟨hfolds.pushSegments .trailingSegments, rfl⟩
      · split
        · exact ⟨hfolds.pushSegments .trailingSegments, rfl⟩
        · split
          · exact ⟨hfolds.pushSegments .innerSegments, rfl⟩
          · exact ⟨hruns, rfl⟩
    · exact ⟨hruns, rfl⟩

/-- A character without a meaning of its own is read as itself. -/
theorem readPlain_of_not_mem (hc : c ∉ ',' :: marks) : r.readPlain c = .ok (r.push (.char c)) := by
  unfold readPlain
  split
  case h_8 => rfl
  all_goals exact absurd (by decide) hc

/-- The second reader reads the lower-case form as the first one the character. -/
theorem Folds.readPlain (hfolds : r.Folds q) (hc : c ≠ '[') :
    InStep Folds (r.readPlain c) (q.readPlain c.toLower) := by
  by_cases hmark : c ∈ ',' :: marks
  · obtain ⟨pieces, groups, last, mode⟩ := r
    obtain ⟨others, groups', last', mode'⟩ := q
    obtain ⟨hpieces, hgroups, hlast, hmode⟩ := hfolds
    obtain rfl : last' = last.map Char.toLower := hlast
    simp only [marks, List.mem_cons, List.not_mem_nil, or_false] at hmark
    obtain rfl | rfl | rfl | rfl | rfl | rfl | rfl := hmark
    · cases hgroups with
      | nil => exact .ok ⟨.cons (.char ',') hpieces, .nil, rfl, .plain⟩
      | cons hgroup houter =>
          exact .ok ⟨.nil, .cons ⟨hgroup.before, .cons hpieces.branchShape hgroup.done⟩ houter,
            rfl, .plain⟩
    · exact .ok ⟨.cons .anyByte hpieces, hgroups, rfl, .plain⟩
    · exact .ok ⟨hpieces, hgroups, rfl, .star last⟩
    · exact absurd rfl hc
    · exact .ok ⟨hpieces, hgroups, rfl, .escaped⟩
    · exact .ok ⟨.nil, .cons ⟨hpieces, .nil⟩ hgroups, rfl, .plain⟩
    · cases hgroups with
      | nil => exact .error _ _
      | cons hgroup houter =>
          have halternatives := Shape.folds_choice (List.rel_reverse
            (List.Forall₂.cons hpieces.branchShape hgroup.done))
          exact .ok ⟨.cons (.group halternatives) hgroup.before, houter, rfl, .plain⟩
  · have hcaseless : ∀ d ∈ ',' :: marks, Text.IsCaseless d := by simp [marks, Text.IsCaseless]
    have hlower : c.toLower ∉ ',' :: marks := (Text.toLower_mem_iff hcaseless).not.mpr hmark
    rw [readPlain_of_not_mem hmark, readPlain_of_not_mem hlower]
    exact .ok (hfolds.push (.char c))

/-- Readers stay in step over a character and its lowered form, unless a class opens. -/
theorem Folds.read (hfolds : r.Folds q) (hc : c ≠ '[') :
    InStep Folds (r.read c) (q.read c.toLower) := by
  refine InStep.map (?_ : InStep Folds _ _) fun _ _ hnext => { hnext with last := rfl }
  have hmode := hfolds.mode
  generalize hr : r.mode = mode at hmode
  generalize hq : q.mode = mode' at hmode
  cases hmode with
  | plain => exact hfolds.readPlain hc
  | escaped => exact .ok (hfolds.push (.char c))
  | star before =>
      simp only [Text.toLower_eq_iff (d := '*') (by decide)]
      split
      · exact .ok { hfolds with mode := .stars before }
      · exact (hfolds.push .anyRun).readPlain hc
  | stars before =>
      obtain ⟨hsettled, htaken⟩ := hfolds.settle before (some c)
      rw [Option.map_some] at hsettled htaken
      dsimp only
      generalize r.settle before (some c) = result at hsettled htaken
      generalize q.settle (before.map Char.toLower) (some c.toLower) = result' at hsettled htaken
      obtain ⟨next, taken⟩ := result
      obtain ⟨next', taken'⟩ := result'
      obtain rfl : taken = taken' := htaken
      cases taken with
      | true => exact .ok hsettled
      | false => exact hsettled.readPlain hc

/-- Readers stay in step over a text without classes. -/
theorem Folds.foldlM {cs : List Char} (hfolds : r.Folds q) (hcs : '[' ∉ cs) :
    InStep Folds (cs.foldlM Reader.read r) ((cs.map Char.toLower).foldlM Reader.read q) := by
  induction cs generalizing r q with
  | nil => exact .ok hfolds
  | cons c cs ih =>
      rw [List.mem_cons, not_or] at hcs
      rw [List.map_cons, List.foldlM_cons, List.foldlM_cons]
      exact (hfolds.read (Ne.symm hcs.1)).bind fun _ _ hnext => ih hnext hcs.2

/-- Readers in step end in step. -/
theorem Folds.finish (hfolds : r.Folds q) : InStep FoldsEach r.finish q.finish := by
  have hgroups : ∀ {r q : Reader}, r.Folds q →
      InStep FoldsEach (if r.groups = [] then .ok r.pieces else .error Fault.unclosedGroup)
        (if q.groups = [] then .ok q.pieces else .error Fault.unclosedGroup) := by
    intro r q hfolds
    have hsame := hfolds.groups_eq_nil_iff
    simp only [hsame]
    split
    · exact .ok hfolds.pieces
    · exact .error _ _
  have hmode := hfolds.mode
  unfold Reader.finish
  generalize r.mode = mode at hmode
  generalize q.mode = mode' at hmode
  cases hmode with
  | plain => exact hgroups hfolds
  | escaped => exact .error _ _
  | star before => exact hgroups (hfolds.push .anyRun)
  | stars before => exact hgroups (hfolds.settle before none).1

end Reader

/-- The lower-case form of an expression is read as the expression is. -/
theorem inStep_parse {cs : List Char} (hcs : '[' ∉ cs) :
    InStep Shape.Folds (parse cs) (parse (cs.map Char.toLower)) := by
  have hstart : Reader.Folds {} {} := ⟨.nil, .nil, rfl, .plain⟩
  refine (hstart.foldlM hcs).bind fun _ _ hlast => hlast.finish.bind fun pieces others hpieces => ?_
  simp only [hpieces.eq_leading_iff]
  split
  · exact .ok (.many ByteTest.folds_all)
  · exact .ok hpieces.branchShape

end Glob

/-- The canonical form of a lowered text is lowered. -/
theorem canonicalText_toLower (text : String) :
    (canonicalText text.toLower).toList = (canonicalText text).toList.map Char.toLower := by
  simp only [canonicalText, Text.toList_toLower, Text.trimChars_map_toLower,
    String.toList_ofList, List.head?_map, Text.map_toLower_eq_some_iff (d := '/') (by decide)]
  split
  · rfl
  · rfl

/-- Nothing but a slash is in the canonical text that is not in the text. -/
theorem mem_of_mem_canonicalText {text : String} {c : Char} (hc : c ∈ (canonicalText text).toList) :
    c = '/' ∨ c ∈ text.toList := by
  have htrimmed : ∀ c ∈ Text.trimChars text.toList, c ∈ text.toList := by
    intro c hc
    have hback := (List.dropWhile_sublist Text.isBlank).mem (List.mem_reverse.mp hc)
    exact (List.dropWhile_sublist Text.isBlank).mem (List.mem_reverse.mp hback)
  simp only [canonicalText, String.toList_ofList] at hc
  split at hc
  · exact Or.inr (htrimmed c hc)
  · exact (List.mem_cons.mp hc).imp_right (htrimmed c)

namespace Pattern

variable {cs front : List Char} {text : String} {p q : Pattern}

/-- A lowered pattern has a bare prefix if the pattern has one, and has it lowered. -/
theorem bareText?_map_toLower (cs : List Char) :
    bareText? (cs.map Char.toLower) = (bareText? cs).map (List.map Char.toLower) := by
  have hbelow : ∀ d ∈ '/' :: anySegments, Text.IsCaseless d := by
    simp [anySegments, Text.IsCaseless]
  ext front
  rw [Option.map_eq_some_iff]
  simp only [bareText?_eq_some_iff]
  constructor
  · rintro ⟨hne, hends⟩
    obtain ⟨before, after, rfl, rfl, hafter⟩ := List.map_eq_append_iff.mp hends
    obtain rfl := (Text.map_toLower_eq_iff hbelow).mp hafter
    exact ⟨before, ⟨by simpa using hne, rfl⟩, rfl⟩
  · rintro ⟨before, ⟨hne, rfl⟩, rfl⟩
    refine ⟨by simpa using hne, ?_⟩
    rw [List.map_append, (Text.map_toLower_eq_iff hbelow).mpr rfl]

/-- The patterns are made alike, the second one for paths in lower case. -/
structure Folds (p q : Pattern) : Prop where
  folded : p.mode = .folded
  exact : q.mode = .exact
  isCatchAll : p.isCatchAll = q.isCatchAll
  whole : p.whole.Folds q.whole
  bare : Option.Rel Shape.Folds p.bare q.bare

/-- The first pattern covers a path as the second one covers the lowered path. -/
theorem Folds.covers_eq (hfolds : p.Folds q) (path : String) :
    p.covers path = q.covers path.toLower := by
  have hshape : ∀ {s u : Shape}, s.Folds u → s.covers p.mode (Text.bytes path) =
      u.covers q.mode (Text.bytes path.toLower) := by
    intro s u hshape
    rw [Bool.eq_iff_iff, Shape.covers_iff, Shape.covers_iff, hfolds.folded, hfolds.exact,
      Text.bytes_toLower, hshape.spells_iff]
  have hbare : p.bare.any (·.covers p.mode (Text.bytes path)) =
      q.bare.any (·.covers q.mode (Text.bytes path.toLower)) := by
    have hbare := hfolds.bare
    generalize p.bare = bare at hbare
    generalize q.bare = bare' at hbare
    cases hbare with
    | none => rfl
    | some hbare => exact hshape hbare
  rw [covers, covers, hfolds.isCatchAll, hshape hfolds.whole, hbare]

theorem inStep_readGlob (hcs : '[' ∉ cs) :
    InStep Shape.Folds (readGlob cs) (readGlob (cs.map Char.toLower)) :=
  (inStep_parse hcs).mapError _ _

/-- A pattern without classes compiles in folded mode in step with its lowered form. -/
theorem inStep_compile (hclassless : '[' ∉ (canonicalText text).toList) :
    InStep Folds (compile .folded text) (compile .exact text.toLower) := by
  have hcatchAll : (canonicalText text == "/**") = (canonicalText text.toLower == "/**") := by
    rw [Bool.eq_iff_iff, beq_iff_eq, beq_iff_eq, ← String.toList_inj, ← String.toList_inj,
      canonicalText_toLower, Text.map_toLower_eq_iff (by simp [Text.IsCaseless])]
  have hbare : InStep (Option.Rel Shape.Folds)
      ((bareText? (canonicalText text).toList).mapM readGlob)
      ((bareText? (canonicalText text.toLower).toList).mapM readGlob) := by
    rw [canonicalText_toLower, bareText?_map_toLower]
    cases hfront : bareText? (canonicalText text).toList with
    | none => exact .ok .none
    | some front =>
        obtain ⟨_, hends⟩ := bareText?_eq_some_iff.mp hfront
        have hfront : '[' ∉ front := fun hmem => hclassless (hends ▸ List.mem_append_left _ hmem)
        simp only [Option.map_some, Option.mapM_some]
        exact (inStep_readGlob hfront).map fun _ _ hshape => .some hshape
  have hwhole := inStep_readGlob hclassless
  rw [← canonicalText_toLower] at hwhole
  exact hwhole.bind fun _ _ hwhole => hbare.bind fun _ _ hbare =>
    .ok ⟨rfl, rfl, hcatchAll, hwhole, hbare⟩

/-- Folding the case of a pattern without classes is lowering it and the paths. -/
theorem folded_as_lowered (text : String) (hclassless : '[' ∉ text.toList) :
    ((∃ p, compile .folded text = .ok p) ↔ ∃ q, compile .exact text.toLower = .ok q) ∧
      ∀ p q, compile .folded text = .ok p → compile .exact text.toLower = .ok q →
        ∀ path, p.covers path = q.covers path.toLower := by
  have hcanonical : '[' ∉ (canonicalText text).toList := by
    intro hmem
    rcases mem_of_mem_canonicalText hmem with hslash | hmem
    · cases hslash
    · exact hclassless hmem
  have hstep := inStep_compile hcanonical
  exact ⟨hstep.exists_ok_iff, fun p q hp hq => (hstep.rel_of_ok hp hq).covers_eq⟩

/-- A pattern with capital letters, a group and an escape covers a path in capital letters, as
its lowered form covers the lowered path. -/
theorem folded_as_lowered_versions :
    '[' ∉ "/Api/\x7bV1,v\\2\x7d/**".toList ∧
      ∃ p q, compile .folded "/Api/\x7bV1,v\\2\x7d/**" = .ok p ∧
        compile .exact "/Api/\x7bV1,v\\2\x7d/**".toLower = .ok q ∧
        p.covers "/API/V2" = q.covers "/API/V2".toLower ∧ p.covers "/API/V2" = true := by
  have hclassless : '[' ∉ "/Api/\x7bV1,v\\2\x7d/**".toList := by decide
  obtain ⟨hcompiles, hcovers⟩ := folded_as_lowered "/Api/\x7bV1,v\\2\x7d/**" hclassless
  obtain ⟨q, hq⟩ := hcompiles.mp ⟨_, rfl⟩
  exact ⟨hclassless, _, q, rfl, hq, hcovers _ q rfl hq "/API/V2", by decide⟩

end Pattern

end RouteGuard
