import RouteGuard.Pattern
import RouteGuard.Proofs.Glob.Spelling
import RouteGuard.Proofs.Text.Encoding

/-! # Patterns without marks

An expression in which no character has a meaning covers the text that it is. In
folded mode it covers every text that differs from it in the case of ASCII
letters alone.
-/

namespace RouteGuard

namespace Glob

/-- Bytes that a mode does not tell apart have one image. -/
def CaseMode.fold : CaseMode → UInt8 → UInt8
  | exact => id
  | folded => Text.lowerAscii

/-- The mode does not tell the texts apart. In folded mode they may differ in the
case of ASCII letters. -/
def CaseMode.Same (mode : CaseMode) (text other : String) : Prop :=
  (Text.bytes text).map mode.fold = (Text.bytes other).map mode.fold

instance (mode : CaseMode) (text other : String) : Decidable (mode.Same text other) := by
  unfold CaseMode.Same
  infer_instance

/-- A letter and its other case have one lower-case form, and no other byte
shares its own. -/
theorem lowerAscii_eq_iff (b c : UInt8) :
    Text.lowerAscii c = Text.lowerAscii b ↔ c = b ∨ Text.otherCase c = b := by
  have hb := b.toNat_lt
  have hc := c.toNat_lt
  simp only [← UInt8.toNat_inj, Text.lowerAscii, Text.otherCase, Bool.and_eq_true,
    decide_eq_true_eq, UInt8.le_iff_toNat_le, apply_ite UInt8.toNat, UInt8.toNat_add,
    UInt8.toNat_sub, UInt8.toNat_ofNat]
  grind

/-- A byte is accepted up to case, if the mode folds it. -/
theorem ByteTest.accepts_only_iff (mode : CaseMode) (b c : UInt8) :
    (only b).accepts mode c = true ↔ mode.fold c = mode.fold b := by
  have hlisted : ∀ d : UInt8, (only b).listed d = true ↔ d = b := by
    intro d
    have hbounds : (only b).listed d = true ↔ b ≤ d ∧ d ≤ b := by simp [only, listed]
    rw [hbounds]
    exact ⟨fun h => UInt8.le_antisymm h.2 h.1, fun h => h ▸ ⟨UInt8.le_refl _, UInt8.le_refl _⟩⟩
  cases mode with
  | exact => simpa [accepts, only, CaseMode.fold] using hlisted c
  | folded =>
      have haccepts : (only b).accepts .folded c = true ↔
          (only b).listed c = true ∨ (only b).listed (Text.otherCase c) = true := by
        simp [accepts, only]
      rw [haccepts, hlisted, hlisted, CaseMode.fold, lowerAscii_eq_iff]

theorem ByteTest.accepts_all (mode : CaseMode) (b : UInt8) : all.accepts mode b = true := by
  simp [accepts, all, listed]

theorem ByteTest.accepts_notSlash (mode : CaseMode) (b : UInt8) :
    notSlash.accepts mode b = !(only 0x2F).accepts mode b := by
  simp [accepts, notSlash, only, listed]

/-- A byte without another case is told apart from all others. -/
theorem eq_of_fold_eq {mode : CaseMode} {b c : UInt8} (hcaseless : Text.otherCase b = b)
    (hsame : mode.fold b = mode.fold c) : b = c := by
  cases mode with
  | exact => exact hsame
  | folded =>
      rcases (lowerAscii_eq_iff c b).mp hsame with hequal | hother
      · exact hequal
      · exact hcaseless.symm.trans hother

/-! ### Shapes of single texts -/

namespace Shape

variable {mode : CaseMode}

theorem spells_blank_iff {text : List UInt8} : Spells mode .blank text ↔ text = [] := by
  constructor
  · rintro ⟨⟩
    rfl
  · rintro rfl
    exact .blank

theorem spells_seq_iff {a b : Shape} {text : List UInt8} : Spells mode (seq a b) text ↔
    ∃ first second, text = first ++ second ∧ Spells mode a first ∧ Spells mode b second := by
  constructor
  · rintro ⟨⟩
    exact ⟨_, _, rfl, by assumption, by assumption⟩
  · rintro ⟨first, second, rfl, hfirst, hsecond⟩
    exact .seq hfirst hsecond

theorem spells_either_iff {a b : Shape} {text : List UInt8} :
    Spells mode (either a b) text ↔ Spells mode a text ∨ Spells mode b text := by
  constructor
  · intro hspells
    cases hspells with
    | left hfirst => exact Or.inl hfirst
    | right hsecond => exact Or.inr hsecond
  · rintro (hfirst | hsecond)
    · exact .left hfirst
    · exact .right hsecond

/-- Leaving out an empty shape makes no difference to a sequence. -/
theorem spells_andThen_iff {a b : Shape} {text : List UInt8} :
    Spells mode (a.andThen b) text ↔
      ∃ first second, text = first ++ second ∧ Spells mode a first ∧ Spells mode b second := by
  unfold andThen
  split
  next ha =>
    subst ha
    simp only [spells_blank_iff]
    constructor
    · exact fun htext => ⟨[], text, rfl, rfl, htext⟩
    · rintro ⟨_, second, rfl, rfl, hsecond⟩
      exact hsecond
  · split
    next hb => simp [hb, spells_blank_iff]
    · exact spells_seq_iff

/-- The shape that reads the given bytes. -/
def word (bs : List UInt8) : Shape :=
  bs.foldr (fun b s => Shape.andThen (.one (.only b)) s) .blank

/-- A word spells what has its bytes, up to case if the mode folds it. -/
theorem spells_word_iff (bs text : List UInt8) :
    Spells mode (word bs) text ↔ text.map mode.fold = bs.map mode.fold := by
  induction bs generalizing text with
  | nil =>
      rw [List.map_nil, List.map_eq_nil_iff]
      exact spells_blank_iff
  | cons b bs ih =>
      rw [word, List.foldr_cons, spells_andThen_iff, List.map_cons, List.map_eq_cons_iff]
      constructor
      · rintro ⟨first, second, rfl, hfirst, hsecond⟩
        cases hfirst with
        | one htest =>
            exact ⟨_, second, rfl, (ByteTest.accepts_only_iff mode b _).mp htest,
              (ih second).mp hsecond⟩
      · rintro ⟨c, second, rfl, hc, hsecond⟩
        exact ⟨[c], second, rfl, .one ((ByteTest.accepts_only_iff mode b c).mpr hc),
          (ih second).mpr hsecond⟩

end Shape

/-! ### Reading -/

/-- The characters that have a meaning outside groups and classes. -/
def marks : List Char := ['?', '*', '[', '\\', '{', '}']

variable {cs : List Char}

/-- Marks have no case, so texts that a mode does not tell apart have the same. -/
theorem CaseMode.Same.unmarked {mode : CaseMode} {text other : String}
    (hsame : mode.Same text other) (hother : ∀ c ∈ other.toList, c ∉ marks) :
    ∀ c ∈ text.toList, c ∉ marks := by
  intro c hc hmark
  have hcaseless : marks.all fun c =>
      c.toNat < 0x80 ∧ Text.otherCase (UInt8.ofNat c.toNat) = UInt8.ofNat c.toNat := by decide
  obtain ⟨hlow, hcase⟩ := of_decide_eq_true (List.all_eq_true.mp hcaseless c hmark)
  have hbyte : mode.fold (UInt8.ofNat c.toNat) ∈ (Text.bytes other).map mode.fold := by
    rw [← hsame]
    exact List.mem_map_of_mem ((Text.mem_encode_iff hlow _).mpr hc)
  obtain ⟨b, hb, hfold⟩ := List.mem_map.mp hbyte
  obtain rfl := eq_of_fold_eq hcase hfold.symm
  exact hother c ((Text.mem_encode_iff hlow _).mp hb) hmark

theorem Reader.read_of_unmarked {c : Char} (hc : c ∉ marks) (pieces : List Piece)
    (last : Option Char) :
    Reader.read { pieces, last } c = .ok { pieces := .char c :: pieces, last := some c } := by
  have hplain : Reader.readPlain { pieces, last } c =
      .ok { pieces := .char c :: pieces, last } := by
    unfold Reader.readPlain
    split
    -- a comma outside groups is read as it is
    case h_7 => rfl
    case h_8 => rfl
    all_goals exact absurd (by decide) hc
  simp only [Reader.read, hplain]
  rfl

theorem Reader.foldlM_read_of_unmarked (hcs : ∀ c ∈ cs, c ∉ marks) (pieces : List Piece)
    (last : Option Char) :
    ∃ next, cs.foldlM Reader.read { pieces, last } =
      .ok { pieces := (cs.map Piece.char).reverse ++ pieces, last := next } := by
  induction cs generalizing pieces last with
  | nil => exact ⟨last, rfl⟩
  | cons c cs ih =>
      rw [List.forall_mem_cons] at hcs
      obtain ⟨next, hnext⟩ := ih hcs.2 (.char c :: pieces) (some c)
      refine ⟨next, ?_⟩
      rw [List.foldlM_cons, Reader.read_of_unmarked hcs.1]
      simpa [bind, Except.bind] using hnext

/-- A row of characters is never the pattern for everything. -/
theorem reverse_map_char_ne (cs : List Char) :
    (cs.map Piece.char).reverse ≠ [.leadingSegments] := by
  intro hsame
  have hmem : Piece.leadingSegments ∈ cs.map Piece.char := by
    rw [← List.mem_reverse, hsame]
    exact List.mem_singleton_self _
  simp at hmem

/-- A text without marks is read character by character. -/
theorem parse_of_unmarked (hcs : ∀ c ∈ cs, c ∉ marks) :
    parse cs = .ok (branchShape (cs.map Piece.char).reverse) := by
  obtain ⟨last, hread⟩ := Reader.foldlM_read_of_unmarked hcs [] none
  rw [List.append_nil] at hread
  simp [parse, hread, Reader.finish, reverse_map_char_ne cs, bind, Except.bind]

/-- A branch of single characters spells them, up to case if the mode folds it. -/
theorem spells_branchShape_iff (mode : CaseMode) (text : List UInt8) :
    Shape.Spells mode (branchShape (cs.map Piece.char).reverse) text ↔
      text.map mode.fold = (Text.encode cs).map mode.fold := by
  rw [branchShape, List.foldl_reverse, List.foldr_map]
  induction cs generalizing text with
  | nil => exact Shape.spells_word_iff [] text
  | cons c cs ih =>
      rw [List.foldr_cons, Shape.spells_andThen_iff, Text.encode_cons, List.map_append,
        List.map_eq_append_iff]
      simp only [ih]
      constructor
      · rintro ⟨first, second, rfl, hfirst, hsecond⟩
        exact ⟨first, second, rfl, (Shape.spells_word_iff _ _).mp hfirst, hsecond⟩
      · rintro ⟨first, second, rfl, hfirst, hsecond⟩
        exact ⟨first, second, rfl, (Shape.spells_word_iff _ _).mpr hfirst, hsecond⟩

end Glob

/-! ### Patterns -/

/-- A canonical text starts with a slash. -/
theorem exists_canonicalText (url : String) : ∃ rest, (canonicalText url).toList = '/' :: rest := by
  simp only [canonicalText, String.toList_ofList]
  split
  next hslash =>
    obtain ⟨rest, hrest⟩ := List.head?_eq_some_iff.mp hslash
    exact ⟨rest, hrest⟩
  · exact ⟨_, rfl⟩

namespace Pattern

open Glob (CaseMode Shape)

theorem readGlob_eq_ok_iff {cs : List Char} {s : Shape} :
    readGlob cs = .ok s ↔ Glob.parse cs = .ok s := by
  rw [readGlob]
  cases Glob.parse cs with
  | error fault => exact ⟨nofun, nofun⟩
  | ok t => constructor <;> rintro ⟨⟩ <;> rfl

/-- A pattern is made of its canonical text and of what is read from that. -/
theorem compile_eq_ok_iff {mode : CaseMode} {pattern : String} {p : Pattern} :
    compile mode pattern = .ok p ↔
      ∃ whole bare, readGlob (canonicalText pattern).toList = .ok whole ∧
        (bareText? (canonicalText pattern).toList).mapM readGlob = .ok bare ∧
        p = ⟨canonicalText pattern, mode, whole, bare⟩ := by
  unfold compile
  cases hwhole : readGlob (canonicalText pattern).toList with
  | error e => simp [hwhole, bind, Except.bind]
  | ok whole =>
      cases hbare : (bareText? (canonicalText pattern).toList).mapM readGlob with
      | error e => simp [hwhole, hbare, bind, Except.bind]
      | ok bare => simp [hwhole, hbare, bind, Except.bind, pure, Except.pure, eq_comm]

/-- A pattern without marks can be read, and covers its own text and no other
that the mode tells apart from it. -/
theorem exists_compile_of_unmarked (mode : CaseMode) {pattern : String}
    (hplain : ∀ c ∈ (canonicalText pattern).toList, c ∉ Glob.marks) :
    ∃ p, compile mode pattern = .ok p ∧
      ∀ path, p.covers path = true ↔ mode.Same path (canonicalText pattern) := by
  have hstar : '*' ∉ (canonicalText pattern).toList := fun hmem => hplain '*' hmem (by decide)
  have hbare : bareText? (canonicalText pattern).toList = none := by
    unfold bareText?
    split
    next front hreverse =>
      refine absurd ?_ hstar
      rw [← List.mem_reverse, hreverse]
      exact List.mem_cons_self
    · rfl
  have hcatchAll : (canonicalText pattern == "/**") = false := by
    rw [beq_eq_false_iff_ne]
    rintro hsame
    exact hstar (hsame ▸ by decide)
  have hcompile : compile mode pattern = .ok
      { text := canonicalText pattern, mode,
        whole := Glob.branchShape ((canonicalText pattern).toList.map Glob.Piece.char).reverse,
        bare := none } := by
    simp only [compile, readGlob, Glob.parse_of_unmarked hplain, hbare]
    rfl
  refine ⟨_, hcompile, fun path => ?_⟩
  simp only [covers, isCatchAll, hcatchAll, Bool.false_or, Option.any_none, Bool.or_false,
    Glob.Shape.covers_iff]
  exact Glob.spells_branchShape_iff mode _

end Pattern

end RouteGuard
