import RouteGuard.Glob.Shape

/-! # What shapes cover

Matching moves marks along the text. It is correct because the positions marked
after a shape are those that lie one spelled text behind a mark before it.
-/

namespace RouteGuard.Glob.Shape

/-- A shape spells a text when the text is composed as the shape tells. -/
inductive Spells (mode : CaseMode) : Shape → List UInt8 → Prop
  | blank : Spells mode blank []
  | one {t : ByteTest} {b : UInt8} (htest : t.accepts mode b = true) : Spells mode (one t) [b]
  | many {t : ByteTest} {word : List UInt8} (htest : ∀ b ∈ word, t.accepts mode b = true) :
      Spells mode (many t) word
  | seq {first second : Shape} {word rest : List UInt8} (hfirst : Spells mode first word)
      (hsecond : Spells mode second rest) : Spells mode (seq first second) (word ++ rest)
  | left {first second : Shape} {word : List UInt8} (hfirst : Spells mode first word) :
      Spells mode (either first second) word
  | right {first second : Shape} {word : List UInt8} (hsecond : Spells mode second word) :
      Spells mode (either first second) word

/-- The text starts with a word of some kind that is `i` bytes long. -/
def Ahead (word : List UInt8 → Prop) (text : List UInt8) (i : Nat) : Prop :=
  ∃ read after, text = read ++ after ∧ word read ∧ i = read.length

/-- A position lies one word of some kind behind a marked one. -/
def Behind (word : List UInt8 → Prop) (text : List UInt8) (marks : List Bool) (i : Nat) : Prop :=
  ∃ before rest k, text = before ++ rest ∧ marks[before.length]? = some true ∧
    Ahead word rest k ∧ i = before.length + k

variable (mode : CaseMode) (p : UInt8 → Bool)

/-! ### Lengths -/

theorem length_shift (arriving : Bool) (text : List UInt8) (marks : List Bool)
    (hlength : marks.length = text.length + 1) :
    (shift p arriving text marks).length = text.length + 1 := by
  induction text generalizing arriving marks with
  | nil => cases marks <;> simp [shift]
  | cons b text ih =>
      cases marks with
      | nil => simp at hlength
      | cons m marks => simpa [shift] using ih _ marks (by simpa using hlength)

theorem length_spread (arriving : Bool) (text : List UInt8) (marks : List Bool)
    (hlength : marks.length = text.length + 1) :
    (spread p arriving text marks).length = text.length + 1 := by
  induction text generalizing arriving marks with
  | nil => cases marks <;> simp [spread]
  | cons b text ih =>
      cases marks with
      | nil => simp at hlength
      | cons m marks => simpa [spread] using ih _ marks (by simpa using hlength)

/-- No step changes the number of marks: one before each byte and one at the end. -/
theorem length_advance (text : List UInt8) (s : Shape) (marks : List Bool)
    (hlength : marks.length = text.length + 1) :
    (s.advance mode text marks).length = text.length + 1 := by
  induction s generalizing marks with
  | blank => exact hlength
  | one t => exact length_shift _ _ _ _ hlength
  | many t => exact length_spread _ _ _ _ hlength
  | seq a b iha ihb => exact ihb _ (iha _ hlength)
  | either a b iha ihb => simp [advance, iha _ hlength, ihb _ hlength]

/-! ### Marks -/

/-- In the empty text there is only one mark to start from. -/
theorem behind_nil (word : List UInt8 → Prop) (m : Bool) (i : Nat) :
    Behind word [] [m] i ↔ m = true ∧ Ahead word [] i := by
  constructor
  · rintro ⟨before, rest, k, htext, hmark, hahead, rfl⟩
    obtain ⟨rfl, rfl⟩ := List.append_eq_nil_iff.mp htext.symm
    exact ⟨by simpa using hmark, by simpa using hahead⟩
  · rintro ⟨hm, hahead⟩
    exact ⟨[], [], i, rfl, by simp [hm], hahead, by simp⟩

/-- A position lies behind the first mark or behind one of the others. -/
theorem behind_cons (word : List UInt8 → Prop) (b : UInt8) (text : List UInt8) (m : Bool)
    (marks : List Bool) (i : Nat) :
    Behind word (b :: text) (m :: marks) i ↔
      (m = true ∧ Ahead word (b :: text) i) ∨ ∃ k, i = k + 1 ∧ Behind word text marks k := by
  constructor
  · rintro ⟨before, rest, k, htext, hmark, hahead, rfl⟩
    cases before with
    | nil =>
        obtain rfl : b :: text = rest := htext
        exact Or.inl ⟨by simpa using hmark, by simpa using hahead⟩
    | cons c before =>
        obtain ⟨rfl, rfl⟩ := List.cons.inj htext
        refine Or.inr ⟨before.length + k, by simp; omega, ?_⟩
        exact ⟨before, rest, k, rfl, by simpa using hmark, hahead, rfl⟩
  · rintro (⟨hm, hahead⟩ | ⟨k, rfl, before, rest, j, rfl, hmark, hahead, rfl⟩)
    · exact ⟨[], b :: text, i, rfl, by simp [hm], hahead, by simp⟩
    · exact ⟨b :: before, rest, j, rfl, by simpa using hmark, hahead, by simp; omega⟩

/-- One byte that passes a test. -/
def OneOf (read : List UInt8) : Prop := ∃ b, read = [b] ∧ p b = true

/-- Any number of bytes that pass a test. -/
def AllOf (read : List UInt8) : Prop := ∀ b ∈ read, p b = true

theorem ahead_oneOf_zero (text : List UInt8) : ¬ Ahead (OneOf p) text 0 := by
  rintro ⟨read, after, _, ⟨b, rfl, _⟩, hlength⟩
  simp at hlength

/-- A single byte leads one position on, if it passes. -/
theorem ahead_oneOf_cons (b : UInt8) (text : List UInt8) (k : Nat) :
    Ahead (OneOf p) (b :: text) (k + 1) ↔ k = 0 ∧ p b = true := by
  constructor
  · rintro ⟨read, after, htext, ⟨c, rfl, hc⟩, hlength⟩
    obtain ⟨rfl, _⟩ := List.cons.inj htext
    exact ⟨by simpa using hlength, hc⟩
  · rintro ⟨rfl, hb⟩
    exact ⟨[b], text, rfl, ⟨b, rfl, hb⟩, rfl⟩

theorem ahead_allOf_zero (text : List UInt8) : Ahead (AllOf p) text 0 :=
  ⟨[], text, rfl, by simp [AllOf], rfl⟩

/-- A run leads one position further if the byte before it passes too. -/
theorem ahead_allOf_cons (b : UInt8) (text : List UInt8) (k : Nat) :
    Ahead (AllOf p) (b :: text) (k + 1) ↔ p b = true ∧ Ahead (AllOf p) text k := by
  constructor
  · rintro ⟨read, after, htext, hall, hlength⟩
    cases read with
    | nil => simp at hlength
    | cons c read =>
        obtain ⟨rfl, rfl⟩ := List.cons.inj htext
        obtain ⟨hc, hread⟩ := List.forall_mem_cons.mp hall
        exact ⟨hc, read, after, rfl, hread, by simpa using hlength⟩
  · rintro ⟨hb, read, after, rfl, hall, rfl⟩
    exact ⟨b :: read, after, rfl, List.forall_mem_cons.mpr ⟨hb, hall⟩, rfl⟩

/-- A shift marks the positions one byte behind a mark, and the front if something arrives
there. -/
theorem getElem?_shift (arriving : Bool) (text : List UInt8) (marks : List Bool)
    (hlength : marks.length = text.length + 1) (i : Nat) :
    (shift p arriving text marks)[i]? = some true ↔
      (i = 0 ∧ arriving = true) ∨ Behind (OneOf p) text marks i := by
  induction text generalizing arriving marks i with
  | nil =>
      obtain ⟨m, rfl⟩ := List.length_eq_one_iff.mp hlength
      rw [behind_nil]
      cases i with
      | zero => simp [shift, ahead_oneOf_zero]
      | succ k => simp [shift, Ahead, OneOf]
  | cons b text ih =>
      cases marks with
      | nil => simp at hlength
      | cons m marks =>
          rw [behind_cons]
          cases i with
          | zero => simp [shift, ahead_oneOf_zero]
          | succ k =>
              simp only [shift, List.getElem?_cons_succ, ih _ _ (Nat.succ.inj hlength),
                ahead_oneOf_cons]
              simp [and_left_comm]

/-- A spread marks the positions that a run leads to, from a mark or from what arrives at the
front. -/
theorem getElem?_spread (arriving : Bool) (text : List UInt8) (marks : List Bool)
    (hlength : marks.length = text.length + 1) (i : Nat) :
    (spread p arriving text marks)[i]? = some true ↔
      (arriving = true ∧ Ahead (AllOf p) text i) ∨ Behind (AllOf p) text marks i := by
  induction text generalizing arriving marks i with
  | nil =>
      obtain ⟨m, rfl⟩ := List.length_eq_one_iff.mp hlength
      rw [behind_nil]
      cases i with
      | zero => simp [spread, ahead_allOf_zero]
      | succ k => simp [spread, Ahead]
  | cons b text ih =>
      cases marks with
      | nil => simp at hlength
      | cons m marks =>
          rw [behind_cons]
          cases i with
          | zero => simp [spread, ahead_allOf_zero]
          | succ k =>
              simp only [spread, List.getElem?_cons_succ, ih _ _ (Nat.succ.inj hlength),
                ahead_allOf_cons]
              simp [and_assoc, or_and_right, or_assoc]

theorem behind_congr {word other : List UInt8 → Prop} (hsame : ∀ read, word read ↔ other read)
    (text : List UInt8) (marks : List Bool) (i : Nat) :
    Behind word text marks i ↔ Behind other text marks i := by
  rw [show word = other from funext fun read => propext (hsame read)]

theorem spells_one_iff (t : ByteTest) (read : List UInt8) :
    Spells mode (one t) read ↔ OneOf (t.accepts mode) read := by
  constructor
  · rintro ⟨⟩
    exact ⟨_, rfl, by assumption⟩
  · rintro ⟨b, rfl, htest⟩
    exact .one htest

theorem spells_many_iff (t : ByteTest) (read : List UInt8) :
    Spells mode (many t) read ↔ AllOf (t.accepts mode) read := by
  constructor
  · rintro ⟨⟩
    assumption
  · exact .many

/-- Nothing is read, so the marks stay where they are. -/
theorem behind_blank (text : List UInt8) (marks : List Bool)
    (hlength : marks.length = text.length + 1) (i : Nat) :
    Behind (Spells mode blank) text marks i ↔ marks[i]? = some true := by
  constructor
  · rintro ⟨before, rest, k, _, hmark, ⟨read, after, _, hread, rfl⟩, rfl⟩
    cases hread
    simpa using hmark
  · intro hmark
    have hle : i ≤ text.length := by
      have hlt := (List.getElem?_eq_some_iff.mp hmark).1
      omega
    have htake : (text.take i).length = i := List.length_take_of_le hle
    exact ⟨text.take i, text.drop i, 0, (List.take_append_drop i text).symm, by rwa [htake],
      ⟨[], text.drop i, rfl, .blank, rfl⟩, by simpa using htake.symm⟩

/-- To stand behind a sequence is to stand behind its second part, the first
part being behind the marks. -/
theorem behind_seq (a b : Shape) (text : List UInt8) (marks between : List Bool)
    (hbetween : ∀ i, between[i]? = some true ↔ Behind (Spells mode a) text marks i) (i : Nat) :
    Behind (Spells mode (seq a b)) text marks i ↔ Behind (Spells mode b) text between i := by
  constructor
  · rintro ⟨before, rest, k, rfl, hmark, ⟨read, after, rfl, hread, rfl⟩, rfl⟩
    cases hread with
    | @seq _ _ first second hfirst hsecond =>
        have hmiddle : between[(before ++ first).length]? = some true :=
          (hbetween _).mpr ⟨before, first ++ (second ++ after), first.length, by simp, hmark,
            ⟨first, second ++ after, rfl, hfirst, rfl⟩, by simp⟩
        exact ⟨before ++ first, second ++ after, second.length, by simp, hmiddle,
          ⟨second, after, rfl, hsecond, rfl⟩, by simp; omega⟩
  · rintro ⟨middle, rest, k, rfl, hmiddle, ⟨second, after, rfl, hsecond, rfl⟩, rfl⟩
    obtain ⟨before, rest, k, htext, hmark, ⟨first, remaining, rfl, hfirst, rfl⟩, hlength⟩ :=
      (hbetween _).mp hmiddle
    have hparts : middle ++ (second ++ after) = (before ++ first) ++ remaining := by
      simpa using htext
    -- both parts of the text meet at the mark between them
    obtain ⟨rfl, rfl⟩ := List.append_inj hparts (by simpa using hlength)
    exact ⟨before, first ++ (second ++ after), (first ++ second).length, by simp, hmark,
      ⟨first ++ second, after, by simp, .seq hfirst hsecond, rfl⟩, by simp; omega⟩

/-- To stand behind a choice is to stand behind one of its parts. -/
theorem behind_either (a b : Shape) (text : List UInt8) (marks : List Bool) (i : Nat) :
    Behind (Spells mode (either a b)) text marks i ↔
      Behind (Spells mode a) text marks i ∨ Behind (Spells mode b) text marks i := by
  constructor
  · rintro ⟨before, rest, k, htext, hmark, ⟨read, after, hrest, hread, hk⟩, hi⟩
    cases hread with
    | left hfirst =>
        exact Or.inl ⟨before, rest, k, htext, hmark, ⟨read, after, hrest, hfirst, hk⟩, hi⟩
    | right hsecond =>
        exact Or.inr ⟨before, rest, k, htext, hmark, ⟨read, after, hrest, hsecond, hk⟩, hi⟩
  · rintro (⟨before, rest, k, htext, hmark, ⟨read, after, hrest, hfirst, hk⟩, hi⟩ |
      ⟨before, rest, k, htext, hmark, ⟨read, after, hrest, hsecond, hk⟩, hi⟩)
    · exact ⟨before, rest, k, htext, hmark, ⟨read, after, hrest, .left hfirst, hk⟩, hi⟩
    · exact ⟨before, rest, k, htext, hmark, ⟨read, after, hrest, .right hsecond, hk⟩, hi⟩

/-- Marks of two lists are joined one by one. -/
theorem getElem?_zipWith_or (marks others : List Bool) (hlength : marks.length = others.length)
    (i : Nat) :
    (List.zipWith (· || ·) marks others)[i]? = some true ↔
      marks[i]? = some true ∨ others[i]? = some true := by
  rw [List.getElem?_zipWith]
  by_cases hi : i < marks.length
  · have hi' : i < others.length := hlength ▸ hi
    simp [hi, hi']
  · have hi' : ¬ i < others.length := hlength ▸ hi
    simp [List.getElem?_eq_none (Nat.le_of_not_lt hi), List.getElem?_eq_none (Nat.le_of_not_lt hi')]

/-- The marks after a shape are those that lie one of its texts behind a mark. -/
theorem getElem?_advance (text : List UInt8) (s : Shape) (marks : List Bool)
    (hlength : marks.length = text.length + 1) (i : Nat) :
    (s.advance mode text marks)[i]? = some true ↔ Behind (Spells mode s) text marks i := by
  induction s generalizing marks i with
  | blank => rw [advance, behind_blank mode text marks hlength]
  | one t =>
      rw [advance, getElem?_shift _ _ _ _ hlength, behind_congr (spells_one_iff mode t)]
      simp
  | many t =>
      rw [advance, getElem?_spread _ _ _ _ hlength, behind_congr (spells_many_iff mode t)]
      simp
  | seq a b iha ihb =>
      rw [advance, ihb _ (length_advance mode text a marks hlength)]
      exact (behind_seq mode a b text marks _ (iha marks hlength) i).symm
  | either a b iha ihb =>
      have hsame := (length_advance mode text a marks hlength).trans
        (length_advance mode text b marks hlength).symm
      rw [advance, getElem?_zipWith_or _ _ hsame, iha _ hlength, ihb _ hlength, behind_either]

theorem length_start (text : List UInt8) : (start text).length = text.length + 1 := by
  simp [start]

/-- At the start only the front is marked. -/
theorem getElem?_start (text : List UInt8) (i : Nat) :
    (start text)[i]? = some true ↔ i = 0 := by
  cases i with
  | zero => simp [start]
  | succ k =>
      simp only [start, List.getElem?_cons_succ, List.getElem?_map]
      cases text[k]? <;> simp

/-- A shape covers exactly the texts that it spells. -/
theorem covers_iff (s : Shape) (text : List UInt8) :
    s.covers mode text = true ↔ Spells mode s text := by
  have hlength := length_advance mode text s (start text) (length_start text)
  have hlast : s.covers mode text = true ↔
      (s.advance mode text (start text))[text.length]? = some true := by
    rw [covers, List.getLastD_eq_getLast?, List.getLast?_eq_getElem?, hlength, Nat.add_sub_cancel]
    cases (s.advance mode text (start text))[text.length]? <;> simp
  -- the only mark to start from is at the front, so the whole text is read
  rw [hlast, getElem?_advance mode text s _ (length_start text)]
  constructor
  · rintro ⟨before, rest, k, htext, hmark, ⟨read, after, rfl, hread, rfl⟩, hi⟩
    obtain rfl := List.length_eq_zero_iff.mp ((getElem?_start text _).mp hmark)
    have hafter : after = [] := by
      rw [← List.length_eq_zero_iff]
      rw [htext] at hi
      simpa using hi
    rw [htext, hafter]
    simpa using hread
  · intro hspells
    exact ⟨[], text, text.length, rfl, by simp [getElem?_start], ⟨text, [], by simp, hspells, rfl⟩,
      by simp⟩

end RouteGuard.Glob.Shape
