import RouteGuard.Proofs.Glob.Plain

/-! # The pattern of the administrative paths

What `/admin/**` covers: the path before the wildcard and everything below it,
and in exact mode nothing else.
-/

namespace RouteGuard

open Glob (CaseMode Shape ByteTest)

namespace Glob

/-- The given bytes, and after them a text of the shape. -/
def Shape.after (s : Shape) (bs : List UInt8) : Shape :=
  bs.foldr (fun b s => .seq (.one (.only b)) s) s

/-- A shape after some bytes spells those bytes and then what the shape spells. -/
theorem Shape.spells_after {mode : CaseMode} {s : Shape} {rest : List UInt8}
    (hrest : Spells mode s rest) (bs : List UInt8) : Spells mode (s.after bs) (bs ++ rest) := by
  induction bs with
  | nil => exact hrest
  | cons b bs ih =>
      have hfirst : Spells mode (.one (.only b)) [b] :=
        .one ((ByteTest.accepts_only_iff mode b b).mpr rfl)
      have hboth := Spells.seq hfirst ih
      exact hboth

/-- Where case counts, a shape after some bytes spells only texts that start with them. -/
theorem Shape.exists_of_spells_after {s : Shape} {bs text : List UInt8}
    (hspells : Spells .exact (s.after bs) text) :
    ∃ rest, text = bs ++ rest ∧ Spells .exact s rest := by
  induction bs generalizing text with
  | nil => exact ⟨text, rfl, hspells⟩
  | cons b bs ih =>
      cases hspells with
      | seq hfirst hsecond =>
          cases hfirst with
          | one htest =>
              obtain ⟨rest, rfl, hrest⟩ := ih hsecond
              obtain rfl : _ = b := (ByteTest.accepts_only_iff .exact b _).mp htest
              exact ⟨rest, rfl, hrest⟩

end Glob

/-- The path is `/admin` or lies below it. -/
def UnderAdmin (path : String) : Prop := path = "/admin" ∨ "/admin/".toList <+: path.toList

/-- What `/admin/**` compiles to. -/
def adminPattern (mode : CaseMode) : Pattern where
  text := "/admin/**"
  mode
  whole := (Shape.many .all).after (Text.bytes "/admin/")
  bare := some ((Shape.one (.only 0x6E)).after (Text.bytes "/admi"))

theorem compile_admin (mode : CaseMode) :
    Pattern.compile mode "/admin/**" = .ok (adminPattern mode) := rfl

/-- The pattern covers every administrative path, whatever the mode. -/
theorem covers_admin (mode : CaseMode) {path : String} (hunder : UnderAdmin path) :
    (adminPattern mode).covers path = true := by
  rcases hunder with rfl | ⟨rest, hrest⟩
  · have hbare : ((Shape.one (.only 0x6E)).after (Text.bytes "/admi")).covers mode
        (Text.bytes "/admin") = true := by
      rw [Shape.covers_iff]
      exact Shape.spells_after (.one ((ByteTest.accepts_only_iff mode 0x6E 0x6E).mpr rfl))
        (Text.bytes "/admi")
    simp [Pattern.covers, adminPattern, hbare]
  · have hwhole : ((Shape.many .all).after (Text.bytes "/admin/")).covers mode
        (Text.bytes path) = true := by
      rw [Shape.covers_iff, Text.bytes, Text.bytes, ← hrest, Text.encode_append]
      exact Shape.spells_after (.many fun b _ => ByteTest.accepts_all mode b) _
    simp [Pattern.covers, adminPattern, hwhole]

/-- Where case counts, the pattern covers administrative paths only. -/
theorem underAdmin_of_covers {path : String} (hcovers : (adminPattern .exact).covers path = true) :
    UnderAdmin path := by
  simp only [Pattern.covers, adminPattern, Pattern.isCatchAll, Bool.or_eq_true, Option.any_some,
    Shape.covers_iff] at hcovers
  rcases hcovers with (hall | hwhole) | hbare
  · simp at hall
  · obtain ⟨rest, hbytes, _⟩ := Shape.exists_of_spells_after hwhole
    obtain ⟨more, hpath, _⟩ := Text.exists_append_of_encode hbytes
    exact Or.inr ⟨more, hpath.symm⟩
  · obtain ⟨rest, hbytes, hlast⟩ := Shape.exists_of_spells_after hbare
    cases hlast with
    | one htest =>
        obtain rfl : _ = 0x6E := (ByteTest.accepts_only_iff .exact 0x6E _).mp htest
        have hsame : Text.encode path.toList = Text.encode "/admin".toList := hbytes
        exact Or.inl (String.toList_injective (Text.encode_injective hsame))

end RouteGuard
