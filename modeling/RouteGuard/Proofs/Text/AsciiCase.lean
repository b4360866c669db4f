import RouteGuard.Proofs.Text.Encoding
import RouteGuard.Text.Blank
import RouteGuard.Text.Lowercase

/-! # Lower case of ASCII letters

The lower-case form of a text changes its capital ASCII letters alone, whether it
is taken by characters or by bytes. Characters that are no letters stay and gain
no others.
-/

namespace RouteGuard.Text

/-- Lowering moves `A` to `Z` up by `0x20`, and leaves every other character. -/
theorem toNat_toLower (c : Char) :
    c.toLower.toNat = if 0x41 ≤ c.toNat ∧ c.toNat ≤ 0x5A then c.toNat + 0x20 else c.toNat := by
  have hbounds : (c.val ≥ 'A'.val ∧ c.val ≤ 'Z'.val) ↔ 0x41 ≤ c.toNat ∧ c.toNat ≤ 0x5A := Iff.rfl
  unfold Char.toLower
  simp only [hbounds]
  split
  next hupper =>
    have hval : c.val.toNat = c.toNat := rfl
    have hshift : ('a'.val - 'A'.val).toNat = 0x20 := rfl
    have hsum : (c.val + ('a'.val - 'A'.val)).toNat = c.toNat + 0x20 := by
      rw [UInt32.toNat_add, hval, hshift]
      omega
    exact hsum
  · rfl

/-- The character is no ASCII letter. -/
def IsCaseless (c : Char) : Prop :=
  c.toNat < 0x41 ∨ 0x5A < c.toNat ∧ c.toNat < 0x61 ∨ 0x7A < c.toNat

instance (c : Char) : Decidable (IsCaseless c) := by
  unfold IsCaseless
  infer_instance

/-- A character that is no letter is the lower-case form of itself alone. -/
theorem toLower_eq_iff {c d : Char} (hd : IsCaseless d) : c.toLower = d ↔ c = d := by
  unfold IsCaseless at hd
  rw [← Char.toNat_inj, ← Char.toNat_inj, toNat_toLower]
  split <;> omega

theorem map_toLower_eq_some_iff {c : Option Char} {d : Char} (hd : IsCaseless d) :
    c.map Char.toLower = some d ↔ c = some d := by
  cases c with
  | none => simp
  | some c => simp [toLower_eq_iff hd]

/-- Neither can a text of such characters be told from its lower-case form. -/
theorem map_toLower_eq_iff {cs ds : List Char} (hds : ∀ d ∈ ds, IsCaseless d) :
    cs.map Char.toLower = ds ↔ cs = ds := by
  induction ds generalizing cs with
  | nil => simp
  | cons d ds ih =>
      obtain ⟨hd, hds⟩ := List.forall_mem_cons.mp hds
      cases cs with
      | nil => simp
      | cons c cs => simp [toLower_eq_iff hd, ih hds]

/-- A character is one of such characters if its lower-case form is. -/
theorem toLower_mem_iff {c : Char} {ds : List Char} (hds : ∀ d ∈ ds, IsCaseless d) :
    c.toLower ∈ ds ↔ c ∈ ds := by
  constructor
  · intro hmem
    rwa [← (toLower_eq_iff (hds _ hmem)).mp rfl] at hmem
  · intro hmem
    rwa [(toLower_eq_iff (hds c hmem)).mpr rfl]

/-- The bytes of `A` to `Z` move up by `0x20`, and all others stay. -/
theorem toNat_lowerAscii (b : UInt8) :
    (lowerAscii b).toNat =
      if 0x41 ≤ b.toNat ∧ b.toNat ≤ 0x5A then b.toNat + 0x20 else b.toNat := by
  simp only [lowerAscii, Bool.and_eq_true, decide_eq_true_eq, UInt8.le_iff_toNat_le,
    UInt8.toNat_ofNat]
  split
  · have hshift : (0x20 : UInt8).toNat = 0x20 := rfl
    rw [UInt8.toNat_add, hshift]
    omega
  · rfl

/-- Lowering a character lowers its bytes, as no byte of a longer encoding is a letter. -/
theorem encodeChar_toLower (c : Char) :
    String.utf8EncodeChar c.toLower = (String.utf8EncodeChar c).map lowerAscii := by
  have hchar := toNat_toLower c
  by_cases hlow : c.toNat < 0x80
  · have hlower : c.toLower.toNat < 0x80 := by
      rw [hchar]
      split <;> omega
    have hbyte : (UInt8.ofNat c.toNat).toNat = c.toNat := by
      rw [UInt8.toNat_ofNat']
      omega
    rw [encodeChar_of_lt hlow, encodeChar_of_lt hlower, List.map_singleton, List.singleton_inj,
      ← UInt8.toNat_inj, toNat_lowerAscii, hbyte, ← hchar, UInt8.toNat_ofNat']
    omega
  · -- none of the bytes of other characters is a letter
    have hsame : c.toLower = c := by
      rw [← Char.toNat_inj, hchar, if_neg (by omega)]
    have hbytes : ∀ b ∈ String.utf8EncodeChar c, lowerAscii b = b := by
      intro b hb
      have hhigh : 0x80 ≤ b.toNat := by
        rw [← Nat.not_lt]
        intro hsmall
        rw [toNat_of_mem_encodeChar hb hsmall] at hlow
        exact hlow hsmall
      rw [← UInt8.toNat_inj, toNat_lowerAscii, if_neg (by omega)]
    rw [hsame, List.map_congr_left hbytes, List.map_id']

theorem encode_map_toLower (cs : List Char) :
    encode (cs.map Char.toLower) = (encode cs).map lowerAscii := by
  induction cs with
  | nil => rfl
  | cons c cs ih =>
      rw [List.map_cons, encode_cons, encode_cons, List.map_append, ih, encodeChar_toLower]

theorem toList_toLower (s : String) : s.toLower.toList = s.toList.map Char.toLower :=
  String.toList_map

/-- The bytes of the lowered text are the lowered bytes of the text. -/
theorem bytes_toLower (s : String) : bytes s.toLower = (bytes s).map lowerAscii := by
  rw [bytes, toList_toLower, encode_map_toLower, bytes]

theorem isBlank_toLower (c : Char) : isBlank c.toLower = isBlank c := by
  simp only [isBlank, inBlocks, blankBlocks, toNat_toLower, List.any_cons, List.any_nil]
  split
  · grind
  · rfl

/-- Lowering and trimming commute. -/
theorem trimChars_map_toLower (cs : List Char) :
    trimChars (cs.map Char.toLower) = (trimChars cs).map Char.toLower := by
  have hblank : isBlank ∘ Char.toLower = isBlank := funext isBlank_toLower
  simp only [trimChars, List.dropWhile_map, ← List.map_reverse, hblank]

end RouteGuard.Text
