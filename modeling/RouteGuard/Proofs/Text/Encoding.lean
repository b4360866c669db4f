import RouteGuard.Text.Utf8

/-! # The byte form of texts

No character's bytes are the beginning of another's, so the byte form of a text
tells its characters apart, and decoding gives them back. It accepts nothing else.
-/

namespace RouteGuard.Text

/-- The first character can be told from the bytes. -/
theorem encodeChar_append_inj {c d : Char} {bs others : List UInt8}
    (hsame : String.utf8EncodeChar c ++ bs = String.utf8EncodeChar d ++ others) :
    c = d ∧ bs = others := by
  have hdecode : ∀ (e : Char) (rest : List UInt8),
      (String.utf8EncodeChar e ++ rest).toByteArray.utf8DecodeChar? 0 = some e := by
    intro e rest
    rw [List.toByteArray_append]
    exact ByteArray.utf8DecodeChar?_utf8EncodeChar_append
  have hchar : c = d := by
    have hc := hdecode c bs
    rw [hsame, hdecode d others] at hc
    exact (Option.some.inj hc).symm
  subst hchar
  exact ⟨rfl, List.append_cancel_left hsame⟩

/-- A text whose bytes begin with those of another begins with that text. -/
theorem exists_append_of_encode {cs front : List Char} {bs : List UInt8}
    (hsame : encode cs = encode front ++ bs) : ∃ rest, cs = front ++ rest ∧ encode rest = bs := by
  induction front generalizing cs with
  | nil => exact ⟨cs, rfl, by simpa using hsame⟩
  | cons c front ih =>
      cases cs with
      | nil => simp [String.utf8EncodeChar_ne_nil] at hsame
      | cons d cs =>
          rw [encode_cons, encode_cons, List.append_assoc] at hsame
          obtain ⟨rfl, hrest⟩ := encodeChar_append_inj hsame
          obtain ⟨rest, rfl, hbs⟩ := ih hrest
          exact ⟨rest, rfl, hbs⟩

/-- Texts with the same bytes are the same. -/
theorem encode_injective : Function.Injective encode := by
  intro cs other hsame
  obtain ⟨rest, rfl, hrest⟩ : ∃ rest, cs = other ++ rest ∧ encode rest = [] :=
    exists_append_of_encode (by simpa using hsame)
  cases rest with
  | nil => simp
  | cons c rest => simp [String.utf8EncodeChar_ne_nil] at hrest

theorem length_bytes (s : String) : (bytes s).length = s.utf8ByteSize := by
  have hbytes := congrArg String.toByteArray (String.ofList_toList (s := s))
  rw [String.toByteArray_ofList] at hbytes
  rw [← String.size_toByteArray, ← hbytes, List.utf8Encode, List.size_toByteArray]
  rfl

/-! ### Bytes of single characters -/

/-- A byte below 0x80 only ever stands for its own character. -/
theorem toNat_of_mem_encodeChar {c : Char} {b : UInt8} (hb : b ∈ String.utf8EncodeChar c)
    (hlow : b.toNat < 0x80) : c.toNat = b.toNat := by
  have hval : c.val.toNat = c.toNat := rfl
  unfold String.utf8EncodeChar at hb
  simp only [hval] at hb
  split at hb
  · obtain rfl := List.mem_singleton.mp hb
    rw [UInt8.toNat_ofNat']
    omega
  · -- all bytes of a longer form carry a marker
    exfalso
    split at hb
    · simp only [List.mem_cons, List.not_mem_nil, or_false] at hb
      rcases hb with rfl | rfl <;> rw [UInt8.toNat_ofNat'] at hlow <;> omega
    · split at hb
      · simp only [List.mem_cons, List.not_mem_nil, or_false] at hb
        rcases hb with rfl | rfl | rfl <;> rw [UInt8.toNat_ofNat'] at hlow <;> omega
      · simp only [List.mem_cons, List.not_mem_nil, or_false] at hb
        rcases hb with rfl | rfl | rfl | rfl <;> rw [UInt8.toNat_ofNat'] at hlow <;> omega

theorem encodeChar_of_lt {c : Char} (hlow : c.toNat < 0x80) :
    String.utf8EncodeChar c = [UInt8.ofNat c.toNat] := by
  have hle : c.val.toNat ≤ 0x7F := Nat.le_of_lt_succ hlow
  simp only [String.utf8EncodeChar, hle, if_true]
  rfl

/-- An ASCII byte stands for its character wherever it stands. -/
theorem mem_encode_iff {c : Char} (hlow : c.toNat < 0x80) (cs : List Char) :
    UInt8.ofNat c.toNat ∈ encode cs ↔ c ∈ cs := by
  have hbyte : (UInt8.ofNat c.toNat).toNat = c.toNat := by
    rw [UInt8.toNat_ofNat']
    omega
  constructor
  · intro hmem
    obtain ⟨d, hd, hb⟩ := List.mem_flatMap.mp hmem
    have hsame := toNat_of_mem_encodeChar hb (by omega)
    rwa [← Char.toNat_inj.mp (hsame.trans hbyte)]
  · intro hc
    exact List.mem_flatMap.mpr ⟨c, hc, by simp [encodeChar_of_lt hlow]⟩

/-- Where the byte of such a character stands the text can be cut. -/
theorem exists_split_of_encode {c : Char} (hlow : c.toNat < 0x80) {cs : List Char}
    {before after : List UInt8} (hsame : encode cs = before ++ UInt8.ofNat c.toNat :: after) :
    ∃ front rest, cs = front ++ c :: rest ∧ encode front = before ∧ encode rest = after := by
  have hbyte : (UInt8.ofNat c.toNat).toNat = c.toNat := by
    rw [UInt8.toNat_ofNat']
    omega
  induction cs generalizing before with
  | nil => simp at hsame
  | cons d cs ih =>
      rw [encode_cons, List.append_eq_append_iff] at hsame
      obtain ⟨more, rfl, hrest⟩ | ⟨bs, hchar, hrest⟩ := hsame
      · obtain ⟨front, rest, rfl, rfl, rfl⟩ := ih hrest
        exact ⟨d :: front, rest, rfl, rfl, rfl⟩
      · cases bs with
        | nil =>
            obtain ⟨front, rest, rfl, hfront, rfl⟩ := @ih [] hrest.symm
            refine ⟨d :: front, rest, rfl, ?_, rfl⟩
            rw [encode_cons, hfront, hchar, List.append_nil, List.append_nil]
        | cons b bs =>
            -- the byte is one of `d`, which has no other then
            obtain ⟨rfl, rfl⟩ := List.cons.inj hrest
            have hmem : UInt8.ofNat c.toNat ∈ String.utf8EncodeChar d := by simp [hchar]
            have hsame := toNat_of_mem_encodeChar hmem (by omega)
            obtain rfl : d = c := Char.toNat_inj.mp (hsame.trans hbyte)
            rw [encodeChar_of_lt hlow] at hchar
            obtain ⟨rfl, hmore⟩ | ⟨_, _, hnil⟩ := List.append_eq_cons_iff.mp hchar.symm
            · obtain rfl := (List.cons.inj hmore).2
              exact ⟨[], cs, rfl, rfl, rfl⟩
            · simp at hnil

/-! ### Decoding -/

section Decoding

variable {a b c d : UInt8} {n m k j : Nat} (bs : List UInt8)

theorem isTail_of_toNat (hb : b.toNat = m + 0x80) (hm : m < 0x40) : isTail b = true := by
  have hbounds : 0x80 ≤ b ∧ b < 0xC0 := by
    rw [UInt8.le_iff_toNat_le, UInt8.lt_iff_toNat_lt, hb]
    exact ⟨Nat.le_add_left _ _, Nat.add_lt_add_right hm _⟩
  simp [isTail, hbounds]

theorem tailBits_of_toNat (hb : b.toNat = m + 0x80) : tailBits b = m := by
  unfold tailBits
  omega

/-- A second byte may follow where the encoding is neither too long, nor a surrogate, nor out of
range. -/
theorem mayFollow_of_toNat (hb : b.toNat = m + 0x80) (hm : m < 0x40)
    (hE0 : a.toNat = 0xE0 → 0x20 ≤ m) (hED : a.toNat = 0xED → m < 0x20)
    (hF0 : a.toNat = 0xF0 → 0x10 ≤ m) (hF4 : a.toNat = 0xF4 → m < 0x10) :
    mayFollow a b = true := by
  simp only [mayFollow, isTail_of_toNat hb hm, Bool.true_and, ← UInt8.toNat_inj,
    UInt8.le_iff_toNat_le, UInt8.lt_iff_toNat_lt, hb, UInt8.toNat_ofNat]
  grind

/-- One byte is decoded to an ASCII character. -/
theorem decode?_one (ha : a.toNat = n) (hn : n < 0x80) :
    decode? (a :: bs) = (decode? bs).map (Char.ofNat n :: ·) := by
  have hlead : a < 0x80 := by
    rw [UInt8.lt_iff_toNat_lt, ha]
    exact hn
  rw [decode?.eq_def]
  simp only [hlead, if_true, ha]

/-- Two bytes carry five and six bits. -/
theorem decode?_two (ha : a.toNat = n + 0xC0) (hb : b.toNat = m + 0x80) (hlong : 2 ≤ n)
    (hn : n < 0x20) (hm : m < 0x40) :
    decode? (a :: b :: bs) = (decode? bs).map (Char.ofNat (n * 64 + m) :: ·) := by
  have hlead : ¬ a < 0x80 ∧ 0xC2 ≤ a ∧ a < 0xE0 := by
    simp only [UInt8.lt_iff_toNat_lt, UInt8.le_iff_toNat_le, ha, UInt8.toNat_ofNat]
    omega
  have hfollow : mayFollow a b = true := by apply mayFollow_of_toNat hb hm <;> omega
  rw [decode?.eq_def]
  simp [hlead, hfollow, ha, tailBits_of_toNat hb]

/-- Three bytes carry four, six and six bits. -/
theorem decode?_three (ha : a.toNat = n + 0xE0) (hb : b.toNat = m + 0x80)
    (hc : c.toNat = k + 0x80) (hn : n < 0x10) (hm : m < 0x40) (hk : k < 0x40)
    (hlong : n = 0 → 0x20 ≤ m) (hsurrogate : n = 0xD → m < 0x20) :
    decode? (a :: b :: c :: bs) =
      (decode? bs).map (Char.ofNat ((n * 64 + m) * 64 + k) :: ·) := by
  have hlead : ¬ a < 0x80 ∧ ¬ a < 0xE0 ∧ 0xE0 ≤ a ∧ a < 0xF0 := by
    simp only [UInt8.lt_iff_toNat_lt, UInt8.le_iff_toNat_le, ha, UInt8.toNat_ofNat]
    omega
  have hfollow : mayFollow a b = true := by apply mayFollow_of_toNat hb hm <;> omega
  rw [decode?.eq_def]
  simp [hlead, hfollow, isTail_of_toNat hc hk, ha, tailBits_of_toNat hb, tailBits_of_toNat hc]

/-- Four bytes carry three, six, six and six bits. -/
theorem decode?_four (ha : a.toNat = n + 0xF0) (hb : b.toNat = m + 0x80)
    (hc : c.toNat = k + 0x80) (hd : d.toNat = j + 0x80) (hn : n < 5) (hm : m < 0x40)
    (hk : k < 0x40) (hj : j < 0x40) (hlong : n = 0 → 0x10 ≤ m) (hlast : n = 4 → m < 0x10) :
    decode? (a :: b :: c :: d :: bs) =
      (decode? bs).map (Char.ofNat (((n * 64 + m) * 64 + k) * 64 + j) :: ·) := by
  have hlead : ¬ a < 0x80 ∧ ¬ a < 0xE0 ∧ ¬ a < 0xF0 ∧ 0xF0 ≤ a ∧ a < 0xF5 := by
    simp only [UInt8.lt_iff_toNat_lt, UInt8.le_iff_toNat_le, ha, UInt8.toNat_ofNat]
    omega
  have hfollow : mayFollow a b = true := by apply mayFollow_of_toNat hb hm <;> omega
  rw [decode?.eq_def]
  simp [hlead, hfollow, isTail_of_toNat hc hk, isTail_of_toNat hd hj, ha, tailBits_of_toNat hb,
    tailBits_of_toNat hc, tailBits_of_toNat hd]

end Decoding

/-- A character is read back from its bytes. It is no surrogate and not past the
last character, and its bytes are as few as can be, so no bound is missed. -/
theorem decode?_encodeChar_append (c : Char) (bs : List UInt8) :
    decode? (String.utf8EncodeChar c ++ bs) = (decode? bs).map (c :: ·) := by
  have hvalid : c.val.toNat < 0xD800 ∨ (0xDFFF < c.val.toNat ∧ c.val.toNat < 0x110000) := c.valid
  have hchar : ∀ n, n = c.val.toNat → Char.ofNat n = c := by
    rintro _ rfl
    exact Char.ofNat_toNat c
  have hbyte : ∀ n < 256, (UInt8.ofNat n).toNat = n := by
    intro n hn
    rw [UInt8.toNat_ofNat', Nat.mod_eq_of_lt hn]
  unfold String.utf8EncodeChar
  dsimp only
  generalize c.val.toNat = v at hvalid hchar
  split
  · rw [List.singleton_append, decode?_one bs (hbyte v (by omega)) (by omega), hchar v rfl]
  · split
    · have hdecode := decode?_two bs (hbyte (v / 64 % 0x20 + 0xC0) (by omega))
        (hbyte (v % 0x40 + 0x80) (by omega)) (by omega) (by omega) (by omega)
      rwa [hchar _ (by omega)] at hdecode
    · split
      · have hdecode := decode?_three bs (hbyte (v / 4096 % 0x10 + 0xE0) (by omega))
          (hbyte (v / 64 % 0x40 + 0x80) (by omega)) (hbyte (v % 0x40 + 0x80) (by omega))
          (by omega) (by omega) (by omega) (by omega) (by omega)
        rwa [hchar _ (by omega)] at hdecode
      · have hdecode := decode?_four bs (hbyte (v / 262144 % 0x08 + 0xF0) (by omega))
          (hbyte (v / 4096 % 0x40 + 0x80) (by omega)) (hbyte (v / 64 % 0x40 + 0x80) (by omega))
          (hbyte (v % 0x40 + 0x80) (by omega)) (by omega) (by omega) (by omega) (by omega)
          (by omega) (by omega)
        rwa [hchar _ (by omega)] at hdecode

/-- What was encoded is decoded again, whatever follows. -/
theorem decode?_append (cs : List Char) (bs : List UInt8) :
    decode? (encode cs ++ bs) = (decode? bs).map (cs ++ ·) := by
  induction cs with
  | nil => simp
  | cons c cs ih =>
      rw [encode_cons, List.append_assoc, decode?_encodeChar_append, ih, Option.map_map]
      rfl

/-- Every text is read back from its bytes. -/
theorem decode?_encode (cs : List Char) : decode? (encode cs) = some cs := by
  simpa [decode?] using decode?_append cs []

/-! ### Bytes that are decoded -/

section Decoded

variable {a b c d : UInt8} {n m k j v : Nat}

theorem val_ofNat (hv : v.isValidChar) : (Char.ofNat v).val.toNat = v := by
  rw [Char.ofNat, dif_pos hv]
  rfl

theorem toNat_of_isTail (hb : isTail b = true) : ∃ m < 0x40, b.toNat = m + 0x80 := by
  simp only [isTail, Bool.and_eq_true, decide_eq_true_eq, UInt8.le_iff_toNat_le,
    UInt8.lt_iff_toNat_lt, UInt8.toNat_ofNat] at hb
  exact ⟨b.toNat - 0x80, by omega, by omega⟩

theorem toNat_of_mayFollow (hb : mayFollow a b = true) :
    ∃ m < 0x40, b.toNat = m + 0x80 ∧ (a.toNat = 0xE0 → 0x20 ≤ m) ∧ (a.toNat = 0xED → m < 0x20) ∧
      (a.toNat = 0xF0 → 0x10 ≤ m) ∧ (a.toNat = 0xF4 → m < 0x10) := by
  simp only [mayFollow, Bool.and_eq_true, ← UInt8.toNat_inj, UInt8.le_iff_toNat_le,
    UInt8.lt_iff_toNat_lt, UInt8.toNat_ofNat] at hb
  obtain ⟨m, hm, htail⟩ := toNat_of_isTail hb.1
  exact ⟨m, hm, htail, by grind⟩

/-- A character of seven bits takes one byte. -/
theorem encodeChar_one (ha : a.toNat = n) (hn : n < 0x80) :
    String.utf8EncodeChar (Char.ofNat n) = [a] := by
  have hval : (Char.ofNat n).toNat = n := val_ofNat (Or.inl (by omega))
  rw [encodeChar_of_lt (by omega), hval, ← ha, UInt8.ofNat_toNat]

/-- A character of up to eleven bits takes two bytes. -/
theorem encodeChar_two (ha : a.toNat = n + 0xC0) (hb : b.toNat = m + 0x80) (hlong : 2 ≤ n)
    (hn : n < 0x20) (hm : m < 0x40) :
    String.utf8EncodeChar (Char.ofNat (n * 64 + m)) = [a, b] := by
  have hval := val_ofNat (v := n * 64 + m) (Or.inl (by omega))
  simp only [String.utf8EncodeChar, hval]
  rw [if_neg (by omega), if_pos (by omega)]
  simp only [List.cons.injEq, ← UInt8.toNat_inj, UInt8.toNat_ofNat', ha, hb, and_true]
  omega

/-- A character of up to sixteen bits takes three bytes. -/
theorem encodeChar_three (ha : a.toNat = n + 0xE0) (hb : b.toNat = m + 0x80)
    (hc : c.toNat = k + 0x80) (hn : n < 0x10) (hm : m < 0x40) (hk : k < 0x40)
    (hlong : n = 0 → 0x20 ≤ m) (hsurrogate : n = 0xD → m < 0x20) :
    String.utf8EncodeChar (Char.ofNat ((n * 64 + m) * 64 + k)) = [a, b, c] := by
  have hval := val_ofNat (v := (n * 64 + m) * 64 + k) (by unfold Nat.isValidChar; omega)
  simp only [String.utf8EncodeChar, hval]
  rw [if_neg (by omega), if_neg (by omega), if_pos (by omega)]
  simp only [List.cons.injEq, ← UInt8.toNat_inj, UInt8.toNat_ofNat', ha, hb, hc, and_true]
  omega

/-- A character of more bits takes four bytes. -/
theorem encodeChar_four (ha : a.toNat = n + 0xF0) (hb : b.toNat = m + 0x80)
    (hc : c.toNat = k + 0x80) (hd : d.toNat = j + 0x80) (hn : n < 5) (hm : m < 0x40)
    (hk : k < 0x40) (hj : j < 0x40) (hlong : n = 0 → 0x10 ≤ m) (hlast : n = 4 → m < 0x10) :
    String.utf8EncodeChar (Char.ofNat (((n * 64 + m) * 64 + k) * 64 + j)) = [a, b, c, d] := by
  have hval := val_ofNat (v := ((n * 64 + m) * 64 + k) * 64 + j)
    (by unfold Nat.isValidChar; omega)
  simp only [String.utf8EncodeChar, hval]
  rw [if_neg (by omega), if_neg (by omega), if_neg (by omega)]
  simp only [List.cons.injEq, ← UInt8.toNat_inj, UInt8.toNat_ofNat', ha, hb, hc, hd, and_true]
  omega

/-- Decoding takes nothing but the bytes of the characters it gives. -/
theorem encode_of_decode? {bs : List UInt8} {cs : List Char} (hdecode : decode? bs = some cs) :
    encode cs = bs := by
  fun_induction decode? bs generalizing cs with
  | case1 => cases hdecode; rfl
  | case2 a rest hlead ih =>
      obtain ⟨cs, hrest, rfl⟩ := Option.map_eq_some_iff.mp hdecode
      rw [encode_cons, ih hrest, encodeChar_one rfl hlead]
      rfl
  | case3 a _ hlead b rest hfollow ih =>
      obtain ⟨cs, hrest, rfl⟩ := Option.map_eq_some_iff.mp hdecode
      obtain ⟨m, hm, hb, _⟩ := toNat_of_mayFollow hfollow
      simp only [Bool.and_eq_true, decide_eq_true_eq, UInt8.le_iff_toNat_le,
        UInt8.lt_iff_toNat_lt, UInt8.toNat_ofNat] at hlead
      rw [encode_cons, ih hrest, tailBits_of_toNat hb,
        encodeChar_two (a := a) (by omega) hb (by omega) (by omega) hm]
      rfl
  | case6 a _ _ hlead b c rest hfollow ih =>
      obtain ⟨cs, hrest, rfl⟩ := Option.map_eq_some_iff.mp hdecode
      rw [Bool.and_eq_true] at hfollow
      obtain ⟨m, hm, hb, hE0, hED, _⟩ := toNat_of_mayFollow hfollow.1
      obtain ⟨k, hk, hc⟩ := toNat_of_isTail hfollow.2
      simp only [Bool.and_eq_true, decide_eq_true_eq, UInt8.le_iff_toNat_le,
        UInt8.lt_iff_toNat_lt, UInt8.toNat_ofNat] at hlead
      rw [encode_cons, ih hrest, tailBits_of_toNat hb, tailBits_of_toNat hc,
        encodeChar_three (a := a) (by omega) hb hc (by omega) hm hk (by omega) (by omega)]
      rfl
  | case9 a _ _ _ hlead b c d rest hfollow ih =>
      obtain ⟨cs, hrest, rfl⟩ := Option.map_eq_some_iff.mp hdecode
      rw [Bool.and_eq_true, Bool.and_eq_true] at hfollow
      obtain ⟨m, hm, hb, _, _, hF0, hF4⟩ := toNat_of_mayFollow hfollow.1.1
      obtain ⟨k, hk, hc⟩ := toNat_of_isTail hfollow.1.2
      obtain ⟨j, hj, hd⟩ := toNat_of_isTail hfollow.2
      simp only [Bool.and_eq_true, decide_eq_true_eq, UInt8.le_iff_toNat_le,
        UInt8.lt_iff_toNat_lt, UInt8.toNat_ofNat] at hlead
      rw [encode_cons, ih hrest, tailBits_of_toNat hb, tailBits_of_toNat hc, tailBits_of_toNat hd,
        encodeChar_four (a := a) (by omega) hb hc hd (by omega) hm hk hj (by omega) (by omega)]
      rfl
  | _ => cases hdecode

/-- A byte list decodes to the text whose bytes it is, if it is those of any. -/
theorem decode?_eq_some_iff {bs : List UInt8} {cs : List Char} :
    decode? bs = some cs ↔ encode cs = bs :=
  ⟨encode_of_decode?, fun hbytes => hbytes ▸ decode?_encode cs⟩

/-- Bytes are refused if they encode no text. -/
theorem decode?_eq_none_iff {bs : List UInt8} : decode? bs = none ↔ ∀ cs, encode cs ≠ bs := by
  simp only [Option.eq_none_iff_forall_ne_some, ne_eq, decode?_eq_some_iff]

end Decoded

end RouteGuard.Text
