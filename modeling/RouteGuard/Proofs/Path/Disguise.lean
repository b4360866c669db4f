import RouteGuard.Proofs.Path.Targets

/-! # Disguised paths

A path can be sent in many spellings: with detours that lead back to where they
began, with any of its characters escaped, and with a query or a fragment behind
it. All of them have the path itself as their canonical form, so no spelling
reaches a resource under a name that the rules do not know.
-/

namespace RouteGuard.Path

open Text (joined)

/-! ### Detours -/

theorem mem_joined {separator c : Char} {segs : List (List Char)}
    (hc : c ∈ joined separator segs) : c = separator ∨ ∃ seg ∈ segs, c ∈ seg := by
  fun_induction joined separator segs with
  | case1 => cases hc
  | case2 seg => exact Or.inr ⟨seg, List.mem_singleton_self seg, hc⟩
  | case3 seg segs _ ih =>
      rcases List.mem_append.mp hc with hfirst | hlater
      · exact Or.inr ⟨seg, List.mem_cons_self, hfirst⟩
      · rcases List.mem_cons.mp hlater with hslash | hrest
        · exact Or.inl hslash
        · obtain hslash | ⟨other, hother, hmem⟩ := ih hrest
          · exact Or.inl hslash
          · exact Or.inr ⟨other, List.mem_cons_of_mem _ hother, hmem⟩

/-- A segment that stands for itself wherever it is sent. -/
structure Literal (seg : List Char) : Prop where
  ordinary : Ordinary seg
  unmarked : ∀ c ∈ seg, c ∉ ['/', '?', '#', '%']

/-- A route with detours: segments that stay, segments that are left again at
once, and steps back at the root. Detours may be made within detours. -/
inductive Detoured (segs : List (List Char)) : List (List Char) → Prop
  | direct : Detoured segs segs
  | empty {before after : List (List Char)} (route : Detoured segs (before ++ after)) :
    Detoured segs (before ++ [] :: after)
  | dot {before after : List (List Char)} (route : Detoured segs (before ++ after)) :
    Detoured segs (before ++ ['.'] :: after)
  | back {before after : List (List Char)} {seg : List Char} (hseg : Literal seg)
    (route : Detoured segs (before ++ after)) :
    Detoured segs (before ++ seg :: ['.', '.'] :: after)
  | above {before : List (List Char)} (route : Detoured segs before) :
    Detoured segs (['.', '.'] :: before)

namespace Detoured

variable {segs route : List (List Char)}

/-- No detour changes where the walk ends. -/
theorem resolve_eq (hroute : Detoured segs route) : resolve route = resolve segs := by
  induction hroute with
  | direct => rfl
  | empty _ ih =>
      rw [← ih, resolve, resolve, List.foldl_append, List.foldl_append]
      rfl
  | dot _ ih =>
      rw [← ih, resolve, resolve, List.foldl_append, List.foldl_append]
      rfl
  | back hseg _ ih =>
      rw [← ih, resolve, resolve, List.foldl_append, List.foldl_append, List.foldl_cons,
        walk_of_ordinary hseg.ordinary]
      rfl
  | above _ ih =>
      rw [← ih]
      rfl

/-- Detours bring in no marks. -/
theorem unmarked (hroute : Detoured segs route) (hsegs : ∀ seg ∈ segs, Literal seg) :
    ∀ seg ∈ route, ∀ c ∈ seg, c ∉ ['/', '?', '#', '%'] := by
  induction hroute with
  | direct => exact fun seg hseg => (hsegs seg hseg).unmarked
  | empty _ ih =>
      rw [List.forall_mem_append] at ih ⊢
      exact ⟨ih.1, List.forall_mem_cons.mpr ⟨List.forall_mem_nil _, ih.2⟩⟩
  | dot _ ih =>
      rw [List.forall_mem_append] at ih ⊢
      exact ⟨ih.1, List.forall_mem_cons.mpr ⟨by simp, ih.2⟩⟩
  | back hseg _ ih =>
      rw [List.forall_mem_append] at ih ⊢
      refine ⟨ih.1, List.forall_mem_cons.mpr ⟨hseg.unmarked, ?_⟩⟩
      exact List.forall_mem_cons.mpr ⟨by simp, ih.2⟩
  | above _ ih => exact List.forall_mem_cons.mpr ⟨by simp, ih⟩

/-- A route is written with or without a slash in front. -/
theorem resolve_segments (hroute : Detoured segs route) (hsegs : ∀ seg ∈ segs, Literal seg)
    {text : List Char} (htext : text = joined '/' route ∨ text = '/' :: joined '/' route) :
    resolve (segments text) = segs := by
  have hsame : resolve (segments text) = resolve (segments (joined '/' route)) := by
    rcases htext with rfl | rfl
    · rfl
    · exact resolve_segments_cons _
  have hplain : ∀ seg ∈ route, '/' ∉ seg := fun seg hseg hslash =>
    hroute.unmarked hsegs seg hseg '/' hslash (by decide)
  rw [hsame, resolve_segments_joined hplain, hroute.resolve_eq,
    resolve_eq_self_iff.mpr fun seg hseg => (hsegs seg hseg).ordinary]

theorem unmarked_text (hroute : Detoured segs route) (hsegs : ∀ seg ∈ segs, Literal seg)
    {text : List Char} (htext : text = joined '/' route ∨ text = '/' :: joined '/' route) :
    ∀ c ∈ text, c ∉ ['?', '#', '%'] := by
  have hjoined : ∀ c ∈ joined '/' route, c ∉ ['?', '#', '%'] := by
    intro c hc
    obtain rfl | ⟨seg, hseg, hc⟩ := mem_joined hc
    · decide
    · exact fun hmark => hroute.unmarked hsegs seg hseg c hc (List.mem_cons_of_mem _ hmark)
  rcases htext with rfl | rfl
  · exact hjoined
  · exact List.forall_mem_cons.mpr ⟨by decide, hjoined⟩

end Detoured

/-! ### Escapes -/

/-- A digit of a number below sixteen, in either case. -/
def IsHexDigit (n : Nat) (c : Char) : Prop := c = n.digitChar ∨ c = n.digitChar.toUpper

/-- Every byte is written as a percent sign and two digits. -/
inductive Escapes : List UInt8 → List Char → Prop
  | nil : Escapes [] []
  | cons {b : UInt8} {bs : List UInt8} {high low : Char} {code : List Char}
    (hhigh : IsHexDigit (b.toNat / 16) high) (hlow : IsHexDigit (b.toNat % 16) low)
    (hcode : Escapes bs code) : Escapes (b :: bs) ('%' :: high :: low :: code)

/-- A spelling of a text in which some characters are escaped, each by all of its
bytes. -/
inductive Escaped : List Char → List Char → Prop
  | nil : Escaped [] []
  | keep {c : Char} {text spelling : List Char} (hrest : Escaped text spelling) :
    Escaped (c :: text) (c :: spelling)
  | escape {c : Char} {code text spelling : List Char}
    (hcode : Escapes (String.utf8EncodeChar c) code) (hrest : Escaped text spelling) :
    Escaped (c :: text) (code ++ spelling)

theorem hexValue_of_digit {n : Nat} {c : Char} (hn : n < 16) (hdigit : IsHexDigit n c) :
    c.toNat < 0x80 ∧ hexValue (UInt8.ofNat c.toNat) = some (UInt8.ofNat n) ∧ c ∉ ['?', '#'] := by
  rcases hdigit with rfl | rfl
  · revert n
    decide
  · revert n
    decide

/-- A byte is read back from its two digits. -/
theorem percentDecode_escape {b : UInt8} {high low : Char}
    (hhigh : IsHexDigit (b.toNat / 16) high) (hlow : IsHexDigit (b.toNat % 16) low)
    (rest : List Char) :
    percentDecode (Text.encode ('%' :: high :: low :: rest)) =
      b :: percentDecode (Text.encode rest) := by
  have hb := b.toNat_lt
  obtain ⟨hhigh, hhighvalue, _⟩ := hexValue_of_digit (by omega) hhigh
  obtain ⟨hlow, hlowvalue, _⟩ := hexValue_of_digit (by omega) hlow
  have hbyte : UInt8.ofNat (b.toNat / 16) * 16 + UInt8.ofNat (b.toNat % 16) = b := by
    rw [← UInt8.toNat_inj, UInt8.toNat_add, UInt8.toNat_mul, UInt8.toNat_ofNat', UInt8.toNat_ofNat']
    simp only [UInt8.toNat_ofNat]
    omega
  have hpercent : String.utf8EncodeChar '%' = [0x25] := by decide
  rw [Text.encode_cons, Text.encode_cons, Text.encode_cons, hpercent, Text.encodeChar_of_lt hhigh,
    Text.encodeChar_of_lt hlow]
  simp only [List.cons_append, List.nil_append, percentDecode, if_true, hhighvalue, hlowvalue,
    hbyte]

theorem Escapes.percentDecode_append {bs : List UInt8} {code : List Char} (hcode : Escapes bs code)
    (rest : List Char) :
    percentDecode (Text.encode (code ++ rest)) = bs ++ percentDecode (Text.encode rest) := by
  induction hcode with
  | nil => rfl
  | cons hhigh hlow _ ih =>
      rw [List.cons_append, List.cons_append, List.cons_append, percentDecode_escape hhigh hlow, ih,
        List.cons_append]

theorem Escapes.unmarked {bs : List UInt8} {code : List Char} (hcode : Escapes bs code) :
    ∀ c ∈ code, c ∉ ['?', '#'] := by
  induction hcode with
  | nil => simp
  | @cons b _ _ _ _ hhigh hlow _ ih =>
      have hb := b.toNat_lt
      simp only [List.forall_mem_cons]
      exact ⟨by decide, (hexValue_of_digit (by omega) hhigh).2.2,
        (hexValue_of_digit (by omega) hlow).2.2, ih⟩

theorem exists_escapes (bs : List UInt8) : ∃ code, Escapes bs code := by
  induction bs with
  | nil => exact ⟨[], .nil⟩
  | cons b bs ih =>
      obtain ⟨code, hcode⟩ := ih
      exact ⟨_, .cons (Or.inl rfl) (Or.inl rfl) hcode⟩

theorem Escapes.decoded?_eq {cs code : List Char} (hcode : Escapes (Text.encode cs) code) :
    decoded? code = some cs := by
  have hpart : code = pathPart code :=
    isPathPart_iff.mp ⟨hcode.unmarked, [], (List.append_nil _).symm, by simp⟩
  have hdecoded := hcode.percentDecode_append []
  rw [List.append_nil, Text.encode_nil, percentDecode, List.append_nil] at hdecoded
  rw [decoded?, ← hpart, hdecoded, Text.decode?_encode]

/-- Escaped as a whole, every path from the root can be sent. -/
theorem isCanonical_iff_rooted {path : String} : IsCanonical path ↔ Rooted path := by
  constructor
  · intro hpath
    obtain ⟨target, htarget⟩ := hpath
    exact rooted_of_canonical htarget
  · intro hrooted
    obtain ⟨code, hcode⟩ := exists_escapes (Text.encode path.toList)
    refine ⟨String.ofList code, ?_⟩
    rw [canonical?_eq, String.toList_ofList, hcode.decoded?_eq, Option.map_some,
      hrooted.render_resolve, String.ofList_toList]

namespace Escaped

variable {text spelling : List Char}

theorem unmarked (hspelling : Escaped text spelling) (htext : ∀ c ∈ text, c ∉ ['?', '#']) :
    ∀ c ∈ spelling, c ∉ ['?', '#'] := by
  induction hspelling with
  | nil => exact htext
  | keep _ ih =>
      rw [List.forall_mem_cons] at htext ⊢
      exact ⟨htext.1, ih htext.2⟩
  | escape hcode _ ih =>
      rw [List.forall_mem_cons] at htext
      exact List.forall_mem_append.mpr ⟨hcode.unmarked, ih htext.2⟩

/-- A text without percent signs is decoded from every spelling of it. -/
theorem percentDecode_eq (hspelling : Escaped text spelling) (htext : '%' ∉ text) :
    percentDecode (Text.encode spelling) = Text.encode text := by
  induction hspelling with
  | nil => rfl
  | @keep c _ _ _ ih =>
      rw [List.mem_cons, not_or] at htext
      have hplain : '%' ∉ [c] := by simpa using htext.1
      rw [← List.singleton_append, percentDecode_encode_append hplain, ih htext.2,
        ← Text.encode_append]
      rfl
  | escape hcode _ ih =>
      rw [List.mem_cons, not_or] at htext
      rw [hcode.percentDecode_append, ih htext.2, Text.encode_cons]

/-- A spelling is read up to the mark behind it. -/
theorem decoded?_append (hspelling : Escaped text spelling)
    (htext : ∀ c ∈ text, c ∉ ['?', '#', '%']) {tail : List Char}
    (htail : ∀ c ∈ tail.head?, c ∈ ['?', '#']) : decoded? (spelling ++ tail) = some text := by
  have hkept : ∀ c ∈ text, c ∉ ['?', '#'] := fun c hc hmark =>
    htext c hc (List.mem_append_left ['%'] hmark)
  -- a spelling holds no mark, so it is cut off right behind
  have hpart : spelling = pathPart (spelling ++ tail) :=
    isPathPart_iff.mp ⟨hspelling.unmarked hkept, tail, rfl, htail⟩
  have hpercent : '%' ∉ text := fun hmem => htext '%' hmem (by decide)
  rw [decoded?, ← hpart, hspelling.percentDecode_eq hpercent, Text.decode?_encode]

end Escaped

/-! ### All together -/

/-- The path, and a request target that spells it with detours and escapes and
may have a query or a fragment. -/
inductive Disguised : String → String → Prop
  | spelled {segs route : List (List Char)} {text spelling tail : List Char}
    (hsegs : ∀ seg ∈ segs, Literal seg) (hroute : Detoured segs route)
    (htext : text = joined '/' route ∨ text = '/' :: joined '/' route)
    (hspelling : Escaped text spelling) (htail : ∀ c ∈ tail.head?, c ∈ ['?', '#']) :
    Disguised (String.ofList ('/' :: joined '/' segs)) (String.ofList (spelling ++ tail))

/-- Every disguise of a path has the path as its canonical form. -/
theorem canonical?_of_disguised {path target : String} (hdisguised : Disguised path target) :
    canonical? target = some path := by
  cases hdisguised with
  | spelled hsegs hroute htext hspelling htail =>
      have hdecoded := hspelling.decoded?_append (hroute.unmarked_text hsegs htext) htail
      rw [canonical?_eq, String.toList_ofList, hdecoded, Option.map_some,
        hroute.resolve_segments hsegs htext, render_eq_rooted]

/-- A step back at the root, a detour over another segment, and an escaped letter
and slash. -/
theorem disguised_admin : Disguised "/admin" "%2E%2e/x/..%2f/adm%69n/.?q=/" := by
  have hsegs : ∀ seg ∈ ["admin".toList], Literal seg := by
    rw [List.forall_mem_singleton]
    exact ⟨by decide, by simp⟩
  have hroute : Detoured ["admin".toList]
      [['.', '.'], ['x'], ['.', '.'], [], "admin".toList, ['.']] :=
    .above (@Detoured.back _ [] _ _ ⟨by decide, by simp⟩ (@Detoured.empty _ [] _
      (@Detoured.dot _ ["admin".toList] [] .direct)))
  have hdot : Escapes (String.utf8EncodeChar '.') "%2E".toList ∧
      Escapes (String.utf8EncodeChar '.') "%2e".toList :=
    ⟨.cons (Or.inl rfl) (Or.inr rfl) .nil, .cons (Or.inl rfl) (Or.inl rfl) .nil⟩
  have hslash : Escapes (String.utf8EncodeChar '/') "%2f".toList :=
    .cons (Or.inl rfl) (Or.inl rfl) .nil
  have hletter : Escapes (String.utf8EncodeChar 'i') "%69".toList :=
    .cons (Or.inl rfl) (Or.inl rfl) .nil
  have hspelling : Escaped "../x/..//admin/.".toList "%2E%2e/x/..%2f/adm%69n/.".toList :=
    .escape hdot.1 (.escape hdot.2 (.keep (.keep (.keep (.keep (.keep (.escape hslash (.keep
      (.keep (.keep (.keep (.escape hletter (.keep (.keep (.keep .nil)))))))))))))))
  exact @Disguised.spelled _ _ _ _ "?q=/".toList hsegs hroute (Or.inl (by decide)) hspelling
    (by simp)

/-- An administrative path is read from a target that spells it with detours, escapes and a
query. -/
theorem canonical?_disguisedAdmin :
    Disguised "/admin" "%2E%2e/x/..%2f/adm%69n/.?q=/" ∧
      canonical? "%2E%2e/x/..%2f/adm%69n/.?q=/" = some "/admin" :=
  ⟨disguised_admin, canonical?_of_disguised disguised_admin⟩

end RouteGuard.Path
