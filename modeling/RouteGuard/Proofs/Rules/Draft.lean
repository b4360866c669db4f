import Mathlib.Data.List.Nodup
import RouteGuard.Proofs.Text.Trim
import RouteGuard.Rules.Table

/-! # Drafts

What holds of the claims of a draft however many records have been read: no two
share a key, and texts and owners are in the form in which they are compared.
-/

namespace RouteGuard

/-- A canonical text is its own canonical form. -/
theorem canonicalText_canonicalText (text : String) :
    canonicalText (canonicalText text) = canonicalText text := by
  have htrimmed : Text.trimChars (canonicalText text).toList = (canonicalText text).toList := by
    rw [canonicalText, String.toList_ofList]
    split
    · exact Text.trimChars_trimChars _
    · apply Text.trimChars_eq_self
      · rintro c rest ⟨⟩
        decide
      · intro c rest hreverse
        rw [List.reverse_cons] at hreverse
        cases hback : (Text.trimChars text.toList).reverse with
        | nil =>
            rw [hback] at hreverse
            cases hreverse
            decide
        | cons last front =>
            rw [hback] at hreverse
            cases hreverse
            exact Text.isBlank_last_trimChars hback
  have hslash : (canonicalText text).toList.head? = some '/' := by
    rw [canonicalText, String.toList_ofList]
    split
    next hhead => exact hhead
    next => rfl
  rw [canonicalText, htrimmed, if_pos hslash, String.ofList_toList]

namespace Rules

open Directory (Authority)
open Glob (CaseMode)

/-! ### Claims that take over -/

theorem map_key_takeOver (c : Claim) (claims : List Claim) :
    (takeOver c claims).map (·.key) = claims.map (·.key) := by
  induction claims with
  | nil => rfl
  | cons d rest ih =>
      unfold takeOver
      split
      next hkey => simp [hkey]
      next => simp [ih]

/-- What is claimed after a takeover is the new claim or was claimed before. -/
theorem mem_takeOver {c d : Claim} {claims : List Claim} (hmem : d ∈ takeOver c claims) :
    d = c ∨ d ∈ claims := by
  induction claims with
  | nil => simp [takeOver] at hmem
  | cons first rest ih =>
      unfold takeOver at hmem
      split at hmem
      next =>
        rcases List.mem_cons.mp hmem with rfl | hrest
        · exact Or.inl rfl
        · exact Or.inr (List.mem_cons_of_mem _ hrest)
      next =>
        rcases List.mem_cons.mp hmem with rfl | hrest
        · exact Or.inr List.mem_cons_self
        · exact (ih hrest).imp_right (List.mem_cons_of_mem _)

/-! ### The invariant of reading -/

/-- A claim in the form in which it is compared. -/
structure Claim.Formed (mode : CaseMode) (c : Claim) : Prop where
  key_eq : c.key = patternKey mode c.text
  text_canonical : canonicalText c.text = c.text
  owner_trimmed : Text.trim c.owner = c.owner
  owner_named : Text.isBlankText c.owner = false

/-- Every claim is in that form, and no two have the same key. -/
structure Draft.Formed (mode : CaseMode) (d : Draft) : Prop where
  keys : (d.claims.map (·.key)).Nodup
  claims : ∀ c ∈ d.claims, c.Formed mode

namespace Draft.Formed

variable {mode : CaseMode} {d : Draft}

/-- Another claim keeps the draft well formed, whether its key was claimed or not. -/
theorem add (hformed : d.Formed mode) {c : Claim} (hclaim : c.Formed mode) :
    (d.add c).Formed mode := by
  unfold Draft.add
  cases hfind : d.claims.find? (·.key == c.key) with
  | none =>
      have hnew : c.key ∉ d.claims.map (·.key) := by
        intro hmem
        obtain ⟨earlier, hearlier, hkey⟩ := List.mem_map.mp hmem
        have hnot := List.find?_eq_none.mp hfind earlier hearlier
        simp [hkey] at hnot
      refine ⟨?_, ?_⟩
      · rw [List.map_append, List.nodup_append]
        refine ⟨hformed.keys, by simp, ?_⟩
        intro key hkey other hother heq
        obtain rfl : other = c.key := by simpa using hother
        exact hnew (heq ▸ hkey)
      · intro other hother
        rcases List.mem_append.mp hother with hearlier | hlast
        · exact hformed.claims other hearlier
        · exact List.mem_singleton.mp hlast ▸ hclaim
  | some earlier =>
      refine ⟨by rw [map_key_takeOver]; exact hformed.keys, ?_⟩
      intro other hother
      rcases mem_takeOver hother with rfl | hearlier
      · exact hclaim
      · exact hformed.claims other hearlier

/-- Reading a record keeps the draft well formed. -/
theorem read (hformed : d.Formed mode) (a : Authority) : (d.read mode a).Formed mode := by
  unfold Draft.read
  cases hname : a.trimmedName? with
  | none => exact ⟨hformed.keys, hformed.claims⟩
  | some name =>
      dsimp only
      split
      · exact ⟨hformed.keys, hformed.claims⟩
      · have howner : Text.isBlankText a.name = false ∧ Text.trim a.name = name := by
          unfold Authority.trimmedName? at hname
          split at hname
          · cases hname
          next hblank => exact ⟨by simpa using hblank, Option.some.inj hname⟩
        obtain ⟨hblank, rfl⟩ := howner
        exact hformed.add ⟨rfl, canonicalText_canonicalText _, Text.trim_trim _,
          (Text.isBlankText_trim _).trans hblank⟩

/-- The draft of any records is well formed. -/
theorem ofRecords (mode : CaseMode) (records : List Authority) :
    (Draft.ofRecords mode records).Formed mode := by
  have hfold : ∀ (d : Draft), d.Formed mode → (records.foldl (Draft.read mode) d).Formed mode := by
    induction records with
    | nil => exact fun d hformed => hformed
    | cons a records ih => exact fun d hformed => ih _ (hformed.read a)
  exact hfold {} ⟨by simp, by simp⟩

/-- Claims with the same text are the same claim. -/
theorem eq_of_text (hformed : d.Formed mode) {c other : Claim} (hc : c ∈ d.claims)
    (hother : other ∈ d.claims) (htext : c.text = other.text) : c = other := by
  apply List.inj_on_of_nodup_map hformed.keys hc hother
  rw [(hformed.claims c hc).key_eq, (hformed.claims other hother).key_eq, htext]

end Draft.Formed

end Rules

end RouteGuard
