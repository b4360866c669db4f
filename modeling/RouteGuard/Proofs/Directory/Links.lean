import Mathlib.Data.List.Nodup
import RouteGuard.Proofs.Directory.Listing

/-! # Links by name

Links join rows by their numbers. What the statements do to them can be told by
the keys of the rows alone, since a row keeps its number and its key while it is
stored, and a number is never given out again.
-/

namespace RouteGuard.Directory

variable {α β : Type} {key : α → String} {other : β → String}

/-! ### Lists with a key -/

/-- Where keys are distinct, putting an element in leaves the others with other
keys. -/
theorem mem_putBy_iff {x y : α} {xs : List α} (hkeys : (xs.map key).Nodup) :
    y ∈ putBy key x xs ↔ y = x ∨ (y ∈ xs ∧ key y ≠ key x) := by
  induction xs with
  | nil => simp [putBy]
  | cons z xs ih =>
      rw [List.map_cons, List.nodup_cons] at hkeys
      unfold putBy
      split
      next hkey =>
        have hapart : ∀ y ∈ xs, key y ≠ key x := by
          intro y hy hsame
          exact hkeys.1 (List.mem_map.mpr ⟨y, hy, hsame.trans hkey.symm⟩)
        grind
      next hkey =>
        have hrest := ih hkeys.2
        grind

theorem mem_putBy (x : α) (xs : List α) : x ∈ putBy key x xs := by
  induction xs with
  | nil => simp [putBy]
  | cons y xs ih =>
      unfold putBy
      split
      · exact List.mem_cons_self
      · exact List.mem_cons_of_mem _ ih

theorem mem_putBy_id {n m : String} {ns : List String} :
    n ∈ putBy id m ns ↔ n = m ∨ n ∈ ns := by
  induction ns with
  | nil => simp [putBy]
  | cons first ns ih =>
      unfold putBy
      split <;> grind

/-- Putting an element in commutes with a projection that shows the key. -/
theorem map_putBy (f : α → β) (hkey : ∀ y, other (f y) = key y) (x : α) (xs : List α) :
    (putBy key x xs).map f = putBy other (f x) (xs.map f) := by
  induction xs with
  | nil => rfl
  | cons y xs ih =>
      simp only [putBy, List.map_cons, hkey]
      split
      · rfl
      · rw [List.map_cons, ih]

theorem mem_map_putBy {x : α} {xs : List α} {k : String} :
    k ∈ (putBy key x xs).map key ↔ k = key x ∨ k ∈ xs.map key := by
  rw [@map_putBy _ _ key id key (fun _ => rfl), mem_putBy_id]

/-- An element with a new key comes last. -/
theorem putBy_eq_append {x : α} {xs : List α} (hnew : ∀ y ∈ xs, key y ≠ key x) :
    putBy key x xs = xs ++ [x] := by
  induction xs with
  | nil => rfl
  | cons y xs ih =>
      rw [List.forall_mem_cons] at hnew
      rw [putBy, if_neg hnew.1, ih hnew.2, List.cons_append]

/-- Elements of new and distinct keys are put at the end, in their order. -/
theorem foldl_putBy_eq_append (xs ys : List α) (hkeys : ((ys ++ xs).map key).Nodup) :
    xs.foldl (fun ys x => putBy key x ys) ys = ys ++ xs := by
  induction xs generalizing ys with
  | nil => simp
  | cons x xs ih =>
      have hnew : ∀ y ∈ ys, key y ≠ key x := by
        intro y hy hkey
        rw [List.map_append, List.nodup_append] at hkeys
        exact hkeys.2.2 _ (List.mem_map_of_mem hy) _ (by simp) hkey
      rw [List.foldl_cons, putBy_eq_append hnew, ih _ (by simpa using hkeys), List.append_assoc,
        List.singleton_append]

/-- An element with a taken key replaces the one that has it. -/
theorem putBy_eq_map {x : α} {xs : List α} (hkeys : (xs.map key).Nodup)
    (htaken : ∃ y ∈ xs, key y = key x) :
    putBy key x xs = xs.map fun y => if key y = key x then x else y := by
  induction xs with
  | nil => simp at htaken
  | cons y xs ih =>
      rw [List.map_cons, List.nodup_cons] at hkeys
      rw [putBy, List.map_cons]
      split
      next hkey =>
        have hrest : xs.map (fun y => if key y = key x then x else y) = xs := by
          conv_rhs => rw [← List.map_id xs]
          apply List.map_congr_left
          intro z hz
          exact if_neg fun hsame => hkeys.1 (List.mem_map.mpr ⟨z, hz, hsame.trans hkey.symm⟩)
        rw [hrest]
      next hkey =>
        have hlater : ∃ z ∈ xs, key z = key x := by grind
        rw [ih hkeys.2 hlater]

theorem nodup_map_putBy {x : α} {xs : List α} (hkeys : (xs.map key).Nodup) :
    ((putBy key x xs).map key).Nodup := by
  by_cases htaken : ∃ y ∈ xs, key y = key x
  · rw [putBy_eq_map hkeys htaken, List.map_map]
    have hsame : xs.map (key ∘ fun y => if key y = key x then x else y) = xs.map key := by
      apply List.map_congr_left
      intro y _
      by_cases hkey : key y = key x <;> simp [hkey]
    rwa [hsame]
  · push Not at htaken
    rw [putBy_eq_append htaken, List.map_append, List.nodup_append]
    refine ⟨hkeys, by simp, ?_⟩
    rintro _ hbefore _ hlast rfl
    obtain ⟨y, hy, hkey⟩ := List.mem_map.mp hbefore
    exact htaken y hy (hkey.trans (List.mem_singleton.mp hlast))

theorem find?_key_eq_some_iff {x : α} {xs : List α} {k : String} (hkeys : (xs.map key).Nodup) :
    xs.find? (key · == k) = some x ↔ x ∈ xs ∧ key x = k := by
  constructor
  · intro hfind
    exact ⟨List.mem_of_find?_eq_some hfind, by simpa using List.find?_some hfind⟩
  · rintro ⟨hx, hkey⟩
    have hfound : (xs.find? (key · == k)).isSome = true := by
      rw [List.find?_isSome]
      exact ⟨x, hx, by simpa using hkey⟩
    obtain ⟨y, hfind⟩ := Option.isSome_iff_exists.mp hfound
    have hy : y ∈ xs := List.mem_of_find?_eq_some hfind
    have hsame : key y = k := by simpa using List.find?_some hfind
    rw [hfind, List.inj_on_of_nodup_map hkeys hy hx (hsame.trans hkey.symm)]

namespace Rows

variable {t : Rows α key} {n m : Nat} {k l : String}

/-! ### Numbers and keys -/

/-- The row of number `n` has the key `k`. -/
def KeyAt (t : Rows α key) (n : Nat) (k : String) : Prop := ∃ x, (n, x) ∈ t.rows ∧ key x = k

theorem nodup_numbers (t : Rows α key) : (t.rows.map (·.1)).Nodup :=
  t.increasing.imp fun hlt => Nat.ne_of_lt hlt

def keys (t : Rows α key) : List String := t.values.map key

theorem nodup_keys (t : Rows α key) : t.keys.Nodup := by
  rw [keys, values, List.map_map]
  exact t.unique

theorem find?_isSome_iff_mem_keys : (t.find? k).isSome = true ↔ k ∈ t.keys := by
  rw [find?_isSome_iff, keys, List.mem_map]

theorem KeyAt.mem (h : t.KeyAt n k) : n ∈ t.numbers := by
  obtain ⟨x, hx, _⟩ := h
  exact List.mem_map.mpr ⟨(n, x), hx, rfl⟩

theorem eq_of_number {x y : α} (hx : (n, x) ∈ t.rows) (hy : (n, y) ∈ t.rows) : x = y := by
  have hsame := List.inj_on_of_nodup_map t.nodup_numbers hx hy rfl
  exact congrArg Prod.snd hsame

/-- A number has one key. -/
theorem KeyAt.key_eq (hk : t.KeyAt n k) (hl : t.KeyAt n l) : k = l := by
  obtain ⟨x, hx, rfl⟩ := hk
  obtain ⟨y, hy, rfl⟩ := hl
  rw [eq_of_number hx hy]

/-- A key has one number. -/
theorem KeyAt.number_eq (hn : t.KeyAt n k) (hm : t.KeyAt m k) : n = m := by
  obtain ⟨x, hx, hkx⟩ := hn
  obtain ⟨y, hy, hky⟩ := hm
  have hsame := List.inj_on_of_nodup_map t.unique hx hy (hkx.trans hky.symm)
  exact congrArg Prod.fst hsame

theorem find?_eq_some_iff {row : Nat × α} :
    t.find? k = some row ↔ row ∈ t.rows ∧ key row.2 = k :=
  find?_key_eq_some_iff t.unique

theorem keyAt_of_find? {row : Nat × α} (hfind : t.find? k = some row) : t.KeyAt row.1 k := by
  obtain ⟨hrow, hkey⟩ := find?_eq_some_iff.mp hfind
  exact ⟨row.2, hrow, hkey⟩

theorem all_find?_ne_iff (hk : t.KeyAt n k) : (t.find? l).all (·.1 != n) = true ↔ k ≠ l := by
  cases hfind : t.find? l with
  | none =>
      obtain ⟨x, hx, hkey⟩ := hk
      have hne : key x ≠ l :=
        (t.find?_eq_none_iff l).mp hfind x (List.mem_map.mpr ⟨(n, x), hx, rfl⟩)
      simpa [hkey] using hne
  | some row =>
      have hrow := keyAt_of_find? hfind
      simp only [Option.all_some, bne_iff_ne]
      constructor
      · rintro hne rfl
        exact hne (hrow.number_eq hk)
      · rintro hne rfl
        exact hne (hk.key_eq hrow)

/-! ### Rows that are kept -/

theorem values_replace (t : Rows α key) (x : α) :
    (t.replace x).values = t.values.map fun y => if key y = key x then x else y := by
  simp only [values, replace, List.map_map]
  apply List.map_congr_left
  intro row _
  by_cases hkey : key row.2 = key x <;> simp [replaced, hkey]

/-- Putting a row in is putting its contents among the contents. -/
theorem values_upsert (t : Rows α key) (x : α) : (t.upsert x).values = putBy key x t.values := by
  unfold upsert
  split
  next hnew => rw [values_append, putBy_eq_append ((t.find?_eq_none_iff _).mp hnew)]
  next htaken =>
    rw [values_replace, putBy_eq_map t.nodup_keys]
    rw [t.find?_eq_none_iff] at htaken
    push Not at htaken
    exact htaken

theorem mem_keys_upsert (x : α) : key x ∈ (t.upsert x).keys := by
  rw [keys, values_upsert]
  exact List.mem_map_of_mem (mem_putBy x t.values)

theorem keyAt_append {x : α} (hnew : t.find? (key x) = none) (hn : n ∈ t.numbers) :
    (t.append x hnew).KeyAt n k ↔ t.KeyAt n k := by
  have hle := t.bounded n hn
  -- the new row has a number above all that were given out
  have hold : ∀ y, (n, y) ∈ (t.append x hnew).rows ↔ (n, y) ∈ t.rows := by
    intro y
    simp only [append, List.mem_append, List.mem_singleton, Prod.mk.injEq, or_iff_left_iff_imp]
    omega
  simp only [KeyAt, hold]

/-- A row that is there keeps its number and its key. -/
theorem keyAt_upsert {x : α} (hn : n ∈ t.numbers) : (t.upsert x).KeyAt n k ↔ t.KeyAt n k := by
  unfold upsert
  split
  next hnew => exact keyAt_append hnew hn
  next htaken =>
    simp only [KeyAt, replace, List.mem_map]
    constructor
    · rintro ⟨y, ⟨row, hrow, hsame⟩, rfl⟩
      by_cases hkey : key row.2 = key x
      · rw [replaced, if_pos hkey] at hsame
        cases hsame
        exact ⟨row.2, hrow, hkey⟩
      · rw [replaced, if_neg hkey] at hsame
        exact ⟨y, hsame ▸ hrow, rfl⟩
    · rintro ⟨y, hy, rfl⟩
      by_cases hkey : key y = key x
      · exact ⟨x, ⟨(n, y), hy, by rw [replaced, if_pos hkey]⟩, hkey.symm⟩
      · exact ⟨y, ⟨(n, y), hy, by rw [replaced, if_neg hkey]⟩, rfl⟩

/-- The rows that stay keep their numbers and keys. -/
theorem keyAt_delete : (t.delete l).KeyAt n k ↔ t.KeyAt n k ∧ k ≠ l := by
  simp only [KeyAt, delete, List.mem_filter, bne_iff_ne]
  grind

end Rows

/-! ### Links -/

theorem mem_addLink {links : List (Nat × Nat)} {link added : Nat × Nat} :
    link ∈ addLink links added ↔ link ∈ links ∨ link = added := by
  unfold addLink
  split <;> grind

/-- Some link joins the row with the key `x` to the one with the key `y`. -/
def KeysLinked (left : Rows α key) (right : Rows β other) (links : List (Nat × Nat))
    (x y : String) : Prop :=
  ∃ n m, (n, m) ∈ links ∧ left.KeyAt n x ∧ right.KeyAt m y

namespace KeysLinked

variable {left left' : Rows α key} {right right' : Rows β other} {links : List (Nat × Nat)}
  {x y x' y' : String}

/-- Links do not change with the rows, if those that are linked keep their keys. -/
theorem congr_rows (hlinked : Linked left.numbers right.numbers links)
    (hleft : ∀ n ∈ left.numbers, ∀ k, left'.KeyAt n k ↔ left.KeyAt n k)
    (hright : ∀ m ∈ right.numbers, ∀ k, right'.KeyAt m k ↔ right.KeyAt m k) :
    KeysLinked left' right' links x y ↔ KeysLinked left right links x y := by
  apply exists_congr; intro n
  apply exists_congr; intro m
  refine and_congr_right fun hlink => ?_
  obtain ⟨hn, hm⟩ := hlinked.known (n, m) hlink
  rw [hleft n hn, hright m hm]

/-- The links that stay when a row goes are those to other keys. -/
theorem delete_right {p : Nat × Nat → Bool}
    (hp : ∀ link ∈ links, ∀ k, right.KeyAt link.2 k → (p link = true ↔ k ≠ y')) :
    KeysLinked left (right.delete y') (links.filter p) x y ↔
      KeysLinked left right links x y ∧ y ≠ y' := by
  simp only [KeysLinked, List.mem_filter, Rows.keyAt_delete]
  constructor
  · rintro ⟨n, m, ⟨hlink, _⟩, hx, hy, hne⟩
    exact ⟨⟨n, m, hlink, hx, hy⟩, hne⟩
  · rintro ⟨⟨n, m, hlink, hx, hy⟩, hne⟩
    exact ⟨n, m, ⟨hlink, (hp (n, m) hlink y hy).mpr hne⟩, hx, hy, hne⟩

/-- All links of the row with one key are taken away. -/
theorem clear_left :
    KeysLinked left right (links.filter fun link => (left.find? x').all (·.1 != link.1)) x y ↔
      KeysLinked left right links x y ∧ x ≠ x' := by
  simp only [KeysLinked, List.mem_filter]
  constructor
  · rintro ⟨n, m, ⟨hlink, hother⟩, hx, hy⟩
    exact ⟨⟨n, m, hlink, hx, hy⟩, (Rows.all_find?_ne_iff hx).mp hother⟩
  · rintro ⟨⟨n, m, hlink, hx, hy⟩, hne⟩
    exact ⟨n, m, ⟨hlink, (Rows.all_find?_ne_iff hx).mpr hne⟩, hx, hy⟩

/-- The links after rows are linked by their keys, if both are there. -/
def linkKeys (left : Rows α key) (right : Rows β other) (x : String) (links : List (Nat × Nat))
    (y : String) : List (Nat × Nat) :=
  match left.find? x, right.find? y with
  | some a, some b => addLink links (a.1, b.1)
  | _, _ => links

theorem linkKeys_of_found {a : Nat × α} {b : Nat × β} (hleft : left.find? x = some a)
    (hright : right.find? y = some b) :
    linkKeys left right x links y = addLink links (a.1, b.1) := by
  simp only [linkKeys, hleft, hright]

/-- Nothing is linked if one of the rows is missing. -/
theorem linkKeys_of_missing
    (hmissing : ∀ a b, left.find? x = some a → right.find? y = some b → False) :
    linkKeys left right x links y = links := by
  unfold linkKeys
  split
  next a b hleft hright => exact (hmissing a b hleft hright).elim
  next => rfl

/-- Two keys are linked if they were before, or if both have rows and were linked now. -/
theorem linkKeys_iff :
    KeysLinked left right (linkKeys left right x' links y') x y ↔
      KeysLinked left right links x y ∨
        (x = x' ∧ y = y' ∧ x' ∈ left.keys ∧ y' ∈ right.keys) := by
  rw [← Rows.find?_isSome_iff_mem_keys, ← Rows.find?_isSome_iff_mem_keys]
  unfold linkKeys
  cases hleft : left.find? x' with
  | none => simp
  | some a =>
      cases hright : right.find? y' with
      | none => simp
      | some b =>
          have ha := Rows.keyAt_of_find? hleft
          have hb := Rows.keyAt_of_find? hright
          simp only [KeysLinked, mem_addLink, Option.isSome_some, and_true]
          constructor
          · rintro ⟨n, m, hlink | hlink, hx, hy⟩
            · exact Or.inl ⟨n, m, hlink, hx, hy⟩
            · cases hlink
              exact Or.inr ⟨hx.key_eq ha, hy.key_eq hb⟩
          · rintro (⟨n, m, hlink, hx, hy⟩ | ⟨rfl, rfl⟩)
            · exact ⟨n, m, Or.inl hlink, hx, hy⟩
            · exact ⟨a.1, b.1, Or.inr rfl, ha, hb⟩

/-- Linking a row to several others. -/
theorem foldl_linkKeys_iff {ys : List String} :
    KeysLinked left right (ys.foldl (linkKeys left right x') links) x y ↔
      KeysLinked left right links x y ∨
        (x = x' ∧ y ∈ ys ∧ x' ∈ left.keys ∧ y ∈ right.keys) := by
  induction ys generalizing links with
  | nil => simp
  | cons first ys ih =>
      rw [List.foldl_cons, ih, linkKeys_iff, List.mem_cons]
      constructor
      · rintro ((hbefore | ⟨rfl, rfl, hleft, hright⟩) | ⟨rfl, hmem, hstored⟩)
        · exact Or.inl hbefore
        · exact Or.inr ⟨rfl, Or.inl rfl, hleft, hright⟩
        · exact Or.inr ⟨rfl, Or.inr hmem, hstored⟩
      · rintro (hbefore | ⟨rfl, rfl | hmem, hstored⟩)
        · exact Or.inl (Or.inl hbefore)
        · exact Or.inl (Or.inr ⟨rfl, rfl, hstored⟩)
        · exact Or.inr ⟨rfl, hmem, hstored⟩

/-- The links of the row with the key of `a`, replaced by links to those of `ys`
that are there. -/
theorem replaced (hlinked : Linked left.numbers right.numbers links) (a : α) (ys : List String)
    (x y : String) :
    KeysLinked (left.upsert a) right
        (ys.foldl (linkKeys (left.upsert a) right (key a))
          (links.filter fun link => ((left.upsert a).find? (key a)).all (·.1 != link.1))) x y ↔
      (KeysLinked left right links x y ∧ x ≠ key a) ∨ (x = key a ∧ y ∈ ys ∧ y ∈ right.keys) := by
  have hbefore : KeysLinked (left.upsert a) right links x y ↔ KeysLinked left right links x y :=
    congr_rows hlinked (fun _ hn _ => Rows.keyAt_upsert hn) (fun _ _ _ => Iff.rfl)
  refine foldl_linkKeys_iff.trans ?_
  refine or_congr (clear_left.trans (and_congr_left' hbefore)) ?_
  refine and_congr_right fun _ => and_congr_right fun _ => ?_
  exact and_iff_right (Rows.mem_keys_upsert a)

end KeysLinked

end RouteGuard.Directory
