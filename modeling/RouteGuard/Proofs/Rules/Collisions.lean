import RouteGuard.Proofs.Authorities
import RouteGuard.Proofs.Directory.Links
import RouteGuard.Proofs.Rules.Kept

/-! # The account of collisions

Each record that binds a rule either starts one or takes one over, and the second
is noted as a collision. So the rules and the collisions of a table account for
all records, key by key and in the order of the records.
-/

namespace RouteGuard.Rules

open Directory (Authority)
open Glob (CaseMode)

/-- The collision in which one record takes over the rule of another. -/
def takeover (earlier later : Authority) : Collision where
  pattern := canonicalText later.url
  overwritten := Text.trim earlier.name
  winner := Text.trim later.name

/-- The collision that a record causes: it takes over from the last record of its
key before it. -/
def takeoverAfter? (mode : CaseMode) (before : List Authority) (a : Authority) :
    Option Collision :=
  if Binds a then
    (boundTo mode (claimOf mode a).key before).getLast?.map fun earlier => takeover earlier a
  else none

/-- The collision caused by the record at a place of a list. -/
def takeoverAt? (mode : CaseMode) (records : List Authority) (place : Nat) : Option Collision :=
  records[place]?.bind (takeoverAfter? mode (records.take place))

/-- The account that a table gives of the records it was made from. -/
structure Accounted (mode : CaseMode) (records : List Authority) (t : Table) : Prop where
  /-- a key has one rule, that of its last record -/
  rule : ∀ key last, (boundTo mode key records).getLast? = some last →
    ∃ r, t.rules.filter (fun r => patternKey mode r.pattern.text = key) = [r] ∧
      Pattern.compile mode last.url = .ok r.pattern ∧
      r.pattern.text = canonicalText last.url ∧ r.required.names = [Text.trim last.name]
  /-- each record of a key takes over from the one before it -/
  chain : ∀ key, t.collisions.filter (fun c => patternKey mode c.pattern = key) =
    List.zipWith takeover (boundTo mode key records) (boundTo mode key records).tail
  /-- collisions stand in the order of the records that cause them -/
  order : t.collisions = (List.range records.length).filterMap (takeoverAt? mode records)
  /-- every record starts a rule or causes a collision -/
  total : t.rules.length + t.collisions.length = (records.filter fun a => Binds a).length

/-! ### Lists -/

section Lists

variable {α β : Type}

/-- A list and its tail, paired, after one more element. -/
theorem zipWith_tail_concat (f : α → α → β) (xs : List α) (x : α) :
    List.zipWith f (xs ++ [x]) (xs ++ [x]).tail =
      List.zipWith f xs xs.tail ++ (xs.getLast?.map (f · x)).toList := by
  induction xs with
  | nil => rfl
  | cons first xs ih =>
      cases xs with
      | nil => rfl
      | cons second xs => simpa using ih

/-- Where keys differ, one element has a given key. -/
theorem filter_key_eq_singleton {key : α → String} {xs : List α} {x : α}
    (hkeys : (xs.map key).Nodup) (hx : x ∈ xs) :
    xs.filter (fun y => key y = key x) = [x] := by
  induction xs with
  | nil => cases hx
  | cons y ys ih =>
      rw [List.map_cons, List.nodup_cons] at hkeys
      rcases List.mem_cons.mp hx with rfl | hlater
      · have hnone : ys.filter (fun y => key y = key x) = [] := by
          rw [List.filter_eq_nil_iff]
          intro z hz hsame
          exact hkeys.1 (of_decide_eq_true hsame ▸ List.mem_map_of_mem hz)
        simp [hnone]
      · have hne : key y ≠ key x := by
          intro hsame
          exact hkeys.1 (hsame ▸ List.mem_map_of_mem hlater)
        simp [hne, ih hkeys.2 hlater]

end Lists

variable {mode : CaseMode} {records : List Authority} {a : Authority} {t : Table}

/-! ### One more record -/

theorem find?_claimsOf (key : String) :
    (claimsOf mode records).find? (·.key == key) =
      (boundTo mode key records).getLast?.map (claimOf mode) := by
  have hkeys : ((claimsOf mode records).map (·.key)).Nodup :=
    (Draft.Formed.ofRecords mode records).keys
  ext c
  rw [Directory.find?_key_eq_some_iff hkeys, mem_claimsOf_iff_getLast?, Option.map_eq_some_iff]
  constructor
  · rintro ⟨⟨b, hlast, hclaim⟩, rfl⟩
    exact ⟨b, hlast, hclaim.symm⟩
  · rintro ⟨b, hlast, rfl⟩
    have hkey := (binds_of_boundTo (List.mem_of_getLast? hlast)).2
    exact ⟨⟨b, by rwa [hkey], rfl⟩, hkey⟩

theorem add_of_new {d : Draft} {c : Claim}
    (hnew : d.claims.find? (·.key == c.key) = none) :
    (d.add c).collisions = d.collisions ∧ (d.add c).claims.length = d.claims.length + 1 := by
  simp [Draft.add, hnew, Draft.collisions]

theorem add_of_taken {d : Draft} {c earlier : Claim}
    (htaken : d.claims.find? (·.key == c.key) = some earlier) :
    (d.add c).collisions = d.collisions ++ [⟨c.text, earlier.owner, c.owner⟩] ∧
      (d.add c).claims.length = d.claims.length := by
  have hlength := congrArg List.length (map_key_takeOver c d.claims)
  rw [List.length_map, List.length_map] at hlength
  simp [Draft.add, htaken, Draft.collisions, Remark.collision?, hlength]

/-- A record adds a collision exactly if it takes over from one before it. -/
theorem collisions_concat (mode : CaseMode) (records : List Authority) (a : Authority) :
    (Draft.ofRecords mode (records ++ [a])).collisions =
      (Draft.ofRecords mode records).collisions ++ (takeoverAfter? mode records a).toList := by
  rw [Draft.ofRecords_concat]
  by_cases hbinds : Binds a
  · rw [Draft.read_of_binds hbinds, takeoverAfter?, if_pos hbinds]
    have hfind := @find?_claimsOf mode records (claimOf mode a).key
    cases hlast : (boundTo mode (claimOf mode a).key records).getLast? with
    | none =>
        rw [hlast] at hfind
        rw [(add_of_new hfind).1, Option.map_none, Option.toList_none, List.append_nil]
    | some earlier =>
        rw [hlast] at hfind
        rw [(add_of_taken hfind).1, Option.map_some, Option.toList_some]
        rfl
  · obtain ⟨remark, hremark, hread⟩ :=
      @Draft.read_of_not_binds mode (.ofRecords mode records) a hbinds
    rw [hread, takeoverAfter?, if_neg hbinds]
    simp [Draft.collisions, hremark]

/-- A record that binds a rule adds a claim or a collision. -/
theorem total_concat (mode : CaseMode) (records : List Authority) (a : Authority) :
    (claimsOf mode (records ++ [a])).length +
        (Draft.ofRecords mode (records ++ [a])).collisions.length =
      (claimsOf mode records).length + (Draft.ofRecords mode records).collisions.length +
        if Binds a then 1 else 0 := by
  rw [claimsOf, claimsOf, Draft.ofRecords_concat]
  by_cases hbinds : Binds a
  · rw [Draft.read_of_binds hbinds, if_pos hbinds]
    cases hfind : (Draft.ofRecords mode records).claims.find? (·.key == (claimOf mode a).key) with
    | none =>
        rw [(add_of_new hfind).1, (add_of_new hfind).2]
        omega
    | some earlier =>
        rw [(add_of_taken hfind).1, (add_of_taken hfind).2, List.length_append,
          List.length_singleton]
        omega
  · obtain ⟨remark, hremark, hread⟩ :=
      @Draft.read_of_not_binds mode (.ofRecords mode records) a hbinds
    rw [hread, if_neg hbinds]
    simp [Draft.collisions, hremark]

/-! ### All records -/

theorem chain_collisions (mode : CaseMode) (records : List Authority) (key : String) :
    (Draft.ofRecords mode records).collisions.filter
        (fun c => patternKey mode c.pattern = key) =
      List.zipWith takeover (boundTo mode key records) (boundTo mode key records).tail := by
  induction records using List.reverseRecOn with
  | nil => rfl
  | append_singleton records a ih =>
      rw [collisions_concat, List.filter_append, ih, boundTo_concat]
      by_cases hkey : Binds a ∧ (claimOf mode a).key = key
      · obtain ⟨hbinds, rfl⟩ := hkey
        rw [if_pos ⟨hbinds, rfl⟩, zipWith_tail_concat, takeoverAfter?, if_pos hbinds]
        congr 1
        cases (boundTo mode (claimOf mode a).key records).getLast? with
        | none => rfl
        | some earlier => simp [takeover, claimOf]
      · rw [if_neg hkey, List.append_nil]
        -- the collision of another key, if any, is filtered out
        have hother : (takeoverAfter? mode records a).toList.filter
            (fun c => patternKey mode c.pattern = key) = [] := by
          rw [List.filter_eq_nil_iff]
          intro c hc hsame
          obtain ⟨hbinds, earlier, _, rfl⟩ : Binds a ∧ ∃ earlier,
              (boundTo mode (claimOf mode a).key records).getLast? = some earlier ∧
                takeover earlier a = c := by
            unfold takeoverAfter? at hc
            split at hc
            next hbinds => exact ⟨hbinds, by simpa using hc⟩
            · simp at hc
          exact hkey ⟨hbinds, of_decide_eq_true hsame⟩
        rw [hother, List.append_nil]

theorem takeoverAt?_concat (mode : CaseMode) (records : List Authority) (a : Authority) :
    (List.range (records ++ [a]).length).filterMap (takeoverAt? mode (records ++ [a])) =
      (List.range records.length).filterMap (takeoverAt? mode records) ++
        (takeoverAfter? mode records a).toList := by
  rw [List.length_append, List.length_singleton, List.range_succ, List.filterMap_append]
  congr 1
  · apply List.filterMap_congr
    intro place hplace
    have hlt : place < records.length := List.mem_range.mp hplace
    rw [takeoverAt?, takeoverAt?, List.getElem?_append_left hlt,
      List.take_append_of_le_length hlt.le]
  · have hlast : takeoverAt? mode (records ++ [a]) records.length =
        takeoverAfter? mode records a := by
      simp [takeoverAt?]
    rw [List.filterMap_cons, List.filterMap_nil, hlast]
    cases takeoverAfter? mode records a <;> rfl

theorem order_collisions (mode : CaseMode) (records : List Authority) :
    (Draft.ofRecords mode records).collisions =
      (List.range records.length).filterMap (takeoverAt? mode records) := by
  induction records using List.reverseRecOn with
  | nil => rfl
  | append_singleton records a ih =>
      rw [collisions_concat, ih, takeoverAt?_concat]

theorem total_claims (mode : CaseMode) (records : List Authority) :
    (claimsOf mode records).length + (Draft.ofRecords mode records).collisions.length =
      (records.filter fun a => Binds a).length := by
  induction records using List.reverseRecOn with
  | nil => rfl
  | append_singleton records a ih =>
      rw [total_concat, ih, List.filter_append, List.length_append]
      by_cases hbinds : Binds a <;> simp [hbinds]

/-- A claim has one rule, and no other rule has its key. -/
theorem rule_of_claim (hbuild : Table.build mode records = .ok t) {c : Claim}
    (hc : c ∈ claimsOf mode records) :
    ∃ r, t.rules.filter (fun r => patternKey mode r.pattern.text = c.key) = [r] ∧
      Pattern.compile mode c.text = .ok r.pattern ∧ r.pattern.text = c.text ∧
      r.required.names = [c.owner] := by
  obtain ⟨p, hcompile⟩ := exists_build_iff.mp ⟨t, hbuild⟩ c hc
  have hrule : ⟨p, .ofList [c.owner]⟩ ∈ t.rules :=
    (mem_rules_iff hbuild _).mpr ⟨c, hc, hcompile, rfl⟩
  have hformed := (Draft.Formed.ofRecords mode records).claims c hc
  have htext : p.text = c.text := by rw [text_of_compile hcompile, hformed.text_canonical]
  refine ⟨⟨p, .ofList [c.owner]⟩, ?_, hcompile, htext, ?_⟩
  · have hone := filter_key_eq_singleton (nodup_keys_rules hbuild) hrule
    simpa only [htext, hformed.key_eq] using hone
  · exact AuthoritySet.names_ofList_singleton hformed.owner_trimmed hformed.owner_named

/-- The rules and collisions of a table account for the records it is made from. -/
theorem accounted_of_build (hbuild : Table.build mode records = .ok t) :
    Accounted mode records t := by
  obtain ⟨rules, hmap, ht⟩ := build_eq_ok_iff.mp hbuild
  have hcollisions : t.collisions = (Draft.ofRecords mode records).collisions := by
    rw [ht]
  constructor
  · intro key last hlast
    obtain ⟨_, rfl⟩ := binds_of_boundTo (List.mem_of_getLast? hlast)
    have hclaim : claimOf mode last ∈ claimsOf mode records :=
      (mem_claimsOf_iff_getLast? _).mpr ⟨last, hlast, rfl⟩
    obtain ⟨r, hone, hcompile, htext, hnames⟩ := rule_of_claim hbuild hclaim
    exact ⟨r, hone, (compile_canonicalText mode last.url).symm.trans hcompile, htext, hnames⟩
  · rw [hcollisions]
    exact chain_collisions mode records
  · rw [hcollisions]
    exact order_collisions mode records
  · have hlength := (perm_keys_rules hbuild).length_eq
    rw [List.length_map, List.length_map] at hlength
    rw [hlength, hcollisions]
    exact total_claims mode records

/-- Two keys in folded mode. One passes on twice, the other once in between. -/
def passedOn : List Authority :=
  [⟨"A1", "/a"⟩, ⟨"B1", "/b"⟩, ⟨" A2 ", "/A"⟩, ⟨"", "/a"⟩, ⟨"B2", " /B"⟩, ⟨"A3", "a"⟩]

/-- Each record of a key stands against the one before it, whatever lies between. -/
theorem accounted_passedOn :
    ∃ t, Table.build .folded passedOn = .ok t ∧ Accounted .folded passedOn t ∧
      t.rules.length = 2 ∧
      t.collisions = [⟨"/A", "A1", "A2"⟩, ⟨"/B", "B1", "B2"⟩, ⟨"/a", "A2", "A3"⟩] := by
  have hclaims : claimsOf .folded passedOn = [⟨"/a", "/a", "A3"⟩, ⟨"/b", "/B", "B2"⟩] := by
    decide +kernel
  obtain ⟨t, ht⟩ : ∃ t, Table.build .folded passedOn = .ok t := by
    rw [exists_build_iff, hclaims]
    simp only [List.forall_mem_cons]
    exact ⟨⟨_, rfl⟩, ⟨_, rfl⟩, by simp⟩
  have haccounted := accounted_of_build ht
  have hcollisions : t.collisions =
      [⟨"/A", "A1", "A2"⟩, ⟨"/B", "B1", "B2"⟩, ⟨"/a", "A2", "A3"⟩] := by
    rw [haccounted.order]
    decide +kernel
  have hbound : (passedOn.filter fun a => Binds a).length = 5 := by decide +kernel
  have htotal := haccounted.total
  rw [hcollisions, hbound] at htotal
  exact ⟨t, ht, haccounted, by simpa using htotal, hcollisions⟩

end RouteGuard.Rules
