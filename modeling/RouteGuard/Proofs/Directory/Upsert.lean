import RouteGuard.Proofs.Directory.Integrity

/-! # Putting a seed in

The import of a checked seed puts each of its records in the place of the one
with its name, or behind all others. This is told of the records of a memory
store and of the content of a database. To put a seed in again changes nothing.
-/

namespace RouteGuard.Directory

/-! ### Putting elements in by their keys -/

section PutBy

variable {α : Type} {key : α → String} {xs ys : List α}

/-- Elements that are put in, in turn. -/
def putAll (key : α → String) (xs ys : List α) : List α :=
  xs.foldl (fun ys x => putBy key x ys) ys

theorem putAll_cons (x : α) (xs ys : List α) :
    putAll key (x :: xs) ys = putAll key xs (putBy key x ys) := rfl

theorem putAll_nil (hxs : (xs.map key).Nodup) : putAll key xs [] = xs :=
  foldl_putBy_eq_append xs [] hxs

theorem nodup_map_putAll (hys : (ys.map key).Nodup) : ((putAll key xs ys).map key).Nodup :=
  List.foldlRecOn (motive := fun ys : List α => (ys.map key).Nodup) _ _ hys
    fun _ hbefore _ _ => nodup_map_putBy hbefore

theorem mem_map_putAll {k : String} :
    k ∈ (putAll key xs ys).map key ↔ k ∈ xs.map key ∨ k ∈ ys.map key := by
  induction xs generalizing ys with
  | nil => simp [putAll]
  | cons x xs ih =>
      rw [putAll_cons, ih, mem_map_putBy, List.map_cons, List.mem_cons]
      tauto

theorem mem_putAll_id {n : String} {ns ms : List String} :
    n ∈ putAll id ns ms ↔ n ∈ ns ∨ n ∈ ms := by
  simpa using @mem_map_putAll _ id ns ms n

theorem map_putAll (xs ys : List α) :
    (putAll key xs ys).map key = putAll id (xs.map key) (ys.map key) := by
  induction xs generalizing ys with
  | nil => rfl
  | cons x xs ih =>
      rw [putAll_cons, ih, @map_putBy _ _ key id key (fun _ => rfl), List.map_cons, putAll_cons]

/-- What is there is a new element, or an old one whose key no new one has. -/
theorem mem_putAll_iff {y : α} (hxs : (xs.map key).Nodup) (hys : (ys.map key).Nodup) :
    y ∈ putAll key xs ys ↔ y ∈ xs ∨ (y ∈ ys ∧ key y ∉ xs.map key) := by
  induction xs generalizing ys with
  | nil => simp [putAll]
  | cons x xs ih =>
      rw [List.map_cons, List.nodup_cons] at hxs
      rw [putAll_cons, ih hxs.2 (nodup_map_putBy hys), mem_putBy_iff hys]
      grind

theorem any_key_iff {k : String} : ys.any (key · == k) = true ↔ k ∈ ys.map key := by
  simp [List.any_eq_true]

/-- What is there keeps its place, with what has its key in place of it, and the
rest follows in its order. -/
theorem putAll_eq (hxs : (xs.map key).Nodup) (hys : (ys.map key).Nodup) :
    putAll key xs ys = ys.map (fun y => (xs.find? (key · == key y)).getD y) ++
      xs.filter fun x => !ys.any (key · == key x) := by
  induction xs generalizing ys with
  | nil => simp [putAll]
  | cons x xs ih =>
      rw [List.map_cons, List.nodup_cons] at hxs
      have hother : ∀ z ∈ xs, key x ≠ key z := fun z hz hsame =>
        hxs.1 (hsame ▸ List.mem_map_of_mem hz)
      have hlast : (xs.find? (key · == key x)).getD x = x := by
        rw [List.find?_eq_none.mpr fun z hz => by simpa using (hother z hz).symm, Option.getD_none]
      have hafter : ∀ y, key y ≠ key x →
          ((x :: xs).find? (key · == key y)).getD y = (xs.find? (key · == key y)).getD y := by
        intro y hne
        rw [List.find?_cons_of_neg (by simpa using hne.symm)]
      have hrest : xs.filter (fun z => !(putBy key x ys).any (key · == key z)) =
          xs.filter fun z => !ys.any (key · == key z) := by
        refine List.filter_congr fun z hz => congrArg not ?_
        rw [Bool.eq_iff_iff, any_key_iff, any_key_iff, mem_map_putBy,
          or_iff_right (hother z hz).symm]
      rw [putAll_cons, ih hxs.2 (nodup_map_putBy hys), hrest]
      by_cases htaken : ∃ y ∈ ys, key y = key x
      · -- it takes a place, which no later element takes from it
        have hany : ys.any (key · == key x) = true := by simpa using htaken
        rw [putBy_eq_map hys htaken, List.map_map, List.filter_cons_of_neg (by simp [hany])]
        refine congrArg (· ++ _) (List.map_congr_left fun y _ => ?_)
        by_cases hkey : key y = key x
        · simp [hkey, hlast]
        · simp only [Function.comp_apply, if_neg hkey, hafter y hkey]
      · -- it comes behind, and so before all that are put in later
        have hnew : ∀ y ∈ ys, key y ≠ key x := fun y hy hkey => htaken ⟨y, hy, hkey⟩
        have hany : ys.any (key · == key x) = false := by simpa using hnew
        rw [putBy_eq_append hnew, List.map_append, List.filter_cons_of_pos (by simp [hany]),
          List.map_singleton, hlast, List.append_assoc, List.singleton_append]
        exact congrArg (· ++ _) (List.map_congr_left fun y hy => (hafter y (hnew y hy)).symm)

/-- The last element of a key. -/
def lastBy (key : α → String) (xs : List α) (k : String) : Option α :=
  xs.reverse.find? (key · == k)

theorem lastBy_cons (x : α) (xs : List α) (k : String) :
    lastBy key (x :: xs) k = (lastBy key xs k).or (if key x = k then some x else none) := by
  rw [lastBy, List.reverse_cons, List.find?_append, lastBy]
  by_cases hkey : key x = k <;> simp [hkey]

theorem find?_putBy (x : α) (ys : List α) (k : String) :
    (putBy key x ys).find? (key · == k) = if key x = k then some x else ys.find? (key · == k) := by
  induction ys with
  | nil => by_cases hkey : key x = k <;> simp [putBy, hkey]
  | cons y ys ih =>
      rw [putBy]
      split
      next hsame =>
        by_cases hkey : key x = k
        · simp [hkey]
        · simp [hkey, hsame]
      next hother =>
        by_cases hkey : key x = k
        · have hne : ¬ key y = k := fun h => hother (h.trans hkey.symm)
          rw [List.find?_cons_of_neg (by simpa using hne), ih, if_pos hkey, if_pos hkey]
        · simp only [List.find?_cons, ih, if_neg hkey]

/-- Of the elements that are put in, the last of a key is found by it. -/
theorem find?_putAll (xs ys : List α) (k : String) :
    (putAll key xs ys).find? (key · == k) = (lastBy key xs k).or (ys.find? (key · == k)) := by
  induction xs generalizing ys with
  | nil => rfl
  | cons x xs ih =>
      rw [putAll_cons, ih, find?_putBy, lastBy_cons, Option.or_assoc]
      split <;> rfl

theorem putBy_of_find? {x : α} (hfind : ys.find? (key · == key x) = some x) :
    putBy key x ys = ys := by
  induction ys with
  | nil => cases hfind
  | cons y ys ih =>
      rw [putBy]
      split
      next hsame =>
        rw [List.find?_cons_of_pos (by simpa using hsame)] at hfind
        rw [Option.some.inj hfind]
      next hother =>
        rw [List.find?_cons_of_neg (by simpa using hother)] at hfind
        rw [ih hfind]

/-- Of two elements with one key the later one counts. -/
theorem putBy_putBy_of_eq {x z : α} (hsame : key z = key x) (ys : List α) :
    putBy key z (putBy key x ys) = putBy key z ys := by
  induction ys with
  | nil => simp [putBy, hsame]
  | cons y ys ih =>
      by_cases hkey : key y = key x
      · simp [putBy, hkey, hsame]
      · simp [putBy, hkey, hsame, ih]

/-- What takes a place does not move what is put in elsewhere. -/
theorem putBy_comm {x z : α} (hne : key z ≠ key x) (htaken : key x ∈ ys.map key) :
    putBy key z (putBy key x ys) = putBy key x (putBy key z ys) := by
  induction ys with
  | nil => simp at htaken
  | cons y ys ih =>
      rw [List.map_cons, List.mem_cons] at htaken
      by_cases hx : key y = key x
      · simp [putBy, hx, hne.symm]
      · by_cases hz : key y = key z
        · simp [putBy, hz, hne]
        · simp [putBy, hx, hz, ih (htaken.resolve_left (Ne.symm hx))]

/-- An element makes no difference if it takes a place that a later one takes. -/
theorem putAll_putBy {x : α} (hlater : key x ∈ xs.map key) (htaken : key x ∈ ys.map key) :
    putAll key xs (putBy key x ys) = putAll key xs ys := by
  induction xs generalizing ys with
  | nil => simp at hlater
  | cons z xs ih =>
      rw [List.map_cons, List.mem_cons] at hlater
      rw [putAll_cons, putAll_cons]
      by_cases hsame : key z = key x
      · rw [putBy_putBy_of_eq hsame]
      · rw [putBy_comm hsame htaken]
        exact ih (hlater.resolve_left (Ne.symm hsame)) (mem_map_putBy.mpr (Or.inr htaken))

theorem lastBy_eq_none_iff {k : String} : lastBy key xs k = none ↔ k ∉ xs.map key := by
  simp [lastBy]

/-- What is put in leaves a list as it is exactly if the last of each key stands
there in the first place of the key. -/
theorem putAll_eq_self_iff :
    putAll key xs ys = ys ↔
      ∀ k x, lastBy key xs k = some x → ys.find? (key · == k) = some x := by
  constructor
  · intro hsame k x hlast
    rw [← hsame, find?_putAll, hlast, Option.some_or]
  · intro hstands
    induction xs with
    | nil => rfl
    | cons x xs ih =>
        have hrest : putAll key xs ys = ys := by
          refine ih fun k y hlast => hstands k y ?_
          rw [lastBy_cons, hlast, Option.some_or]
        rw [putAll_cons]
        cases hlater : lastBy key xs (key x) with
        | none =>
            have hfind := hstands (key x) x (by simp [lastBy_cons, hlater])
            rw [putBy_of_find? hfind, hrest]
        | some z =>
            have hfind := hstands (key x) z (by simp [lastBy_cons, hlater])
            have hmem : key x ∈ xs.map key := by
              by_contra hnone
              rw [lastBy_eq_none_iff.mpr hnone] at hlater
              cases hlater
            have htaken : key x ∈ ys.map key := by
              have hz : key z = key x := by simpa using List.find?_some hfind
              exact List.mem_map.mpr ⟨z, List.mem_of_find?_eq_some hfind, hz⟩
            rw [putAll_putBy hmem htaken, hrest]

/-- Putting in what is there changes nothing. -/
theorem putAll_eq_self (hys : (ys.map key).Nodup) (hsub : ∀ x ∈ xs, x ∈ ys) :
    putAll key xs ys = ys := by
  refine putAll_eq_self_iff.mpr fun k x hlast => (find?_key_eq_some_iff hys).mpr ⟨?_, ?_⟩
  · exact hsub x (List.mem_reverse.mp (List.mem_of_find?_eq_some hlast))
  · simpa using List.find?_some hlast

/-- Putting the same elements in once more changes nothing. -/
theorem putAll_putAll (hxs : (xs.map key).Nodup) (hys : (ys.map key).Nodup) :
    putAll key xs (putAll key xs ys) = putAll key xs ys :=
  putAll_eq_self (nodup_map_putAll hys) fun _ hx => (mem_putAll_iff hxs hys).mpr (Or.inl hx)

theorem putBy_id_of_mem {n : String} {ns : List String} (hn : n ∈ ns) : putBy id n ns = ns := by
  induction ns with
  | nil => cases hn
  | cons m ns ih =>
      rw [putBy]
      split
      next hsame =>
        obtain rfl : m = n := hsame
        rfl
      next hother => rw [ih ((List.mem_cons.mp hn).resolve_left fun hsame => hother hsame.symm)]

/-- Names that are put in come behind those that are there. -/
theorem exists_putAll_id (ns ms : List String) :
    ∃ added, putAll id ns ms = ms ++ added ∧ ∀ n ∈ added, n ∉ ms := by
  induction ns generalizing ms with
  | nil => exact ⟨[], by simp [putAll], nofun⟩
  | cons n ns ih =>
      rw [putAll_cons]
      by_cases hn : n ∈ ms
      · rw [putBy_id_of_mem hn]
        exact ih ms
      · have hnew : ∀ m ∈ ms, id m ≠ id n := by
          rintro m hm rfl
          exact hn hm
        rw [putBy_eq_append hnew]
        obtain ⟨added, hadded, hapart⟩ := ih (ms ++ [n])
        refine ⟨n :: added, by rw [hadded, List.append_assoc, List.singleton_append], ?_⟩
        refine List.forall_mem_cons.mpr ⟨hn, fun m hm hmem => ?_⟩
        exact hapart m hm (List.mem_append_left _ hmem)

end PutBy

/-! ### The content after an import -/

theorem Seed.usernames_content (s : Seed) :
    s.content.principals.map (·.username) = s.principals.map (·.username) := by
  rw [Seed.content, List.map_map]
  rfl

namespace Content

/-- The content with that of a seed put in. What a name of the seed was linked to
before is linked no more. -/
def upsert (c d : Content) : Content where
  authorities := putAll (·.name) d.authorities c.authorities
  roles := putAll id d.roles c.roles
  principals := putAll (·.username) d.principals c.principals
  Grants := fun role authority =>
    d.Grants role authority ∨ (c.Grants role authority ∧ role ∉ d.roles)
  Assigns := fun username role =>
    d.Assigns username role ∨
      (c.Assigns username role ∧ username ∉ d.principals.map (·.username))

/-- A link where records have been put in: it is one of theirs, or it was there
before under another name. -/
def Relinked {α : Type} (name : α → String) (links : α → List String) (xs : List α)
    (before : Prop) (n m : String) : Prop :=
  (∃ x ∈ xs, name x = n ∧ m ∈ links x) ∨ (before ∧ n ∉ xs.map name)

section Relinked

variable {α : Type} {name : α → String} {links : α → List String} {xs : List α}
  {before : Prop} {n m : String}

theorem relinked_of_mem (hnames : (xs.map name).Nodup) {x : α} (hx : x ∈ xs) :
    Relinked name links xs before (name x) m ↔ m ∈ links x := by
  constructor
  · rintro (⟨y, hy, hname, hlinks⟩ | ⟨_, hother⟩)
    · rwa [← List.inj_on_of_nodup_map hnames hy hx hname]
    · exact absurd (List.mem_map_of_mem hx) hother
  · exact fun hlinks => Or.inl ⟨x, hx, rfl, hlinks⟩

theorem relinked_of_notMem (hother : n ∉ xs.map name) :
    Relinked name links xs before n m ↔ before := by
  constructor
  · rintro (⟨x, hx, rfl, _⟩ | ⟨hbefore, _⟩)
    · exact absurd (List.mem_map_of_mem hx) hother
    · exact hbefore
  · exact fun hbefore => Or.inr ⟨hbefore, hother⟩

/-- Links are replaced for one record after another. -/
theorem foldl_links_iff (step : Content → α → Content) (stored : Content → List String)
    (Linked : Content → String → String → Prop)
    (hstored : ∀ c x, stored (step c x) = stored c)
    (hstep : ∀ c x n m, Linked (step c x) n m ↔
      (Linked c n m ∧ n ≠ name x) ∨ (n = name x ∧ m ∈ links x ∧ m ∈ stored c))
    (hnames : (xs.map name).Nodup) {c : Content}
    (hknown : ∀ x ∈ xs, ∀ m ∈ links x, m ∈ stored c) :
    Linked (xs.foldl step c) n m ↔ Relinked name links xs (Linked c n m) n m := by
  induction xs generalizing c with
  | nil => simp [Relinked]
  | cons x xs ih =>
      rw [List.map_cons, List.nodup_cons] at hnames
      rw [List.forall_mem_cons] at hknown
      have hrest : ∀ y ∈ xs, ∀ m ∈ links y, m ∈ stored (step c x) := by
        rw [hstored]
        exact hknown.2
      rw [List.foldl_cons, ih hnames.2 hrest, Relinked, Relinked, hstep, List.map_cons,
        List.mem_cons, not_or]
      constructor
      · rintro (⟨y, hy, hlinks⟩ | ⟨⟨hbefore, hne⟩ | ⟨rfl, hlinks, _⟩, hother⟩)
        · exact Or.inl ⟨y, List.mem_cons_of_mem _ hy, hlinks⟩
        · exact Or.inr ⟨hbefore, hne, hother⟩
        · exact Or.inl ⟨x, List.mem_cons_self, rfl, hlinks⟩
      · rintro (⟨y, hy, rfl, hlinks⟩ | ⟨hbefore, hne, hother⟩)
        · rcases List.mem_cons.mp hy with rfl | hy
          · exact Or.inr ⟨Or.inr ⟨rfl, hlinks, hknown.1 m hlinks⟩, hnames.1⟩
          · exact Or.inl ⟨y, hy, rfl, hlinks⟩
        · exact Or.inr ⟨Or.inl ⟨hbefore, hne⟩, hother⟩

end Relinked

/-- What no step changes is the same at the end. -/
theorem foldl_keeps {α β : Type} (step : Content → α → Content) (field : Content → β)
    (hstep : ∀ c x, field (step c x) = field c) (xs : List α) (c : Content) :
    field (xs.foldl step c) = field c :=
  List.foldlRecOn (motive := fun after => field after = field c) _ _ rfl
    fun after hbefore x _ => (hstep after x).trans hbefore

theorem foldl_putAuthority (as : List Authority) (c : Content) :
    as.foldl putAuthority c = { c with authorities := putAll (·.name) as c.authorities } := by
  induction as generalizing c with
  | nil => rfl
  | cons a as ih =>
      rw [List.foldl_cons, ih]
      rfl

/-- All roles are written, if their grants are stored. -/
theorem foldl_writeRole {rs : List SeedRole} (hnames : (rs.map (·.name)).Nodup) {c : Content}
    (hknown : ∀ r ∈ rs, c.KnowsGrants r) :
    rs.foldl writeRole c =
      { c with
        roles := putAll id (rs.map (·.name)) c.roles
        Grants := fun role authority =>
          Relinked (·.name) (·.authorities) rs (c.Grants role authority) role authority } := by
  ext1
  · exact foldl_keeps writeRole authorities (fun _ _ => rfl) rs c
  · rw [putAll, List.foldl_map]
    exact (List.foldl_hom roles fun _ _ => rfl).symm
  · exact foldl_keeps writeRole principals (fun _ _ => rfl) rs c
  · ext role authority
    exact foldl_links_iff writeRole (fun c => c.authorities.map Authority.name) Grants
      (fun _ _ => rfl) (fun _ _ _ _ => Iff.rfl) hnames hknown
  · exact foldl_keeps writeRole Assigns (fun _ _ => rfl) rs c

/-- The principals of a seed are put in by name, and their roles assigned afresh. -/
theorem foldl_writePrincipal {ps : List SeedPrincipal} (hnames : (ps.map (·.username)).Nodup)
    {c : Content} (hknown : ∀ p ∈ ps, c.KnowsRoles p) :
    ps.foldl writePrincipal c =
      { c with
        principals := putAll (·.username) (ps.map (·.row)) c.principals
        Assigns := fun username role =>
          Relinked (·.username) (·.roles.getD []) ps (c.Assigns username role) username role } := by
  ext1
  · exact foldl_keeps writePrincipal authorities (fun _ _ => rfl) ps c
  · exact foldl_keeps writePrincipal roles (fun _ _ => rfl) ps c
  · rw [putAll, List.foldl_map]
    exact (List.foldl_hom principals fun _ _ => rfl).symm
  · exact foldl_keeps writePrincipal Grants (fun _ _ => rfl) ps c
  · ext username role
    exact foldl_links_iff writePrincipal roles Assigns (fun _ _ => rfl)
      (fun _ _ _ _ => Iff.rfl) hnames hknown

/-- The grants of a listed role are replaced, and all others kept. -/
theorem grants_upsert (c : Content) (seed : Seed) (role authority : String) :
    (c.upsert seed.content).Grants role authority ↔
      Relinked (·.name) (·.authorities) seed.roles (c.Grants role authority) role authority :=
  Iff.rfl

/-- The roles of a listed principal are replaced, and all others kept. -/
theorem assigns_upsert (c : Content) (seed : Seed) (username role : String) :
    (c.upsert seed.content).Assigns username role ↔
      Relinked (·.username) (·.roles.getD []) seed.principals (c.Assigns username role)
        username role := by
  rw [upsert, seed.usernames_content]
  rfl

/-- An import puts the content of a checked seed in. -/
theorem write_of_checked {seed : Seed} (hchecked : seed.fault? = none) (c : Content) :
    c.write seed = c.upsert seed.content := by
  obtain ⟨_, hdistinct, hgranted, hassigned⟩ := Seed.fault?_eq_none_iff.mp hchecked
  have hgrants : ∀ r ∈ seed.roles, (seed.authorities.foldl putAuthority c).KnowsGrants r :=
    fun r hr a ha => mem_names_foldl_putAuthority _ _ (hgranted r hr a ha)
  have hroles : ∀ p ∈ seed.principals,
      (seed.roles.foldl writeRole (seed.authorities.foldl putAuthority c)).KnowsRoles p :=
    fun p hp r hr => mem_roles_foldl_writeRole _ _ (hassigned p hp r hr)
  rw [write, foldl_writePrincipal hdistinct.principals hroles,
    foldl_writeRole hdistinct.roles hgrants, foldl_putAuthority]
  ext1
  · rfl
  · rfl
  · rfl
  · rfl
  · ext username role
    exact (assigns_upsert c seed username role).symm

/-- No two records of a kind share a name. -/
structure Distinct (c : Content) : Prop where
  authorities : (c.authorities.map (·.name)).Nodup
  roles : c.roles.Nodup
  principals : (c.principals.map (·.username)).Nodup

/-- What has been put in is not changed by putting it in again. -/
theorem upsert_upsert {c d : Content} (hc : c.Distinct) (hd : d.Distinct) :
    (c.upsert d).upsert d = c.upsert d := by
  have hroles : ∀ {names : List String}, names.Nodup → (names.map id).Nodup := by
    intro names hnames
    rwa [List.map_id]
  ext1
  · exact putAll_putAll hd.authorities hc.authorities
  · exact putAll_putAll (hroles hd.roles) (hroles hc.roles)
  · exact putAll_putAll hd.principals hc.principals
  · ext role authority
    simp only [upsert]
    tauto
  · ext username role
    simp only [upsert]
    tauto

end Content

theorem Seed.Distinct.content {s : Seed} (hdistinct : s.Distinct) : s.content.Distinct where
  authorities := hdistinct.authorities
  roles := hdistinct.roles
  principals := s.usernames_content ▸ hdistinct.principals

theorem Tables.distinct_content (t : Tables) : t.content.Distinct where
  authorities := t.authorities.nodup_keys
  roles := List.map_id t.content.roles ▸ t.roles.nodup_keys
  principals := t.principals.nodup_keys

/-! ### The records of a memory store after an import -/

namespace Seed

variable {s seed : Seed}

/-- The records with those of a seed put in. -/
def upsert (s seed : Seed) : Seed where
  authorities := putAll (·.name) seed.authorities s.authorities
  roles := putAll (·.name) seed.roles s.roles
  principals := putAll (·.username) seed.principals s.principals

theorem foldl_upsertAuthority (as : List Authority) (s : Seed) :
    as.foldl upsertAuthority s = { s with authorities := putAll (·.name) as s.authorities } := by
  induction as generalizing s with
  | nil => rfl
  | cons a as ih =>
      rw [List.foldl_cons, ih]
      rfl

/-- Changes run to the end if each of them is accepted, where none of them bears
on whether the others are. -/
theorem runChanges_eq_none_iff {α : Type} {change : Seed → α → Except SeedFault Seed}
    {Accepts : Seed → α → Prop} {put : Seed → α → Seed}
    (hchange : ∀ s x next, change s x = .ok next ↔ Accepts s x ∧ next = put s x)
    (hkeeps : ∀ s x y, Accepts (put s x) y ↔ Accepts s y) {xs : List α} {s next : Seed} :
    runChanges change s xs = (next, none) ↔ (∀ x ∈ xs, Accepts s x) ∧ next = xs.foldl put s := by
  induction xs generalizing s with
  | nil => simp [runChanges, eq_comm]
  | cons x xs ih =>
      rw [List.forall_mem_cons, List.foldl_cons, runChanges]
      cases hx : change s x with
      | error fault =>
          have hrefused : ¬Accepts s x := fun haccepts => by
            rw [(hchange ..).mpr ⟨haccepts, rfl⟩] at hx
            cases hx
          simp [hrefused]
      | ok changed =>
          obtain ⟨haccepts, rfl⟩ := (hchange ..).mp hx
          rw [ih, and_iff_right haccepts]
          simp only [hkeeps]

/-- All roles of a seed are taken if all their grants are known. -/
theorem runChanges_upsertRole_iff {rs : List SeedRole} {s next : Seed} :
    runChanges upsertRole s rs = (next, none) ↔
      (∀ r ∈ rs, s.content.KnowsGrants r) ∧
        next = { s with roles := putAll (·.name) rs s.roles } := by
  have hput : rs.foldl (fun s r => { s with roles := putBy (·.name) r s.roles }) s =
      { s with roles := putAll (·.name) rs s.roles } :=
    List.foldl_hom (fun roles => { s with roles }) fun _ _ => rfl
  rw [runChanges_eq_none_iff @upsertRole_eq_ok_iff fun _ _ _ => Iff.rfl, hput]

/-- All principals of a seed are taken if all their roles are known. -/
theorem runChanges_upsertPrincipal_iff {ps : List SeedPrincipal} {s next : Seed} :
    runChanges upsertPrincipal s ps = (next, none) ↔
      (∀ p ∈ ps, s.content.KnowsRoles p) ∧
        next = { s with principals := putAll (·.username) ps s.principals } := by
  have hput : ps.foldl (fun s p => { s with principals := putBy (·.username) p s.principals }) s =
      { s with principals := putAll (·.username) ps s.principals } :=
    List.foldl_hom (fun principals => { s with principals }) fun _ _ => rfl
  rw [runChanges_eq_none_iff @upsertPrincipal_eq_ok_iff fun _ _ _ => Iff.rfl, hput]

/-- A memory store takes a checked seed in without a fault. -/
theorem absorb_eq_upsert (hchecked : seed.fault? = none) (s : Seed) :
    s.absorb seed = (s.upsert seed, none) := by
  obtain ⟨_, _, hgranted, hassigned⟩ := fault?_eq_none_iff.mp hchecked
  -- what the seed refers to has just been put in
  have hgrants : ∀ r ∈ seed.roles, ∀ a ∈ r.authorities,
      a ∈ (putAll (·.name) seed.authorities s.authorities).map (·.name) :=
    fun r hr a ha => mem_map_putAll.mpr (Or.inl (hgranted r hr a ha))
  have hroles : ∀ p ∈ seed.principals, ∀ r ∈ p.roles.getD [],
      r ∈ (putAll (·.name) seed.roles s.roles).map (·.name) :=
    fun p hp r hr => mem_map_putAll.mpr (Or.inl (hassigned p hp r hr))
  rw [absorb, foldl_upsertAuthority, runChanges_upsertRole_iff.mpr ⟨hgrants, rfl⟩]
  exact runChanges_upsertPrincipal_iff.mpr ⟨hroles, rfl⟩

/-- A checked seed leaves an intact one intact. -/
theorem Intact.upsert (hintact : s.Intact) (hchecked : seed.fault? = none) :
    (s.upsert seed).Intact := by
  have habsorbed := hintact.absorb seed
  rwa [absorb_eq_upsert hchecked] at habsorbed

/-- Taking the same seed once more changes nothing. -/
theorem upsert_upsert (hs : s.Distinct) (hseed : seed.Distinct) :
    (s.upsert seed).upsert seed = s.upsert seed := by
  rw [upsert, Seed.mk.injEq]
  exact ⟨putAll_putAll hseed.authorities hs.authorities, putAll_putAll hseed.roles hs.roles,
    putAll_putAll hseed.principals hs.principals⟩

/-- Taken into nothing, a seed is what there is. -/
theorem empty_upsert (hseed : seed.Distinct) : ({} : Seed).upsert seed = seed := by
  rw [upsert, Seed.mk.injEq]
  exact ⟨putAll_nil hseed.authorities, putAll_nil hseed.roles, putAll_nil hseed.principals⟩

end Seed

end RouteGuard.Directory
