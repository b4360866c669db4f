import RouteGuard.Rules.Cache

/-! # Progress of loads

What each step of the rule cache does to its attempt number, its phase and the
progress of its loads, and the invariant that ties the three together: the load
that the phase speaks of is the one that the last attempt started.
-/

namespace RouteGuard.Rules

/-- The load that a caller is given a table of, or waits for. -/
def Entry.load : Entry → Nat
  | ready set => set.load
  | waiting load => load

namespace Cache

open Directory (Authority Failure)

variable (c : Cache) (load : Nat)

/-- The numbers of the loads that were started, the latest first. -/
def numbers : List Nat := c.loads.map Prod.fst

@[simp] theorem mode_setProgress (p : Progress) : (c.setProgress load p).mode = c.mode := rfl

@[simp] theorem attempt_setProgress (p : Progress) :
    (c.setProgress load p).attempt = c.attempt := rfl

@[simp] theorem phase_setProgress (p : Progress) : (c.setProgress load p).phase = c.phase := rfl

@[simp] theorem reads_setProgress (p : Progress) : (c.setProgress load p).reads = c.reads := rfl

@[simp] theorem numbers_setProgress (p : Progress) :
    (c.setProgress load p).numbers = c.numbers := by
  simp only [numbers, setProgress, List.map_map]
  apply List.map_congr_left
  rintro ⟨number, progress⟩ _
  by_cases heq : number = load
  · simp [heq]
  · simp [heq]

theorem lookup_map_replace (entries : List (Nat × Progress)) (p : Progress) (other : Nat) :
    (entries.map fun entry => if entry.1 = load then (load, p) else entry).lookup other =
      if other = load then (entries.lookup load).map fun _ => p else entries.lookup other := by
  induction entries with
  | nil => simp
  | cons entry rest ih =>
      obtain ⟨number, progress⟩ := entry
      by_cases hnumber : number = load
      · subst number
        by_cases hother : other = load
        · subst other
          simp
        · have hne : (other == load) = false := by simpa using hother
          simp [List.lookup_cons, hother, hne, ih]
      · have hload : (load == number) = false := by simpa using Ne.symm hnumber
        by_cases hother : other = load
        · subst other
          simp [List.lookup_cons, hnumber, hload, ih]
        · simp [List.lookup_cons, hnumber, hother, ih]

/-- Only a load that was started can be given a progress. -/
theorem progress?_setProgress (p : Progress) (other : Nat) :
    (c.setProgress load p).progress? other =
      if other = load then (c.progress? load).map fun _ => p else c.progress? other :=
  lookup_map_replace load c.loads p other

theorem progress?_setProgress_self {p : Progress} (hstarted : (c.progress? load).isSome) :
    (c.setProgress load p).progress? load = some p := by
  obtain ⟨before, hbefore⟩ := Option.isSome_iff_exists.mp hstarted
  simp [progress?_setProgress, hbefore]

theorem progress?_isSome_iff : (c.progress? load).isSome ↔ load ∈ c.numbers := by
  unfold progress? numbers
  induction c.loads with
  | nil => simp
  | cons entry rest ih =>
      obtain ⟨number, progress⟩ := entry
      by_cases heq : load = number
      · simp [heq]
      · have hne : (load == number) = false := by simpa using heq
        simp only [List.lookup_cons, hne, List.map_cons, List.mem_cons, heq, false_or]
        exact ih

/-! ### The steps, where they have an effect -/

theorem enter_of_unloaded (hphase : c.phase = .unloaded) :
    c.enter =
      ({ c with
          attempt := c.attempt + 1
          phase := .loading (c.attempt + 1)
          loads := (c.attempt + 1, .fresh) :: c.loads },
        .waiting (c.attempt + 1)) := by
  simp [enter, hphase]

/-- A caller joins the load that is under way, and changes nothing. -/
theorem enter_of_loading (hphase : c.phase = .loading load) : c.enter = (c, .waiting load) := by
  simp [enter, hphase]

theorem enter_of_loaded {set : Loaded} (hphase : c.phase = .loaded set) :
    c.enter = (c, .ready set) := by
  simp [enter, hphase]

/-- Once a caller has entered, something is loaded or loading. -/
theorem phase_enter_ne_unloaded : c.enter.1.phase ≠ .unloaded := by
  cases hphase : c.phase with
  | unloaded => simp [enter_of_unloaded c hphase]
  | loading number => simp [enter_of_loading c number hphase, hphase]
  | loaded set => simp [enter_of_loaded c hphase, hphase]

theorem beginRead_of_fresh (hfresh : c.progress? load = some .fresh) :
    (c.beginRead load).value = { c.setProgress load .reading with reads := c.reads + 1 } := by
  simp [beginRead, hfresh]

theorem beginRead_of_not_fresh (hprogress : c.progress? load ≠ some .fresh) :
    (c.beginRead load).value = c := by
  unfold beginRead
  split
  next hfresh => exact absurd hfresh hprogress
  · rfl

theorem takeAnswer_of_reading (answer : Except Failure (List Authority))
    (hreading : c.progress? load = some .reading) :
    c.takeAnswer load answer = c.setProgress load (.fetched answer) := by
  simp [takeAnswer, hreading]

theorem finishLoad_of_fetched {answer : Except Failure (List Authority)}
    (hfetched : c.progress? load = some (.fetched answer)) :
    (c.finishLoad load).value = c.setProgress load (.done (outcomeOf c.mode load answer)) := by
  simp [finishLoad, hfetched]

@[simp] theorem value_invalidate :
    c.invalidate.value = { c with attempt := c.attempt + 1, phase := .unloaded } := rfl

/-- A caller returns only from a load that is done, and with its outcome. -/
theorem returnFrom_eq_some_iff (outcome : Outcome) :
    (c.returnFrom load).2 = some outcome ↔ c.progress? load = some (.done outcome) := by
  unfold returnFrom
  cases hprogress : c.progress? load with
  | none => simp
  | some progress =>
      cases progress with
      | done found => cases hphase : c.phase <;> simp
      | _ => simp

/-- A return leaves the cache as it is, or it publishes the outcome of the load
that the phase speaks of. -/
theorem returnFrom_cases :
    (c.returnFrom load).1 = c ∨
      ∃ current outcome, c.phase = .loading current ∧ c.attempt = load ∧
        c.progress? load = some (.done outcome) ∧
        (c.returnFrom load).1 = { c with phase := phaseOf outcome } := by
  unfold returnFrom
  cases hprogress : c.progress? load with
  | none => exact Or.inl rfl
  | some progress =>
      cases progress with
      | done outcome =>
          cases hphase : c.phase with
          | loading current =>
              by_cases hattempt : c.attempt = load
              · exact Or.inr ⟨current, outcome, rfl, hattempt, rfl, by simp [hattempt]⟩
              · exact Or.inl (by simp [hattempt])
          | unloaded => exact Or.inl rfl
          | loaded set => exact Or.inl rfl
      | fresh => exact Or.inl rfl
      | reading => exact Or.inl rfl
      | fetched answer => exact Or.inl rfl

/-- The table that a load makes carries the number of the load. -/
theorem outcomeOf_eq_ok_iff (mode : Glob.CaseMode) (answer : Except Failure (List Authority))
    (set : Loaded) :
    outcomeOf mode load answer = .ok set ↔
      ∃ records, answer = .ok records ∧ set.load = load ∧
        Table.build mode records = .ok set.table := by
  obtain ⟨number, table⟩ := set
  cases answer with
  | error failure => simp [outcomeOf]
  | ok records =>
      cases hbuild : Table.build mode records with
      | error e => simp [outcomeOf, hbuild, Except.map]
      | ok built =>
          simp only [outcomeOf, hbuild, Except.map, Except.ok.injEq, Loaded.mk.injEq,
            exists_eq_left']
          exact and_congr_left' eq_comm

/-! ### The invariant of the cache -/

/-- No load has a number beyond the last attempt, and the load that the phase
speaks of is the last attempt. A loaded table is what that load came to. -/
structure Sound : Prop where
  numbers_le : ∀ number ∈ c.numbers, number ≤ c.attempt
  loading : ∀ number, c.phase = .loading number → number = c.attempt ∧ number ∈ c.numbers
  loaded : ∀ set, c.phase = .loaded set →
    set.load = c.attempt ∧ c.progress? set.load = some (.done (.ok set))
  done : ∀ number set, c.progress? number = some (.done (.ok set)) → set.load = number

namespace Sound

variable {c load}

theorem new (mode : Glob.CaseMode) : Sound { mode } where
  numbers_le := by simp [numbers]
  loading := by simp
  loaded := by simp
  done := by simp [progress?]

/-- No load is started before the attempt gets its number. -/
theorem not_started (hsound : c.Sound) {number : Nat} (hnumber : c.attempt < number) :
    c.progress? number = none := by
  cases hprogress : c.progress? number with
  | none => rfl
  | some progress =>
      have hmem : number ∈ c.numbers :=
        (c.progress?_isSome_iff number).mp (by simp [hprogress])
      have hle := hsound.numbers_le number hmem
      omega

/-- Whatever a caller finds, the load it is given is the last attempt. -/
theorem load_enter (hsound : c.Sound) : c.enter.2.load = c.enter.1.attempt := by
  cases hphase : c.phase with
  | unloaded => rw [enter_of_unloaded c hphase]; rfl
  | loading number =>
      rw [enter_of_loading c number hphase]
      exact (hsound.loading number hphase).1
  | loaded set =>
      rw [enter_of_loaded c hphase]
      exact (hsound.loaded set hphase).1

/-- Entering keeps the cache sound: a load it starts is the newest. -/
theorem enter (hsound : c.Sound) : c.enter.1.Sound := by
  cases hphase : c.phase with
  | loading number => rw [enter_of_loading c number hphase]; exact hsound
  | loaded set => rw [enter_of_loaded c hphase]; exact hsound
  | unloaded =>
      rw [enter_of_unloaded c hphase]
      refine ⟨?_, ?_, ?_, ?_⟩
      · intro number hnumber
        rcases List.mem_cons.mp hnumber with rfl | hnumber
        · exact Nat.le_refl _
        · exact Nat.le_succ_of_le (hsound.numbers_le number hnumber)
      · intro number heq
        cases heq
        exact ⟨rfl, List.mem_cons_self⟩
      · intro set heq
        cases heq
      · intro number set hdone
        by_cases heq : number = c.attempt + 1
        · simp [progress?, heq] at hdone
        · have hne : (number == c.attempt + 1) = false := by simpa using heq
          exact hsound.done number set (by simpa [progress?, List.lookup_cons, hne] using hdone)

/-- A load may move on while it is not done. -/
theorem setProgress (hsound : c.Sound) {p : Progress}
    (hopen : ∀ outcome, c.progress? load ≠ some (.done outcome))
    (hload : ∀ set, p = .done (.ok set) → set.load = load) : (c.setProgress load p).Sound := by
  refine ⟨?_, ?_, ?_, ?_⟩
  · simpa using hsound.numbers_le
  · simpa using hsound.loading
  · intro set hphase
    obtain ⟨hattempt, hdone⟩ := hsound.loaded set hphase
    have hne : set.load ≠ load := by
      intro heq
      exact hopen _ (heq ▸ hdone)
    exact ⟨hattempt, by simpa [progress?_setProgress, hne] using hdone⟩
  · intro number set hdone
    rw [progress?_setProgress] at hdone
    split at hdone
    next heq =>
      obtain ⟨_, _, hp⟩ := Option.map_eq_some_iff.mp hdone
      rw [heq]
      exact hload set hp
    next hne => exact hsound.done number set hdone

theorem beginRead (hsound : c.Sound) (hfresh : c.progress? load = some .fresh) :
    (c.beginRead load).value.Sound := by
  rw [beginRead_of_fresh c load hfresh]
  have hnext : (c.setProgress load .reading).Sound :=
    hsound.setProgress (by simp [hfresh]) (by simp)
  exact ⟨hnext.numbers_le, hnext.loading, hnext.loaded, hnext.done⟩

theorem takeAnswer (hsound : c.Sound) (answer : Except Failure (List Authority))
    (hreading : c.progress? load = some .reading) : (c.takeAnswer load answer).Sound := by
  rw [takeAnswer_of_reading c load answer hreading]
  exact hsound.setProgress (by simp [hreading]) (by simp)

theorem finishLoad (hsound : c.Sound) {answer : Except Failure (List Authority)}
    (hfetched : c.progress? load = some (.fetched answer)) :
    (c.finishLoad load).value.Sound := by
  rw [finishLoad_of_fetched c load hfetched]
  apply hsound.setProgress (by simp [hfetched])
  intro set hset
  obtain ⟨_, _, hload, _⟩ := (outcomeOf_eq_ok_iff load c.mode answer set).mp
    (Progress.done.inj hset)
  exact hload

/-- A return keeps the cache sound: it only publishes the load that is under way. -/
theorem returnFrom (hsound : c.Sound) : (c.returnFrom load).1.Sound := by
  rcases c.returnFrom_cases load with hsame | ⟨current, outcome, hphase, hattempt, hdone, hnext⟩
  · rw [hsame]
    exact hsound
  · rw [hnext]
    refine ⟨hsound.numbers_le, ?_, ?_, hsound.done⟩
    · intro number heq
      cases outcome <;> simp [phaseOf] at heq
    · intro set heq
      cases outcome with
      | error e => simp [phaseOf] at heq
      | ok found =>
          have hsame : found = set := by simpa [phaseOf] using heq
          subst hsame
          have hload := hsound.done load found hdone
          refine ⟨hload.trans hattempt.symm, ?_⟩
          rw [hload]
          exact hdone

/-- An invalidation keeps the cache sound, as it starts no load. -/
theorem invalidate (hsound : c.Sound) : c.invalidate.value.Sound := by
  refine ⟨?_, ?_, ?_, hsound.done⟩
  · intro number hnumber
    exact Nat.le_succ_of_le (hsound.numbers_le number hnumber)
  · intro number heq
    cases heq
  · intro set heq
    cases heq

end Sound

end Cache

end RouteGuard.Rules
