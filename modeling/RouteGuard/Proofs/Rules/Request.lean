import RouteGuard.Proofs.Rules.Progress

/-! # One caller alone

What a caller comes back with when the store answers at once and nobody else is
about, and what it leaves behind.
-/

namespace RouteGuard.Rules.Cache

open Directory (Authority Failure)

variable {c : Cache} {load : Nat} {now answer : Except Failure (List Authority)}

/-! ### Loads that are driven -/

/-- What the read of a load is answered, if the store says `now`. A load whose
read was answered before goes by that answer. -/
inductive Answered (c : Cache) (load : Nat) (now : Except Failure (List Authority)) :
    Except Failure (List Authority) → Prop
  | fresh (hprogress : c.progress? load = some .fresh) : Answered c load now now
  | reading (hprogress : c.progress? load = some .reading) : Answered c load now now
  | fetched {answer : Except Failure (List Authority)}
      (hprogress : c.progress? load = some (.fetched answer)) : Answered c load now answer
  | done {answer : Except Failure (List Authority)}
      (hprogress : c.progress? load = some (.done (outcomeOf c.mode load answer))) :
      Answered c load now answer

/-- The cache after a load has been driven while the store says `now`. -/
def driven (c : Cache) (load : Nat) (now : Except Failure (List Authority)) : Cache :=
  (((c.beginRead load).value.takeAnswer load now).finishLoad load).value

/-- To poll a load is to drive it and to return from it. -/
theorem value_poll (c : Cache) (load : Nat) (now : Except Failure (List Authority)) :
    (c.poll load (some now)).value = (c.driven load now).returnFrom load := rfl

/-- Driving a load brings it to its end, and changes nothing that the phase or
the attempt tells. -/
structure Ended (c d : Cache) (load : Nat) (answer : Except Failure (List Authority)) : Prop where
  done : d.progress? load = some (.done (outcomeOf c.mode load answer))
  phase : d.phase = c.phase
  attempt : d.attempt = c.attempt

/-- A load that is done stays as it is. -/
theorem ended_of_done
    (hdone : c.progress? load = some (.done (outcomeOf c.mode load answer))) :
    Ended c (c.driven load now) load answer := by
  have hdriven : c.driven load now = c := by
    simp [driven, beginRead, takeAnswer, finishLoad, hdone]
  rw [hdriven]
  exact ⟨hdone, rfl, rfl⟩

/-- A load whose read was answered ends with that answer. -/
theorem ended_of_fetched (hfetched : c.progress? load = some (.fetched answer)) :
    Ended c (c.driven load now) load answer := by
  have htaken : c.takeAnswer load now = c := by simp [takeAnswer, hfetched]
  rw [driven, c.beginRead_of_not_fresh load (by simp [hfetched]), htaken,
    finishLoad_of_fetched c load hfetched]
  exact ⟨c.progress?_setProgress_self load (by simp [hfetched]), rfl, rfl⟩

/-- A read that is under way gets the answer of the moment. -/
theorem ended_of_reading (hreading : c.progress? load = some .reading) :
    Ended c (c.driven load now) load now := by
  have hfetched : (c.setProgress load (.fetched now)).progress? load = some (.fetched now) :=
    c.progress?_setProgress_self load (by simp [hreading])
  rw [driven, c.beginRead_of_not_fresh load (by simp [hreading]),
    takeAnswer_of_reading c load now hreading, finishLoad_of_fetched _ load hfetched]
  exact ⟨progress?_setProgress_self _ load (by simp [hfetched]), rfl, rfl⟩

/-- A load that has not read yet reads, and gets the answer of the moment. -/
theorem ended_of_fresh (hfresh : c.progress? load = some .fresh) :
    Ended c (c.driven load now) load now := by
  have hread := beginRead_of_fresh c load hfresh
  obtain ⟨hmode, hphase, hattempt⟩ : (c.beginRead load).value.mode = c.mode ∧
      (c.beginRead load).value.phase = c.phase ∧
      (c.beginRead load).value.attempt = c.attempt := by
    rw [hread]
    exact ⟨rfl, rfl, rfl⟩
  have hreading : (c.beginRead load).value.progress? load = some .reading := by
    rw [hread]
    exact c.progress?_setProgress_self load (by simp [hfresh])
  -- a read that has begun is not begun again
  have hagain : ((c.beginRead load).value.beginRead load).value = (c.beginRead load).value :=
    beginRead_of_not_fresh _ load (by simp [hreading])
  have hended := @ended_of_reading _ load now hreading
  rw [driven, hagain] at hended
  exact ⟨hmode ▸ hended.done, hended.phase.trans hphase, hended.attempt.trans hattempt⟩

/-- Whatever a load has come to, driving it ends it with the answer that it goes by. -/
theorem Answered.ended (hanswered : c.Answered load now answer) :
    Ended c (c.driven load now) load answer := by
  cases hanswered with
  | fresh hfresh => exact ended_of_fresh hfresh
  | reading hreading => exact ended_of_reading hreading
  | fetched hfetched => exact ended_of_fetched hfetched
  | done hdone => exact ended_of_done hdone

/-- A return from the load that the phase speaks of publishes its outcome. -/
theorem returnFrom_of_done {outcome : Outcome} (hdone : c.progress? load = some (.done outcome))
    (hphase : c.phase = .loading load) (hattempt : c.attempt = load) :
    c.returnFrom load = ({ c with phase := phaseOf outcome }, some outcome) := by
  simp [returnFrom, hdone, hphase, hattempt]

/-! ### Callers -/

/-- A caller that enters while the store says `now` waits for a load, and the read
of that load is answered so. -/
structure GoesBy (c : Cache) (now : Except Failure (List Authority)) (load : Nat)
    (answer : Except Failure (List Authority)) : Prop where
  phase : c.enter.1.phase = .loading load
  answered : c.enter.1.Answered load now answer

/-- Where nothing is loaded or loading, a caller goes by what the store says. -/
theorem goesBy_of_unloaded (hphase : c.phase = .unloaded) :
    c.GoesBy now (c.attempt + 1) now := by
  have henter := enter_of_unloaded c hphase
  exact ⟨by rw [henter], .fresh (by simp [henter, progress?])⟩

/-- A caller that goes by a load has found no rules loaded. -/
theorem GoesBy.not_loaded (hgoes : c.GoesBy now load answer) (set : Loaded) :
    c.phase ≠ .loaded set := by
  intro hloaded
  have hwaits := hgoes.phase
  rw [enter_of_loaded c hloaded] at hwaits
  cases hloaded.symm.trans hwaits

theorem GoesBy.enter_eq (hgoes : c.GoesBy now load answer) :
    c.enter = (c.enter.1, .waiting load) := by
  have hwaits := hgoes.phase
  cases hphase : c.phase with
  | unloaded =>
      rw [enter_of_unloaded c hphase] at hwaits ⊢
      cases hwaits
      rfl
  | loading number =>
      rw [enter_of_loading c number hphase] at hwaits ⊢
      cases hphase.symm.trans hwaits
      rfl
  | loaded set => exact absurd hphase (hgoes.not_loaded set)

theorem mode_enter (c : Cache) : c.enter.1.mode = c.mode := by
  cases hphase : c.phase <;> simp [enter, hphase]

/-- The caller returns with what the answer leads to. -/
theorem GoesBy.returned (hgoes : c.GoesBy now load answer) :
    ((c.enter.1.driven load now).returnFrom load).2 = some (outcomeOf c.mode load answer) := by
  rw [returnFrom_eq_some_iff, ← c.mode_enter]
  exact hgoes.answered.ended.done

/-- The whole call of such a caller: it enters, drives the load and returns. -/
theorem GoesBy.value_request (hgoes : c.GoesBy now load answer) :
    (c.request (some now)).value =
      (((c.enter.1.driven load now).returnFrom load).1, .inl (outcomeOf c.mode load answer)) := by
  have hreturned := hgoes.returned
  rw [request, hgoes.enter_eq]
  simp only [Logged.value_bind, value_poll]
  generalize (c.enter.1.driven load now).returnFrom load = returned at hreturned ⊢
  obtain ⟨next, outcome⟩ := returned
  subst hreturned
  rfl

theorem GoesBy.value_rules (hgoes : c.GoesBy now load answer) :
    (c.rules now).value =
      (((c.enter.1.driven load now).returnFrom load).1, outcomeOf c.mode load answer) := by
  rw [rules, Logged.value_bind, hgoes.value_request]
  rfl

/-- A caller alone publishes what it comes back with. -/
theorem GoesBy.phase_rules (hgoes : c.GoesBy now load answer) (hsound : c.Sound) :
    (c.rules now).value.1.phase = phaseOf (outcomeOf c.mode load answer) := by
  have hended := hgoes.answered.ended
  have hattempt := (hsound.enter.loading load hgoes.phase).1
  rw [hgoes.value_rules, returnFrom_of_done hended.done (hended.phase.trans hgoes.phase)
    (hended.attempt.trans hattempt.symm), mode_enter]

variable (c now)

/-- Where nothing is loaded or loading, the outcome is that of a new load. -/
theorem outcome_rules_of_unloaded (hphase : c.phase = .unloaded) :
    (c.rules now).value.2 = outcomeOf c.mode (c.attempt + 1) now := by
  rw [(goesBy_of_unloaded hphase).value_rules]

/-- Loaded rules are given as they are, and nothing changes. -/
theorem rules_of_loaded {set : Loaded} (hphase : c.phase = .loaded set) :
    (c.rules now).value = (c, .ok set) := by
  simp [rules, request, enter_of_loaded c hphase]

/-! ### Invalidations -/

/-- The attempts that started no load. -/
def invalidations (c : Cache) : Int := c.attempt - c.loads.length

/-- An invalidation is an attempt without a load. -/
@[simp] theorem invalidations_invalidate :
    c.invalidate.value.invalidations = c.invalidations + 1 := by
  simp only [invalidations, value_invalidate]
  omega

/-- A caller that starts a load makes an attempt with it. -/
@[simp] theorem invalidations_enter : c.enter.1.invalidations = c.invalidations := by
  cases hphase : c.phase with
  | unloaded =>
      simp only [invalidations, enter_of_unloaded c hphase, List.length_cons]
      omega
  | loading load => rw [enter_of_loading c load hphase]
  | loaded set => rw [enter_of_loaded c hphase]

theorem invalidations_setProgress (load : Nat) (p : Progress) :
    (c.setProgress load p).invalidations = c.invalidations := by
  simp [invalidations, setProgress]

@[simp] theorem invalidations_beginRead (load : Nat) :
    (c.beginRead load).value.invalidations = c.invalidations := by
  unfold beginRead
  split
  · exact c.invalidations_setProgress load .reading
  · rfl

@[simp] theorem invalidations_takeAnswer (load : Nat) (answer : Except Failure (List Authority)) :
    (c.takeAnswer load answer).invalidations = c.invalidations := by
  unfold takeAnswer
  split
  · exact c.invalidations_setProgress load _
  · rfl

@[simp] theorem invalidations_finishLoad (load : Nat) :
    (c.finishLoad load).value.invalidations = c.invalidations := by
  unfold finishLoad
  split
  · exact c.invalidations_setProgress load _
  · rfl

@[simp] theorem invalidations_returnFrom (load : Nat) :
    (c.returnFrom load).1.invalidations = c.invalidations := by
  rcases c.returnFrom_cases load with hsame | ⟨_, _, _, _, _, hnext⟩
  · rw [hsame]
  · rw [hnext]
    rfl

/-- A caller never invalidates anything. -/
theorem invalidations_rules : (c.rules now).value.1.invalidations = c.invalidations := by
  have henter := c.invalidations_enter
  rw [rules, request, Logged.value_bind]
  generalize c.enter = given at henter ⊢
  obtain ⟨entered, entry⟩ := given
  cases entry with
  | ready set => exact henter
  | waiting load =>
      have hleft : ((entered.driven load now).returnFrom load).1.invalidations =
          c.invalidations := by
        simp [driven, henter]
      simp only [Logged.value_bind, value_poll]
      generalize (entered.driven load now).returnFrom load = left at hleft ⊢
      obtain ⟨next, outcome⟩ := left
      cases outcome <;> exact hleft

end RouteGuard.Rules.Cache
