import RouteGuard.Proofs.Rules.Run

/-! # What the history of a run tells

The state of the cache can be read off the history: the loads that were started,
how far each has come, and which of them the last attempt belongs to. What a
call comes back with can be read off it too.
-/

namespace RouteGuard.Rules.Run

open Directory (Authority Failure)
open Glob (CaseMode)

/-- The events of one load, as far as it has come. They come in one order and
each at most once. -/
inductive Trail (mode : CaseMode) (load : Nat) : Option Progress → List Event → Prop
  | unknown : Trail mode load none []
  | fresh : Trail mode load (some .fresh) []
  | reading : Trail mode load (some .reading) [.began load]
  | fetched (answer : Except Failure (List Authority)) :
      Trail mode load (some (.fetched answer)) [.began load, .answered load answer]
  | done (answer : Except Failure (List Authority)) :
      Trail mode load (some (.done (Cache.outcomeOf mode load answer)))
        [.began load, .answered load answer, .finished load (Cache.outcomeOf mode load answer)]

namespace Step

variable {s t : State} {e : Event}

theorem mode_eq (hstep : Step s e t) : t.cache.mode = s.cache.mode := by
  cases hstep with
  | enter => cases hphase : s.cache.phase <;> simp [State.entered, Cache.enter, hphase]
  | beginRead hfresh => rw [Cache.beginRead_of_fresh _ _ hfresh]; rfl
  | takeAnswer hreading => rw [Cache.takeAnswer_of_reading _ _ _ hreading]; rfl
  | finishLoad hfetched => rw [Cache.finishLoad_of_fetched _ _ hfetched]; rfl
  | @leave call load outcome =>
      rcases s.cache.returnFrom_cases load with hsame | ⟨_, _, _, _, _, hnext⟩
      · rw [hsame]
      · rw [hnext]
  | drop => rfl
  | invalidate => rfl
  | change => rfl

/-- A step adds the number of the load it starts, and no other. -/
theorem numbers_eq (hstep : Step s e t) : t.cache.numbers = e.start?.toList ++ s.cache.numbers := by
  cases hstep with
  | enter =>
      cases hphase : s.cache.phase <;>
        simp [State.entered, Cache.enter, hphase, Cache.numbers, Event.start?]
  | beginRead hfresh =>
      rw [Cache.beginRead_of_fresh _ _ hfresh]
      exact Cache.numbers_setProgress _ _ _
  | takeAnswer hreading =>
      rw [Cache.takeAnswer_of_reading _ _ _ hreading]
      exact Cache.numbers_setProgress _ _ _
  | finishLoad hfetched =>
      rw [Cache.finishLoad_of_fetched _ _ hfetched]
      exact Cache.numbers_setProgress _ _ _
  | @leave call load outcome =>
      rcases s.cache.returnFrom_cases load with hsame | ⟨_, _, _, _, _, hnext⟩
      · rw [hsame]; rfl
      · rw [hnext]; rfl
  | drop => rfl
  | invalidate => rfl
  | change => rfl

/-- A step moves at most one load on, and its event tells which and how far. -/
theorem progress?_eq (hstep : Step s e t) (load : Nat) :
    t.cache.progress? load =
      match e.progress? with
      | some (moved, p) => if load = moved then some p else s.cache.progress? load
      | none => s.cache.progress? load := by
  cases hstep with
  | enter =>
      cases hphase : s.cache.phase with
      | unloaded =>
          simp only [State.entered, Cache.enter_of_unloaded _ hphase, Event.progress?]
          by_cases heq : load = s.cache.attempt + 1
          · simp [Cache.progress?, heq]
          · have hne : (load == s.cache.attempt + 1) = false := by simpa using heq
            simp [Cache.progress?, List.lookup_cons, heq, hne]
      | loading number => simp [State.entered, Cache.enter_of_loading _ _ hphase, Event.progress?]
      | loaded set => simp [State.entered, Cache.enter_of_loaded _ hphase, Event.progress?]
  | @beginRead moved hfresh =>
      rw [Cache.beginRead_of_fresh _ _ hfresh]
      change (s.cache.setProgress moved .reading).progress? load = _
      simp [Cache.progress?_setProgress, hfresh, Event.progress?]
  | takeAnswer hreading =>
      rw [Cache.takeAnswer_of_reading _ _ _ hreading, Cache.progress?_setProgress, hreading]
      rfl
  | finishLoad hfetched =>
      rw [Cache.finishLoad_of_fetched _ _ hfetched, Cache.progress?_setProgress, hfetched]
      rfl
  | @leave call moved outcome =>
      rcases s.cache.returnFrom_cases moved with hsame | ⟨_, _, _, _, _, hnext⟩
      · rw [hsame]; rfl
      · rw [hnext]; rfl
  | drop => rfl
  | invalidate => rfl
  | change => rfl

/-- Attempts are counted at starts and at invalidations. Only a start leads away
from an unloaded cache. -/
theorem attempt_cases (hstep : Step s e t) :
    (t.cache.attempt = s.cache.attempt ∧ e.isInvalidated = false ∧
        (t.cache.phase ≠ .unloaded → s.cache.phase ≠ .unloaded)) ∨
      (e.start? = some t.cache.attempt ∧ t.cache.attempt = s.cache.attempt + 1) ∨
      (e = .invalidated t.cache.attempt ∧ t.cache.attempt = s.cache.attempt + 1 ∧
        t.cache.phase = .unloaded) := by
  cases hstep with
  | enter =>
      cases hphase : s.cache.phase with
      | unloaded =>
          refine Or.inr (Or.inl ?_)
          simp [State.entered, Cache.enter_of_unloaded _ hphase, Event.start?]
      | loading number =>
          refine Or.inl ?_
          simp [State.entered, Cache.enter_of_loading _ _ hphase, Event.isInvalidated]
      | loaded set =>
          refine Or.inl ?_
          simp [State.entered, Cache.enter_of_loaded _ hphase, Event.isInvalidated]
  | beginRead hfresh =>
      rw [Cache.beginRead_of_fresh _ _ hfresh]
      exact Or.inl ⟨rfl, rfl, id⟩
  | takeAnswer hreading =>
      rw [Cache.takeAnswer_of_reading _ _ _ hreading]
      exact Or.inl ⟨rfl, rfl, id⟩
  | finishLoad hfetched =>
      rw [Cache.finishLoad_of_fetched _ _ hfetched]
      exact Or.inl ⟨rfl, rfl, id⟩
  | @leave call load outcome =>
      rcases s.cache.returnFrom_cases load with hsame | ⟨_, _, hphase, _, _, hnext⟩
      · rw [hsame]
        exact Or.inl ⟨rfl, rfl, id⟩
      · rw [hnext]
        exact Or.inl ⟨rfl, rfl, by simp [hphase]⟩
  | drop => exact Or.inl ⟨rfl, rfl, id⟩
  | invalidate => exact Or.inr (Or.inr ⟨rfl, rfl, rfl⟩)
  | change => exact Or.inl ⟨rfl, rfl, id⟩

theorem attempt_le (hstep : Step s e t) : s.cache.attempt ≤ t.cache.attempt := by
  rcases hstep.attempt_cases with ⟨hsame, _⟩ | ⟨_, hnext⟩ | ⟨_, hnext, _⟩ <;> omega

theorem invalidated_eq {attempt : Nat} (hstep : Step s (.invalidated attempt) t) :
    attempt = s.cache.attempt + 1 := by
  cases hstep
  rfl

/-- A read is told what the store says at the moment. -/
theorem answered_eq {load : Nat} {answer : Except Failure (List Authority)}
    (hstep : Step s (.answered load answer) t) : answer = s.answer := by
  cases hstep
  rfl

/-- A caller enters under the next number and is given what the phase calls for. -/
theorem entered_eq {call : Nat} {found : Phase} {entry : Entry}
    (hstep : Step s (.entered call found entry) t) :
    call = s.calls ∧ found = s.cache.phase ∧ entry = s.cache.enter.2 ∧ t = s.entered := by
  cases hstep
  exact ⟨rfl, rfl, rfl, rfl⟩

/-- A caller that returns has waited for a load that is done. -/
theorem returned_eq {call : Nat} {outcome : Outcome} (hstep : Step s (.returned call outcome) t) :
    ∃ load, (call, load) ∈ s.waiting ∧ s.cache.progress? load = some (.done outcome) := by
  cases hstep with
  | leave hwaiting houtcome =>
      exact ⟨_, hwaiting, (s.cache.returnFrom_eq_some_iff _ _).mp houtcome⟩

/-- A load is started when nothing is loaded, under the number of the next attempt. -/
theorem start_eq {load : Nat} (hstep : Step s e t) (hstart : e.start? = some load) :
    load = s.cache.attempt + 1 ∧ s.cache.phase = .unloaded := by
  cases hstep with
  | enter =>
      cases hphase : s.cache.phase with
      | unloaded =>
          simp only [hphase, Cache.enter_of_unloaded _ hphase, Event.start?,
            Option.some.injEq] at hstart
          exact ⟨hstart.symm, rfl⟩
      | loading number => simp [hphase, Event.start?] at hstart
      | loaded set => simp [hphase, Event.start?] at hstart
  | _ => simp [Event.start?] at hstart

end Step

theorem Event.start?_eq_some_iff (e : Event) (load : Nat) :
    e.start? = some load ↔ ∃ call, e = .entered call .unloaded (.waiting load) := by
  cases e with
  | entered call found entry =>
      cases found <;> cases entry <;> simp [Event.start?]
  | _ => simp [Event.start?]

namespace Reaches

variable {mode : CaseMode} {history before after : List Event} {s t : State} {e : Event}

theorem mode_eq (hrun : Reaches mode history s) : s.cache.mode = mode := by
  induction hrun with
  | start => rfl
  | step hrun hstep ih => exact hstep.mode_eq.trans ih

/-- The loads of the cache are those that were seen to start. -/
theorem numbers_eq (hrun : Reaches mode history s) :
    s.cache.numbers = (history.filterMap Event.start?).reverse := by
  induction hrun with
  | start => rfl
  | @step history s t e hrun hstep ih =>
      rw [hstep.numbers_eq, ih]
      cases hstart : e.start? with
      | none => simp [hstart]
      | some load => simp [hstart]

theorem trail (hrun : Reaches mode history s) (load : Nat) :
    Trail mode load (s.cache.progress? load) (history.filter (Event.isOf load)) := by
  induction hrun with
  | start => exact .unknown
  | @step history s t e hrun hstep ih =>
      rw [hstep.progress?_eq load, List.filter_append]
      cases hstep with
      | enter =>
          cases hphase : s.cache.phase with
          | unloaded =>
              simp only [Cache.enter_of_unloaded _ hphase, Event.progress?]
              by_cases heq : load = s.cache.attempt + 1
              · subst heq
                -- the number is new, so nothing has been seen of such a load
                rw [hrun.sound.not_started (Nat.lt_succ_self _)] at ih
                cases hevents : history.filter (Event.isOf (s.cache.attempt + 1)) with
                | nil => simpa [Event.isOf] using Trail.fresh
                | cons first rest => rw [hevents] at ih; cases ih
              · simpa [heq, Event.isOf] using ih
          | loading number => simpa [Event.progress?, Event.isOf] using ih
          | loaded set => simpa [Event.progress?, Event.isOf] using ih
      | @beginRead moved hfresh =>
          by_cases heq : load = moved
          · subst heq
            rw [hfresh] at ih
            cases hevents : history.filter (Event.isOf load) with
            | nil => simpa [Event.progress?, Event.isOf] using Trail.reading
            | cons first rest => rw [hevents] at ih; cases ih
          · simpa [Event.progress?, Event.isOf, heq, Ne.symm heq] using ih
      | @takeAnswer moved hreading =>
          by_cases heq : load = moved
          · subst heq
            -- a load that reads has one trail only, and it grows by the answer
            rw [hreading] at ih
            generalize history.filter (Event.isOf load) = events at ih
            cases ih
            simpa [Event.progress?, Event.isOf] using Trail.fetched s.answer
          · simpa [Event.progress?, Event.isOf, heq, Ne.symm heq] using ih
      | @finishLoad moved answer hfetched =>
          by_cases heq : load = moved
          · subst heq
            rw [hfetched] at ih
            generalize history.filter (Event.isOf load) = events at ih
            cases ih
            simpa [Event.progress?, Event.isOf, hrun.mode_eq] using Trail.done answer
          · simpa [Event.progress?, Event.isOf, heq, Ne.symm heq] using ih
      | leave => simpa [Event.progress?, Event.isOf] using ih
      | drop => simpa [Event.progress?, Event.isOf] using ih
      | invalidate => simpa [Event.progress?, Event.isOf] using ih
      | change => simpa [Event.progress?, Event.isOf] using ih

/-! ### The events of one load -/

/-- The loads are those that callers started. -/
theorem mem_numbers_iff (hrun : Reaches mode history s) (load : Nat) :
    load ∈ s.cache.numbers ↔ ∃ call, .entered call .unloaded (.waiting load) ∈ history := by
  rw [hrun.numbers_eq, List.mem_reverse, List.mem_filterMap]
  constructor
  · rintro ⟨e, hmem, hstart⟩
    obtain ⟨call, rfl⟩ := (e.start?_eq_some_iff load).mp hstart
    exact ⟨call, hmem⟩
  · rintro ⟨call, hmem⟩
    exact ⟨_, hmem, rfl⟩

/-- A load that is seen to move on was started. -/
theorem mem_numbers_of_isOf (hrun : Reaches mode history s) {load : Nat} (hmem : e ∈ history)
    (hof : e.isOf load) : load ∈ s.cache.numbers := by
  rw [← s.cache.progress?_isSome_iff]
  have htrail := hrun.trail load
  have hevent : e ∈ history.filter (Event.isOf load) := List.mem_filter.mpr ⟨hmem, hof⟩
  cases hprogress : s.cache.progress? load with
  | some progress => rfl
  | none =>
      rw [hprogress] at htrail
      generalize history.filter (Event.isOf load) = events at htrail hevent
      cases htrail
      simp at hevent

/-- A load is done with an outcome if it was finished with it. -/
theorem finished_iff (hrun : Reaches mode history s) (load : Nat) (outcome : Outcome) :
    .finished load outcome ∈ history ↔ s.cache.progress? load = some (.done outcome) := by
  have htrail := hrun.trail load
  have hmem : .finished load outcome ∈ history ↔
      .finished load outcome ∈ history.filter (Event.isOf load) := by
    simp [List.mem_filter, Event.isOf]
  rw [hmem]
  generalize history.filter (Event.isOf load) = events at htrail
  generalize s.cache.progress? load = progress at htrail
  cases htrail <;> simp [eq_comm]

/-- All that is seen of a finished load is one read, one answer and the outcome
that the answer leads to. -/
theorem filter_isOf_of_finished (hrun : Reaches mode history s) {load : Nat} {outcome : Outcome}
    (hfinished : .finished load outcome ∈ history) :
    ∃ answer, outcome = Cache.outcomeOf mode load answer ∧
      history.filter (Event.isOf load) =
        [.began load, .answered load answer, .finished load outcome] := by
  have htrail := hrun.trail load
  rw [(hrun.finished_iff load outcome).mp hfinished] at htrail
  generalize history.filter (Event.isOf load) = events at htrail
  cases htrail with
  | done answer => exact ⟨answer, rfl, rfl⟩

/-- A load is finished with one outcome. -/
theorem finished_unique (hrun : Reaches mode history s) {load : Nat} {first second : Outcome}
    (hfirst : .finished load first ∈ history) (hsecond : .finished load second ∈ history) :
    first = second := by
  rw [hrun.finished_iff] at hfirst hsecond
  simpa using hfirst.symm.trans hsecond

/-! ### The order of attempts -/

theorem invalidated_le (hrun : Reaches mode history s) {attempt : Nat}
    (hmem : .invalidated attempt ∈ history) : attempt ≤ s.cache.attempt := by
  induction hrun with
  | start => simp at hmem
  | step hrun hstep ih =>
      rcases List.mem_append.mp hmem with hmem | hlast
      · exact Nat.le_trans (ih hmem) hstep.attempt_le
      · rcases hstep.attempt_cases with ⟨_, hnot, _⟩ | ⟨hstart, _⟩ | ⟨rfl, _⟩
        · simp [← List.mem_singleton.mp hlast, Event.isInvalidated] at hnot
        · simp [← List.mem_singleton.mp hlast, Event.start?] at hstart
        · cases List.mem_singleton.mp hlast
          exact Nat.le_refl _

/-- What is loaded or loading belongs to a later attempt than any invalidation. -/
theorem invalidated_lt (hrun : Reaches mode history s) {attempt : Nat}
    (hmem : .invalidated attempt ∈ history) (hphase : s.cache.phase ≠ .unloaded) :
    attempt < s.cache.attempt := by
  induction hrun with
  | start => simp at hmem
  | @step history s t e hrun hstep ih =>
      -- an unloaded cache is left only by a start, which has a number of its own
      rcases hstep.attempt_cases with ⟨hsame, hnot, hloaded⟩ | ⟨hstart, hnext⟩ | ⟨_, _, hunloaded⟩
      · rcases List.mem_append.mp hmem with hmem | hlast
        · rw [hsame]
          exact ih hmem (hloaded hphase)
        · simp [← List.mem_singleton.mp hlast, Event.isInvalidated] at hnot
      · rcases List.mem_append.mp hmem with hmem | hlast
        · have hle := hrun.invalidated_le hmem
          omega
        · simp [← List.mem_singleton.mp hlast, Event.start?] at hstart
      · exact absurd hunloaded hphase

theorem entered_le (hrun : Reaches mode history s) {call : Nat} {found : Phase} {entry : Entry}
    (hmem : .entered call found entry ∈ history) : entry.load ≤ s.cache.attempt := by
  induction hrun with
  | start => simp at hmem
  | step hrun hstep ih =>
      rcases List.mem_append.mp hmem with hmem | hlast
      · exact Nat.le_trans (ih hmem) hstep.attempt_le
      · cases List.mem_singleton.mp hlast
        obtain ⟨_, _, rfl, rfl⟩ := hstep.entered_eq
        exact Nat.le_of_eq hrun.sound.load_enter

/-- A call that enters after an invalidation is given a load of a later attempt. -/
theorem lt_of_entered_after {attempt call : Nat} {found : Phase} {entry : Entry}
    (hrun : Reaches mode (before ++ .entered call found entry :: after) s)
    (hmem : .invalidated attempt ∈ before) : attempt < entry.load := by
  obtain ⟨first, next, hfirst, hstep⟩ := hrun.split
  obtain ⟨_, _, rfl, rfl⟩ := hstep.entered_eq
  rw [hfirst.sound.load_enter]
  exact (hfirst.step hstep).invalidated_lt (List.mem_append_left _ hmem)
    first.cache.phase_enter_ne_unloaded

/-- A call that entered before an invalidation was given a load of an earlier
attempt. -/
theorem lt_of_entered_before {attempt call : Nat} {found : Phase} {entry : Entry}
    (hrun : Reaches mode (before ++ .invalidated attempt :: after) s)
    (hmem : .entered call found entry ∈ before) : entry.load < attempt := by
  obtain ⟨first, next, hfirst, hstep⟩ := hrun.split
  have hle := hfirst.entered_le hmem
  have hattempt := hstep.invalidated_eq
  omega

theorem lt_of_entered_since {attempt call : Nat} {found : Phase} {entry : Entry}
    (hrun : Reaches mode (before ++ .invalidated attempt :: after) s)
    (hmem : .entered call found entry ∈ after) : attempt < entry.load := by
  obtain ⟨earlier, later, rfl⟩ := List.append_of_mem hmem
  have hsplit : Reaches mode
      ((before ++ .invalidated attempt :: earlier) ++ .entered call found entry :: later) s := by
    simpa using hrun
  exact hsplit.lt_of_entered_after (List.mem_append_right _ List.mem_cons_self)

theorem lt_of_invalidated_since {attempt call : Nat} {found : Phase} {entry : Entry}
    (hrun : Reaches mode (before ++ .entered call found entry :: after) s)
    (hmem : .invalidated attempt ∈ after) : entry.load < attempt := by
  obtain ⟨earlier, later, rfl⟩ := List.append_of_mem hmem
  have hsplit : Reaches mode
      ((before ++ .entered call found entry :: earlier) ++ .invalidated attempt :: later) s := by
    simpa using hrun
  exact hsplit.lt_of_entered_before (List.mem_append_right _ List.mem_cons_self)

/-! ### Calls -/

theorem call_lt (hrun : Reaches mode history s) {call : Nat} {found : Phase} {entry : Entry}
    (hmem : .entered call found entry ∈ history) : call < s.calls := by
  induction hrun with
  | start => simp at hmem
  | step hrun hstep ih =>
      rcases List.mem_append.mp hmem with hmem | hlast
      · have hlt := ih hmem
        cases hstep with
        | enter => exact Nat.lt_succ_of_lt hlt
        | _ => exact hlt
      · cases List.mem_singleton.mp hlast
        obtain ⟨rfl, _, _, rfl⟩ := hstep.entered_eq
        exact Nat.lt_succ_self _

/-- No call is entered twice. -/
theorem entered_unique (hrun : Reaches mode history s) {call : Nat} {found again : Phase}
    {entry other : Entry} (hentry : .entered call found entry ∈ history)
    (hother : .entered call again other ∈ history) : found = again ∧ entry = other := by
  induction hrun with
  | start => simp at hentry
  | step hrun hstep ih =>
      rcases List.mem_append.mp hentry with hbefore | hlast
      · rcases List.mem_append.mp hother with hbefore' | hlast
        · exact ih hbefore hbefore'
        · -- calls are numbered in turn, so a later one has another number
          cases List.mem_singleton.mp hlast
          have hlt := hrun.call_lt hbefore
          have heq := hstep.entered_eq.1
          omega
      · cases List.mem_singleton.mp hlast
        rcases List.mem_append.mp hother with hbefore | hlast
        · have hlt := hrun.call_lt hbefore
          have heq := hstep.entered_eq.1
          omega
        · cases List.mem_singleton.mp hlast
          exact ⟨rfl, rfl⟩

theorem entered_of_waiting (hrun : Reaches mode history s) {call load : Nat}
    (hwaiting : (call, load) ∈ s.waiting) :
    ∃ found, .entered call found (.waiting load) ∈ history := by
  induction hrun with
  | start => simp at hwaiting
  | @step history s t e hrun hstep ih =>
      have hearlier : (call, load) ∈ s.waiting →
          ∃ found, .entered call found (.waiting load) ∈ history ++ [e] := by
        intro hmem
        obtain ⟨found, hfound⟩ := ih hmem
        exact ⟨found, List.mem_append_left _ hfound⟩
      cases hstep with
      | enter =>
          cases hentry : s.cache.enter.2 with
          | ready set =>
              rw [hentry] at hearlier
              exact hearlier (by simpa [State.entered, hentry] using hwaiting)
          | waiting joined =>
              simp only [State.entered, hentry, List.mem_cons, Prod.mk.injEq] at hwaiting
              rcases hwaiting with ⟨rfl, rfl⟩ | hmem
              · exact ⟨s.cache.phase, List.mem_append_right _ (by simp)⟩
              · rw [hentry] at hearlier
                exact hearlier hmem
      | leave => exact hearlier (List.mem_of_mem_erase hwaiting)
      | drop => exact hearlier (List.mem_of_mem_erase hwaiting)
      | _ => exact hearlier hwaiting

/-- A call that was given a load to wait for waits until it returns or is
dropped. -/
theorem waiting_of_entered (hrun : Reaches mode history s) {call load : Nat} {found : Phase}
    (hentered : .entered call found (.waiting load) ∈ history) (hkept : .dropped call ∉ history)
    (hopen : ∀ outcome, .returned call outcome ∉ history) : (call, load) ∈ s.waiting := by
  induction hrun with
  | start => simp at hentered
  | @step history s t e hrun hstep ih =>
      have hkept' : .dropped call ∉ history := fun h => hkept (List.mem_append_left _ h)
      have hopen' : ∀ outcome, .returned call outcome ∉ history :=
        fun outcome h => hopen outcome (List.mem_append_left _ h)
      rcases List.mem_append.mp hentered with hearlier | hlast
      · have hwaiting := ih hearlier hkept' hopen'
        cases hstep with
        | enter =>
            cases hentry : s.cache.enter.2 with
            | ready set => simpa [State.entered, hentry] using hwaiting
            | waiting joined => simpa [State.entered, hentry] using Or.inr hwaiting
        | @leave left _ outcome =>
            have hne : call ≠ left := by
              rintro rfl
              exact hopen outcome (by simp)
            exact (List.mem_erase_of_ne (by simp [hne])).mpr hwaiting
        | @drop left _ =>
            have hne : call ≠ left := by
              rintro rfl
              exact hkept (by simp)
            exact (List.mem_erase_of_ne (by simp [hne])).mpr hwaiting
        | _ => exact hwaiting
      · cases List.mem_singleton.mp hlast
        obtain ⟨rfl, _, hentry, rfl⟩ := hstep.entered_eq
        simp [State.entered, ← hentry]

/-- A call is given a table only if its load has finished with that table. -/
theorem finished_of_ready (hrun : Reaches mode history s) {call : Nat} {found : Phase}
    {set : Loaded} (hmem : .entered call found (.ready set) ∈ history) :
    .finished set.load (.ok set) ∈ history := by
  obtain ⟨before, after, rfl⟩ := List.append_of_mem hmem
  obtain ⟨first, next, hfirst, hstep⟩ := hrun.split
  obtain ⟨_, _, hentry, _⟩ := hstep.entered_eq
  have hloaded : first.cache.phase = .loaded set := by
    cases hphase : first.cache.phase with
    | unloaded => simp [Cache.enter_of_unloaded _ hphase] at hentry
    | loading number => simp [Cache.enter_of_loading _ _ hphase] at hentry
    | loaded other => simp_all [Cache.enter_of_loaded _ hphase]
  have hdone := (hfirst.sound.loaded set hloaded).2
  exact List.mem_append_left _ ((hfirst.finished_iff _ _).mpr hdone)

/-- Whatever a call comes back with is the outcome of the load that it was given. -/
theorem finished_of_returns (hrun : Reaches mode history s) {call : Nat} {found : Phase}
    {entry : Entry} {outcome : Outcome} (hentered : .entered call found entry ∈ history)
    (hreturns : Returns history call outcome) : .finished entry.load outcome ∈ history := by
  rcases hreturns with ⟨again, set, hready, rfl⟩ | hreturned
  · obtain ⟨_, rfl⟩ := hrun.entered_unique hentered hready
    exact hrun.finished_of_ready hready
  · obtain ⟨before, after, rfl⟩ := List.append_of_mem hreturned
    obtain ⟨first, next, hfirst, hstep⟩ := hrun.split
    obtain ⟨load, hwaiting, hdone⟩ := hstep.returned_eq
    obtain ⟨again, hagain⟩ := hfirst.entered_of_waiting hwaiting
    obtain ⟨_, rfl⟩ := hrun.entered_unique hentered (List.mem_append_left _ hagain)
    exact List.mem_append_left _ ((hfirst.finished_iff _ _).mpr hdone)

/-- The load of a call was given up by an invalidation, or is still what the
cache holds, or has failed. -/
theorem entered_settled (hrun : Reaches mode history s) {call : Nat} {found : Phase}
    {entry : Entry} (hmem : .entered call found entry ∈ history) :
    (∃ attempt, .invalidated attempt ∈ history ∧ entry.load < attempt) ∨
      (s.cache.phase ≠ .unloaded ∧ entry.load = s.cache.attempt) ∨
      ∃ e, .finished entry.load (.error e) ∈ history := by
  induction hrun with
  | start => simp at hmem
  | @step history s t event hrun hstep ih =>
      rcases List.mem_append.mp hmem with hearlier | hlast
      · rcases ih hearlier with ⟨attempt, hattempt, hlt⟩ | ⟨hphase, hload⟩ | ⟨e, hfailed⟩
        · exact Or.inl ⟨attempt, List.mem_append_left _ hattempt, hlt⟩
        · -- a load that is held is lost only to its own failure or to an invalidation
          cases hstep with
          | enter =>
              refine Or.inr (Or.inl ⟨Cache.phase_enter_ne_unloaded _, ?_⟩)
              cases hfound : s.cache.phase with
              | unloaded => exact absurd hfound hphase
              | loading number => simpa [State.entered, Cache.enter, hfound] using hload
              | loaded set => simpa [State.entered, Cache.enter, hfound] using hload
          | beginRead hfresh =>
              rw [Cache.beginRead_of_fresh _ _ hfresh]
              exact Or.inr (Or.inl ⟨hphase, hload⟩)
          | takeAnswer hreading =>
              rw [Cache.takeAnswer_of_reading _ _ _ hreading]
              exact Or.inr (Or.inl ⟨hphase, hload⟩)
          | finishLoad hfetched =>
              rw [Cache.finishLoad_of_fetched _ _ hfetched]
              exact Or.inr (Or.inl ⟨hphase, hload⟩)
          | @leave left number outcome =>
              rcases s.cache.returnFrom_cases number with
                hsame | ⟨_, published, _, hattempt, hdone, hnext⟩
              · rw [hsame]
                exact Or.inr (Or.inl ⟨hphase, hload⟩)
              · rw [hnext]
                cases published with
                | ok set => exact Or.inr (Or.inl ⟨by simp [Cache.phaseOf], hload⟩)
                | error e =>
                    refine Or.inr (Or.inr ⟨e, List.mem_append_left _ ?_⟩)
                    rw [hrun.finished_iff, hload, hattempt]
                    exact hdone
          | drop => exact Or.inr (Or.inl ⟨hphase, hload⟩)
          | invalidate =>
              refine Or.inl ⟨_, List.mem_append_right _ (List.mem_singleton.mpr rfl), ?_⟩
              omega
          | change => exact Or.inr (Or.inl ⟨hphase, hload⟩)
        · exact Or.inr (Or.inr ⟨e, List.mem_append_left _ hfailed⟩)
      · cases List.mem_singleton.mp hlast
        obtain ⟨_, _, rfl, rfl⟩ := hstep.entered_eq
        exact Or.inr (Or.inl ⟨Cache.phase_enter_ne_unloaded _, hrun.sound.load_enter⟩)

end Reaches

end RouteGuard.Rules.Run
