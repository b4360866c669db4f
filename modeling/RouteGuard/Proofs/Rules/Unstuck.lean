import Mathlib.Data.List.Nodup
import RouteGuard.Proofs.Rules.LoneCall
import RouteGuard.Proofs.Rules.SingleFlight

/-! # The load cycle never gets stuck

A call that is made alone while the store answers is expanded into the steps of
a run: it enters, drives its load as far as that has left to go, and returns. So
a load that all its callers have abandoned is finished by the next call, and
with the one read that it may have begun before.
-/

namespace RouteGuard.Rules

open Directory (Authority Failure)
open Glob (CaseMode)

namespace Cache

variable (c : Cache) (load : Nat)

/-- Only a load that reads takes an answer. -/
theorem takeAnswer_of_not_reading (answer : Except Failure (List Authority))
    (hprogress : c.progress? load ≠ some .reading) : c.takeAnswer load answer = c := by
  unfold takeAnswer
  split
  next hreading => exact absurd hreading hprogress
  · rfl

/-- Only a load that has its answer is finished. -/
theorem finishLoad_of_not_fetched
    (hprogress : ∀ answer, c.progress? load ≠ some (.fetched answer)) :
    (c.finishLoad load).value = c := by
  unfold finishLoad
  split
  next hfetched => exact absurd hfetched (hprogress _)
  · rfl

end Cache

namespace Run

/-- What is seen of the next call when it enters. -/
def State.entry (s : State) : Event := .entered s.calls s.cache.phase s.cache.enter.2

/-- A call that is made alone, expanded into steps: what is seen of it after its
entry, what it comes back with, and the state that it leaves. -/
structure Alone (mode : CaseMode) (history : List Event) (s : State) (seen : List Event)
    (outcome : Outcome) (t : State) : Prop where
  reaches : Reaches mode (history ++ s.entry :: seen) t
  /-- nothing is seen but the load that the call is given and its return -/
  own : ∀ e ∈ seen, e.isOf s.cache.enter.2.load ∨ e = .returned s.calls outcome
  /-- the call returns in one go, without waiting for anything -/
  request : (s.cache.request (some s.answer)).value = (t.cache, .inl outcome)
  returns : Returns (history ++ s.entry :: seen) s.calls outcome
  waiting : t.waiting = s.waiting
  /-- what is returned is published -/
  published : t.cache.phase = Cache.phaseOf outcome

/-- A load that is joined is finished. No other one is started, and the store is
read only if the load has not begun its read before. -/
structure Joined (history seen : List Event) (s t : State) (outcome : Outcome) (load : Nat) :
    Prop where
  finished : .finished load outcome ∈ history ++ s.entry :: seen
  numbers : t.cache.numbers = s.cache.numbers
  again : .began load ∈ history → t.cache.reads = s.cache.reads
  first : .began load ∉ history → t.cache.reads = s.cache.reads + 1

/-- A state that a run reaches by some more steps of one load. -/
def ReachesBy (mode : CaseMode) (history : List Event) (load : Nat) (t : State) : Prop :=
  ∃ steps, (∀ e ∈ steps, e.isOf load) ∧ Reaches mode (history ++ steps) t

namespace ReachesBy

variable {mode : CaseMode} {history : List Event} {s t : State} {e : Event} {load : Nat}

theorem refl (hrun : Reaches mode history s) : ReachesBy mode history load s :=
  ⟨[], by simp, by simpa using hrun⟩

theorem next (hreaches : ReachesBy mode history load s) (hstep : Step s e t)
    (hof : e.isOf load) : ReachesBy mode history load t := by
  obtain ⟨steps, hsteps, hrun⟩ := hreaches
  refine ⟨steps ++ [e], ?_, by simpa using hrun.step hstep⟩
  intro event hevent
  rcases List.mem_append.mp hevent with hmem | hlast
  · exact hsteps event hmem
  · rw [List.mem_singleton.mp hlast]
    exact hof

variable (load)

/-- To drive a load is to take what steps it has left. -/
theorem driven (hrun : Reaches mode history s) :
    ReachesBy mode history load { s with cache := s.cache.driven load s.answer } := by
  have hbegun : ReachesBy mode history load
      { s with cache := (s.cache.beginRead load).value } := by
    by_cases hfresh : s.cache.progress? load = some .fresh
    · exact (refl hrun).next (.beginRead hfresh) (by simp [Event.isOf])
    · rw [s.cache.beginRead_of_not_fresh load hfresh]
      exact refl hrun
  have htaken : ReachesBy mode history load
      { s with cache := (s.cache.beginRead load).value.takeAnswer load s.answer } := by
    by_cases hreading : (s.cache.beginRead load).value.progress? load = some .reading
    · exact hbegun.next (.takeAnswer hreading) (by simp [Event.isOf])
    · rw [Cache.takeAnswer_of_not_reading _ load s.answer hreading]
      exact hbegun
  by_cases hfetched : ∃ answer, ((s.cache.beginRead load).value.takeAnswer load
      s.answer).progress? load = some (.fetched answer)
  · obtain ⟨answer, hanswer⟩ := hfetched
    exact htaken.next (.finishLoad hanswer) (by simp [Event.isOf])
  · rw [Cache.driven, Cache.finishLoad_of_not_fetched _ load (not_exists.mp hfetched)]
    exact htaken

end ReachesBy

namespace Alone

variable {mode : CaseMode} {history seen : List Event} {s t : State} {outcome : Outcome}
  {set : Loaded} {load : Nat} {answer : Except Failure (List Authority)}

/-- A caller that finds rules loaded returns with them at once. -/
theorem of_loaded (hrun : Reaches mode history s) (hphase : s.cache.phase = .loaded set) :
    Alone mode history s [] (.ok set) s.entered := by
  have henter := s.cache.enter_of_loaded hphase
  refine ⟨hrun.step .enter, by simp, ?_, ?_, ?_, ?_⟩
  · simp [Cache.request, State.entered, henter]
  · exact Or.inl ⟨s.cache.phase, set, by simp [State.entry, henter], rfl⟩
  · simp [State.entered, henter]
  · simp [State.entered, henter, hphase, Cache.phaseOf]

/-- A caller that starts or joins a load brings it to its end by itself. -/
theorem of_goesBy (hrun : Reaches mode history s) (hgoes : s.cache.GoesBy s.answer load answer) :
    ∃ seen t, Alone mode history s seen (Cache.outcomeOf s.cache.mode load answer) t := by
  have hgiven : s.cache.enter.2 = .waiting load := by rw [hgoes.enter_eq]
  have hentered : Reaches mode (history ++ [s.entry])
      ⟨s.cache.enter.1, s.answer, (s.calls, load) :: s.waiting, s.calls + 1⟩ := by
    simpa only [State.entered, State.entry, hgiven] using hrun.step .enter
  obtain ⟨steps, hsteps, hdriven⟩ := ReachesBy.driven load hentered
  have hleft : Reaches mode
      (history ++ s.entry :: (steps ++ [.returned s.calls (Cache.outcomeOf s.cache.mode load answer)]))
      ⟨((s.cache.enter.1.driven load s.answer).returnFrom load).1, s.answer, s.waiting,
        s.calls + 1⟩ := by
    simpa using hdriven.step (.leave List.mem_cons_self hgoes.returned)
  refine ⟨_, _, hleft, ?_, hgoes.value_request, Or.inr (by simp), rfl, ?_⟩
  · intro e hmem
    rcases List.mem_append.mp hmem with hmem | hlast
    · rw [hgiven]
      exact Or.inl (hsteps e hmem)
    · exact Or.inr (List.mem_singleton.mp hlast)
  · have hphase := hgoes.phase_rules hrun.sound
    rw [hgoes.value_rules] at hphase
    exact hphase

variable (halone : Alone mode history s seen outcome t)
include halone

theorem finished : .finished s.cache.enter.2.load outcome ∈ history ++ s.entry :: seen :=
  halone.reaches.finished_of_returns (List.mem_append_right history List.mem_cons_self)
    halone.returns

theorem filterMap_start? : seen.filterMap Event.start? = [] := by
  rw [List.filterMap_eq_nil_iff]
  intro e hmem
  rcases halone.own e hmem with hof | hreturned
  · cases e <;> simp [Event.isOf, Event.start?] at hof ⊢
  · rw [hreturned]
    rfl

theorem reads_eq (hrun : Reaches mode history s) :
    t.cache.reads = s.cache.reads + (seen.filterMap Event.began?).length := by
  rw [halone.reaches.reads_once.2, hrun.reads_once.2, List.filterMap_append,
    List.length_append]
  rfl

/-- The call begins no read but that of its load, which is begun once in all. -/
theorem count_began :
    (history.filterMap Event.began?).count s.cache.enter.2.load +
      (seen.filterMap Event.began?).length = 1 := by
  have hown : ∀ number ∈ seen.filterMap Event.began?, s.cache.enter.2.load = number := by
    intro number hmem
    rcases halone.own _ ((mem_began_iff seen number).mp hmem) with hof | hreturned
    · exact (beq_iff_eq.mp hof).symm
    · cases hreturned
  obtain ⟨answer, _, htrail⟩ := halone.reaches.filter_isOf_of_finished halone.finished
  have hbegan : .began s.cache.enter.2.load ∈
      (history ++ s.entry :: seen).filter (Event.isOf s.cache.enter.2.load) := by
    rw [htrail]
    exact List.mem_cons_self
  have hmem := (mem_began_iff _ _).mpr (List.mem_filter.mp hbegan).1
  have honce := List.nodup_iff_count_eq_one.mp halone.reaches.reads_once.1 _ hmem
  rw [← List.count_eq_length.mpr hown, ← List.count_append, ← honce, List.filterMap_append]
  rfl

/-- A call that finds a load under way sees to it that this one is finished. -/
theorem joined (hrun : Reaches mode history s) (hphase : s.cache.phase = .loading load) :
    Joined history seen s t outcome load := by
  have henter := s.cache.enter_of_loading load hphase
  have hentry : s.entry = .entered s.calls (.loading load) (.waiting load) := by
    rw [State.entry, hphase, henter]
  have hfinished := halone.finished
  have hcount := halone.count_began
  have hreads := halone.reads_eq hrun
  rw [henter] at hfinished hcount
  refine ⟨hfinished, ?_, ?_, ?_⟩
  · rw [halone.reaches.numbers_eq, hrun.numbers_eq, List.filterMap_append, hentry,
      List.filterMap_cons_none rfl, halone.filterMap_start?, List.append_nil]
  · intro hbegan
    have hpos := List.count_pos_iff.mpr ((mem_began_iff history load).mpr hbegan)
    simp only [Entry.load] at hcount
    omega
  · intro hunread
    have hzero := List.count_eq_zero.mpr (mt (mem_began_iff history load).mp hunread)
    simp only [Entry.load] at hcount
    omega

end Alone

namespace Reaches

variable {mode : CaseMode} {history : List Event} {s : State}

/-- Wherever a run has led, a call that is made alone while the store answers
returns, and leaves the cache loaded with what it returns or else unloaded. -/
theorem unstuck (hrun : Reaches mode history s) :
    ∃ seen outcome t, Alone mode history s seen outcome t ∧
      ∀ load, s.cache.phase = .loading load → Joined history seen s t outcome load := by
  by_cases hloaded : ∃ set, s.cache.phase = .loaded set
  · obtain ⟨set, hphase⟩ := hloaded
    have halone := Alone.of_loaded hrun hphase
    exact ⟨_, _, _, halone, fun _ => halone.joined hrun⟩
  · obtain ⟨load, answer, hgoes⟩ := hrun.exists_goesBy (not_exists.mp hloaded) s.answer
    obtain ⟨seen, t, halone⟩ := Alone.of_goesBy hrun hgoes
    exact ⟨seen, _, t, halone, fun _ => halone.joined hrun⟩

/-- Two loads are under way, one of them overtaken, and all their callers are
gone. The next call finishes the later load with the read that it has begun. -/
theorem unstuck_abandoned : ∃ history s, Reaches .exact history s ∧ s.waiting = [] ∧
    s.cache.phase = .loading 3 ∧ s.cache.reads = 2 ∧
    ∃ seen outcome t, Alone .exact history s seen outcome t ∧ t.cache.reads = 2 := by
  have hstale : Reaches .exact _
      ⟨⟨.exact, 2, .unloaded, [(1, .reading)], 1⟩, .ok [], [(0, 1)], 1⟩ :=
    (((Reaches.start (.ok [])).step .enter).step (@Step.beginRead _ 1 rfl)).step .invalidate
  have hjoined : Reaches .exact _
      ⟨⟨.exact, 3, .loading 3, [(3, .reading), (1, .reading)], 2⟩, .ok [],
        [(2, 3), (1, 3), (0, 1)], 3⟩ :=
    ((hstale.step .enter).step .enter).step (@Step.beginRead _ 3 rfl)
  have hdropped : Reaches .exact _
      ⟨⟨.exact, 3, .loading 3, [(3, .reading), (1, .reading)], 2⟩, .ok [], [], 3⟩ :=
    ((hjoined.step (@Step.drop _ 2 3 (by simp))).step (@Step.drop _ 1 3 (by simp))).step
      (@Step.drop _ 0 1 (by simp))
  obtain ⟨seen, outcome, t, halone, hjoins⟩ := hdropped.unstuck
  exact ⟨_, _, hdropped, rfl, rfl, rfl, seen, outcome, t, halone, (hjoins 3 rfl).again (by simp)⟩

end Reaches

end Run

end RouteGuard.Rules
