import RouteGuard.Proofs.Rules.Freshness

/-! # Single flight

Callers that arrive during a load share it. Between invalidations a new load is
needed only after a failed one, so all callers agree on one table, and a caller
that comes back late disturbs nothing that was loaded meanwhile.
-/

namespace RouteGuard.Rules.Run

open Directory (Authority Failure)
open Glob (CaseMode)

namespace Event

def isFailureOf (load : Nat) : Event → Bool
  | finished failed (.error _) => failed == load
  | _ => false

end Event

/-- The loads that are started in a part of a history. -/
def started (part : List Event) : List Nat := part.filterMap Event.start?

/-- What loads and callers owe to each other. -/
structure SingleFlight (history : List Event) (s : State) : Prop where
  /-- a read is begun only by a load that a call started on finding nothing loaded -/
  reader : ∀ {before after : List Event} {load : Nat}, history = before ++ .began load :: after →
    ∃ call, .entered call .unloaded (.waiting load) ∈ before
  /-- a load reads the store at most once, and the cache counts the reads -/
  reads : (history.filterMap Event.began?).Nodup ∧
    s.cache.reads = (history.filterMap Event.began?).length
  /-- while nothing is invalidated, every load but one is due to a failed one -/
  loads : ∀ {before stretch after : List Event}, history = before ++ stretch ++ after →
    (∀ attempt, .invalidated attempt ∉ stretch) →
    (started stretch).length ≤
      (started stretch).countP (fun load => stretch.any (Event.isFailureOf load)) + 1
  /-- calls with no invalidation between their starts agree on the table -/
  agreed : ∀ {before middle after : List Event} {first second : Nat} {found again : Phase}
    {entry other : Entry} {set later : Loaded},
    history = before ++ .entered first found entry :: middle ++ .entered second again other :: after →
    (∀ attempt, .invalidated attempt ∉ middle) →
    Returns history first (.ok set) → Returns history second (.ok later) → set = later
  /-- calls that wait for one load return with one outcome, a failure included -/
  shared : ∀ {load first second : Nat} {found again : Phase} {outcome other : Outcome},
    .entered first found (.waiting load) ∈ history →
    .entered second again (.waiting load) ∈ history →
    .returned first outcome ∈ history → .returned second other ∈ history → outcome = other
  /-- a call that waits for a finished load and is not dropped has returned with
  the outcome or can do so at once -/
  served : ∀ {load call : Nat} {found : Phase} {outcome : Outcome},
    .entered call found (.waiting load) ∈ history → .finished load outcome ∈ history →
    .dropped call ∉ history →
    .returned call outcome ∈ history ∨ ∃ t, Step s (.returned call outcome) t
  /-- a return changes the cache only while it is loading that very load -/
  late : ∀ {load call : Nat} {found : Phase} {outcome : Outcome} {t : State},
    .entered call found (.waiting load) ∈ history → Step s (.returned call outcome) t →
    s.cache.phase ≠ .loading load → t.cache = s.cache

namespace Step

variable {s t : State} {e : Event}

theorem began_eq {load : Nat} (hstep : Step s (.began load) t) :
    s.cache.progress? load = some .fresh ∧ t.cache.reads = s.cache.reads + 1 := by
  cases hstep with
  | beginRead hfresh =>
      rw [Cache.beginRead_of_fresh _ _ hfresh]
      exact ⟨hfresh, rfl⟩

/-- Nothing else reads. -/
theorem reads_eq (hstep : Step s e t) (hbegan : e.began? = none) :
    t.cache.reads = s.cache.reads := by
  cases hstep with
  | enter => cases hphase : s.cache.phase <;> simp [State.entered, Cache.enter, hphase]
  | beginRead hfresh => simp [Event.began?] at hbegan
  | takeAnswer hreading => rw [Cache.takeAnswer_of_reading _ _ _ hreading]; rfl
  | finishLoad hfetched => rw [Cache.finishLoad_of_fetched _ _ hfetched]; rfl
  | @leave call load outcome =>
      rcases s.cache.returnFrom_cases load with hsame | ⟨_, _, _, _, _, hnext⟩
      · rw [hsame]
      · rw [hnext]
  | drop => rfl
  | invalidate => rfl
  | change => rfl

end Step

theorem Event.began?_eq_some_iff (e : Event) (load : Nat) :
    e.began? = some load ↔ e = .began load := by
  cases e <;> simp [Event.began?]

theorem mem_began_iff (events : List Event) (load : Nat) :
    load ∈ events.filterMap Event.began? ↔ .began load ∈ events := by
  simp only [List.mem_filterMap, Event.began?_eq_some_iff, exists_eq_right]

/-- If all but the last entry of a list satisfy a test, then at most one fails it. -/
theorem length_le_countP_of_pairwise {p : Nat → Bool} {numbers : List Nat}
    (hearlier : numbers.Pairwise fun number _ => p number) :
    numbers.length ≤ numbers.countP p + 1 := by
  induction numbers with
  | nil => simp
  | cons number rest ih =>
      obtain ⟨hnumber, hrest⟩ := List.pairwise_cons.mp hearlier
      cases rest with
      | nil => simp
      | cons next others =>
          have hp : p number = true := hnumber next List.mem_cons_self
          have hle := ih hrest
          rw [List.countP_cons_of_pos hp, List.length_cons]
          omega

namespace Reaches

variable {mode : CaseMode} {history before middle stretch after : List Event} {s t : State}

/-- A load that reads was started by a caller that found nothing loaded. -/
theorem began_of_started {load : Nat} (hrun : Reaches mode (before ++ .began load :: after) s) :
    ∃ call, .entered call .unloaded (.waiting load) ∈ before := by
  obtain ⟨first, next, hfirst, hstep⟩ := hrun.split
  rw [← hfirst.mem_numbers_iff, ← first.cache.progress?_isSome_iff, hstep.began_eq.1]
  rfl

/-- No load reads twice, and every read is that of a load. -/
theorem reads_once (hrun : Reaches mode history s) :
    (history.filterMap Event.began?).Nodup ∧
      s.cache.reads = (history.filterMap Event.began?).length := by
  induction hrun with
  | start => simp
  | @step history s t e hrun hstep ih =>
      obtain ⟨hnodup, hreads⟩ := ih
      cases hbegan : e.began? with
      | none => simpa [hbegan, hstep.reads_eq hbegan] using ⟨hnodup, hreads⟩
      | some load =>
          obtain rfl := (e.began?_eq_some_iff load).mp hbegan
          obtain ⟨hfresh, hnext⟩ := hstep.began_eq
          -- a load that has begun before would not be fresh any more
          have hnew : load ∉ history.filterMap Event.began? := by
            intro hmem
            have htrail := hrun.trail load
            have hof : .began load ∈ history.filter (Event.isOf load) := by
              simpa [Event.isOf] using (mem_began_iff history load).mp hmem
            rw [hfresh] at htrail
            generalize history.filter (Event.isOf load) = events at htrail hof
            cases htrail
            simp at hof
          refine ⟨?_, by simp [Event.began?, hnext, hreads]⟩
          rw [List.filterMap_append]
          refine List.nodup_append.mpr ⟨hnodup, by simp [Event.began?], ?_⟩
          intro number hnumber other hother heq
          obtain rfl : other = load := by simpa [Event.began?] using hother
          exact hnew (heq ▸ hnumber)

/-- A call that entered before, with no invalidation since, was given the load
that the cache still holds, or one that has failed since the call. -/
theorem settled_since {call : Nat} {found : Phase} {entry : Entry}
    (hrun : Reaches mode (before ++ .entered call found entry :: after) s)
    (hnone : ∀ attempt, .invalidated attempt ∉ after) :
    (s.cache.phase ≠ .unloaded ∧ entry.load = s.cache.attempt) ∨
      ∃ e, .finished entry.load (.error e) ∈ before ++ .entered call found entry :: after := by
  have hmem : .entered call found entry ∈ before ++ .entered call found entry :: after :=
    List.mem_append_right _ List.mem_cons_self
  rcases hrun.entered_settled hmem with ⟨attempt, hattempt, hlt⟩ | hkept
  · -- the invalidation came before the call, whose load is then a later one
    rcases List.mem_append.mp hattempt with hbefore | hrest
    · have hgt := hrun.lt_of_entered_after hbefore
      omega
    · rcases List.mem_cons.mp hrest with heq | hafter
      · cases heq
      · exact absurd hafter (hnone attempt)
  · exact hkept

/-- Two loads start with no invalidation between them only if the first one has
failed in between. -/
theorem failed_of_started_again {first second load next : Nat}
    (hrun : Reaches mode (before ++ .entered first .unloaded (.waiting load) :: middle ++
      .entered second .unloaded (.waiting next) :: after) s)
    (hnone : ∀ attempt, .invalidated attempt ∉ middle) :
    ∃ e, .finished load (.error e) ∈ middle := by
  obtain ⟨between, _, hbetween, hstep⟩ := hrun.split
  rcases hbetween.settled_since hnone with ⟨hphase, _⟩ | ⟨e, hfailed⟩
  · exact absurd hstep.entered_eq.2.1.symm hphase
  · exact ⟨e, hbetween.mem_after_start hfailed (by simp [Event.isOf])⟩

/-- Between invalidations a load is started only at first and after a failure. -/
theorem started_le (hrun : Reaches mode (before ++ stretch ++ after) s)
    (hnone : ∀ attempt, .invalidated attempt ∉ stretch) :
    (started stretch).length ≤
      (started stretch).countP (fun load => stretch.any (Event.isFailureOf load)) + 1 := by
  apply length_le_countP_of_pairwise
  -- every start but the last is followed by another, so its load has failed
  rw [started, List.pairwise_filterMap, List.pairwise_iff_forall_sublist]
  intro e later hsublist load hstart next hagain
  obtain ⟨call, rfl⟩ := (e.start?_eq_some_iff load).mp hstart
  obtain ⟨other, rfl⟩ := (later.start?_eq_some_iff next).mp hagain
  obtain ⟨front, back, rfl, hfront, hback⟩ := List.cons_sublist_iff.mp hsublist
  obtain ⟨front, middle, rfl⟩ := List.append_of_mem hfront
  obtain ⟨rest, back, rfl⟩ := List.append_of_mem (List.singleton_sublist.mp hback)
  have hsplit : Reaches mode ((before ++ front) ++ .entered call .unloaded (.waiting load) ::
      (middle ++ rest) ++ .entered other .unloaded (.waiting next) :: (back ++ after)) s := by
    simpa using hrun
  have hquiet : ∀ attempt, .invalidated attempt ∉ middle ++ rest := by
    intro attempt hmem
    apply hnone attempt
    rcases List.mem_append.mp hmem with hmem | hmem <;> simp [hmem]
  obtain ⟨e, hfailed⟩ := hsplit.failed_of_started_again hquiet
  rw [List.any_eq_true]
  refine ⟨.finished load (.error e), ?_, by simp [Event.isFailureOf]⟩
  rcases List.mem_append.mp hfailed with hmem | hmem <;> simp [hmem]

/-- Callers that are given rules with no invalidation between their entries are given the same. -/
theorem agreed {first second : Nat} {found again : Phase} {entry other : Entry}
    {set later : Loaded} (hrun : Reaches mode history s)
    (hhistory : history = before ++ .entered first found entry :: middle ++
      .entered second again other :: after)
    (hnone : ∀ attempt, .invalidated attempt ∉ middle)
    (hfirst : Returns history first (.ok set)) (hsecond : Returns history second (.ok later)) :
    set = later := by
  have hentered : .entered first found entry ∈ history := by simp [hhistory]
  have hagain : .entered second again other ∈ history := by simp [hhistory]
  have hset := hrun.finished_of_returns hentered hfirst
  have hlater := hrun.finished_of_returns hagain hsecond
  obtain ⟨between, next, hbetween, hstep⟩ := (hhistory ▸ hrun).split
  have hnext : Reaches mode (before ++ .entered first found entry ::
      (middle ++ [.entered second again other])) next := by
    simpa using hbetween.step hstep
  have hquiet : ∀ attempt, .invalidated attempt ∉ middle ++ [.entered second again other] := by
    simpa using hnone
  rcases hnext.settled_since hquiet with ⟨_, hentry⟩ | ⟨e, hfailed⟩
  · -- the second call is given the load of the first
    have hother : other.load = next.cache.attempt := by
      obtain ⟨_, _, rfl, rfl⟩ := hstep.entered_eq
      exact hbetween.sound.load_enter
    rw [hother, ← hentry] at hlater
    simpa using hrun.finished_unique hset hlater
  · have hfailed' : .finished entry.load (.error e) ∈ history := by
      simpa [hhistory] using List.mem_append_left after hfailed
    cases hrun.finished_unique hset hfailed'

/-- Callers that wait for the same load are told the same outcome. -/
theorem shared {load first second : Nat} {found again : Phase} {outcome other : Outcome}
    (hrun : Reaches mode history s) (hfirst : .entered first found (.waiting load) ∈ history)
    (hsecond : .entered second again (.waiting load) ∈ history)
    (houtcome : .returned first outcome ∈ history) (hother : .returned second other ∈ history) :
    outcome = other :=
  hrun.finished_unique (hrun.finished_of_returns hfirst (Or.inr houtcome))
    (hrun.finished_of_returns hsecond (Or.inr hother))

/-- A caller that waits for a finished load has returned or can do so. -/
theorem served {load call : Nat} {found : Phase} {outcome : Outcome}
    (hrun : Reaches mode history s) (hentered : .entered call found (.waiting load) ∈ history)
    (hfinished : .finished load outcome ∈ history) (hkept : .dropped call ∉ history) :
    .returned call outcome ∈ history ∨ ∃ t, Step s (.returned call outcome) t := by
  by_cases hreturned : ∃ other, .returned call other ∈ history
  · obtain ⟨other, hother⟩ := hreturned
    have hsame := hrun.finished_unique hfinished
      (hrun.finished_of_returns hentered (Or.inr hother))
    rw [hsame]
    exact Or.inl hother
  · have hwaiting := hrun.waiting_of_entered hentered hkept
      (fun other hother => hreturned ⟨other, hother⟩)
    have hdone := (hrun.finished_iff load outcome).mp hfinished
    exact Or.inr ⟨_, .leave hwaiting ((s.cache.returnFrom_eq_some_iff load outcome).mpr hdone)⟩

/-- A caller that returns from a load the phase does not speak of changes nothing. -/
theorem late {load call : Nat} {found : Phase} {outcome : Outcome}
    (hrun : Reaches mode history s) (hentered : .entered call found (.waiting load) ∈ history)
    (hstep : Step s (.returned call outcome) t) (hphase : s.cache.phase ≠ .loading load) :
    t.cache = s.cache := by
  cases hstep with
  | @leave _ joined _ hwaiting houtcome =>
      obtain ⟨again, hagain⟩ := hrun.entered_of_waiting hwaiting
      obtain ⟨_, hsame⟩ := hrun.entered_unique hentered hagain
      cases hsame
      rcases s.cache.returnFrom_cases load with hsame | ⟨current, _, hloading, hattempt, _, _⟩
      · exact hsame
      · -- only the load that the cache holds is published
        have hcurrent := (hrun.sound.loading current hloading).1
        rw [hcurrent, hattempt] at hloading
        exact absurd hloading hphase

/-- In every run loads are shared, and their callers agree. -/
theorem singleFlight (hrun : Reaches mode history s) : SingleFlight history s where
  reader := by
    rintro before after load rfl
    exact hrun.began_of_started
  reads := hrun.reads_once
  loads := by
    rintro before stretch after rfl hnone
    exact hrun.started_le hnone
  agreed := by
    intro before middle after first second found again entry other set later hhistory
    exact hrun.agreed hhistory
  shared := hrun.shared
  served := hrun.served
  late := hrun.late

/-- Three calls cause two reads, and the two calls that start after the
invalidation agree. -/
theorem singleFlight_of_overtakenRun :
    ∃ s, Reaches .exact overtakenRun s ∧ s.cache.reads = 2 ∧
      ∀ set later, Returns overtakenRun 1 (.ok set) → Returns overtakenRun 2 (.ok later) →
        set = later := by
  obtain ⟨s, hrun⟩ := reaches_overtakenRun
  have hflight := singleFlight hrun
  have hsplit : overtakenRun =
      overtakenRun.take 6 ++ .entered 1 .unloaded (.waiting 3) :: [] ++
        .entered 2 (.loading 3) (.waiting 3) :: overtakenRun.drop 8 := rfl
  refine ⟨s, hrun, hflight.reads.2, ?_⟩
  intro set later hfirst hsecond
  exact hflight.agreed hsplit (by simp) hfirst hsecond

end Reaches

end RouteGuard.Rules.Run
