import RouteGuard.Proofs.Rules.Progress

/-! # Runs of the rule cache

A run interleaves calls, loads, invalidations and changes of the store in any
order. A call enters in one step; unless it finds a table it then waits, and
either returns in one step or is dropped. A load moves on by itself, whether or
not anybody waits for it, which only admits more runs. To reload is to
invalidate and then to call. Attempts are counted without bound.
-/

namespace RouteGuard.Rules.Run

open Directory (Authority Failure)
open Glob (CaseMode)

/-- The cache among its callers, and what the store would say to a read. -/
structure State where
  cache : Cache
  answer : Except Failure (List Authority)
  /-- the calls that wait, each with its load -/
  waiting : List (Nat × Nat) := []
  /-- how many calls have begun; the next one takes this number -/
  calls : Nat := 0

/-- What is seen of a step. -/
inductive Event
  /-- a call begins, finds a phase, and is given a table or a load to wait for -/
  | entered (call : Nat) (found : Phase) (entry : Entry)
  /-- a load begins its read of the store -/
  | began (load : Nat)
  /-- the read of a load takes effect -/
  | answered (load : Nat) (answer : Except Failure (List Authority))
  | finished (load : Nat) (outcome : Outcome)
  /-- a call that waited returns -/
  | returned (call : Nat) (outcome : Outcome)
  | dropped (call : Nat)
  | invalidated (attempt : Nat)
  | changed (answer : Except Failure (List Authority))

/-- The state after a call has entered. -/
def State.entered (s : State) : State :=
  { s with
    cache := s.cache.enter.1
    calls := s.calls + 1
    waiting :=
      match s.cache.enter.2 with
      | .ready _ => s.waiting
      | .waiting load => (s.calls, load) :: s.waiting }

/-- One step of a run. A read is answered with what the store would say at that
moment, which may be a failure. -/
inductive Step (s : State) : Event → State → Prop
  | enter : Step s (.entered s.calls s.cache.phase s.cache.enter.2) s.entered
  | beginRead {load : Nat} (hfresh : s.cache.progress? load = some .fresh) :
      Step s (.began load) { s with cache := (s.cache.beginRead load).value }
  | takeAnswer {load : Nat} (hreading : s.cache.progress? load = some .reading) :
      Step s (.answered load s.answer) { s with cache := s.cache.takeAnswer load s.answer }
  | finishLoad {load : Nat} {answer : Except Failure (List Authority)}
      (hfetched : s.cache.progress? load = some (.fetched answer)) :
      Step s (.finished load (Cache.outcomeOf s.cache.mode load answer))
        { s with cache := (s.cache.finishLoad load).value }
  | leave {call load : Nat} {outcome : Outcome} (hwaiting : (call, load) ∈ s.waiting)
      (houtcome : (s.cache.returnFrom load).2 = some outcome) :
      Step s (.returned call outcome)
        { s with
          cache := (s.cache.returnFrom load).1
          waiting := s.waiting.erase (call, load) }
  | drop {call load : Nat} (hwaiting : (call, load) ∈ s.waiting) :
      Step s (.dropped call) { s with waiting := s.waiting.erase (call, load) }
  | invalidate :
      Step s (.invalidated (s.cache.attempt + 1)) { s with cache := s.cache.invalidate.value }
  | change (answer : Except Failure (List Authority)) :
      Step s (.changed answer) { s with answer }

/-- `history` lists the events of a run from an empty cache to a state. -/
inductive Reaches (mode : CaseMode) : List Event → State → Prop
  | start (answer : Except Failure (List Authority)) :
      Reaches mode [] { cache := { mode }, answer }
  | step {history : List Event} {s t : State} {e : Event} (hrun : Reaches mode history s)
      (hstep : Step s e t) : Reaches mode (history ++ [e]) t

/-- A call comes back with an outcome, at once or after it has waited. -/
def Returns (history : List Event) (call : Nat) (outcome : Outcome) : Prop :=
  (∃ found set, .entered call found (.ready set) ∈ history ∧ outcome = .ok set) ∨
    .returned call outcome ∈ history

namespace Event

/-- The load that a call starts, having found nothing loaded or loading. -/
def start? : Event → Option Nat
  | entered _ .unloaded (.waiting load) => some load
  | _ => none

def began? : Event → Option Nat
  | began load => some load
  | _ => none

def isInvalidated : Event → Bool
  | invalidated _ => true
  | _ => false

def isOf (load : Nat) : Event → Bool
  | began moved => moved == load
  | answered moved _ => moved == load
  | finished moved _ => moved == load
  | _ => false

/-- How far an event shows a load to have come. -/
def progress? : Event → Option (Nat × Progress)
  | entered _ .unloaded (.waiting load) => some (load, .fresh)
  | began load => some (load, .reading)
  | answered load answer => some (load, .fetched answer)
  | finished load outcome => some (load, .done outcome)
  | _ => none

end Event

namespace Reaches

variable {mode : CaseMode} {history before after : List Event} {s t : State} {e : Event}

/-- Every event of a run is a step from the state that the events before it
lead to. -/
theorem split (hrun : Reaches mode (before ++ e :: after) t) :
    ∃ s next, Reaches mode before s ∧ Step s e next := by
  generalize hhistory : before ++ e :: after = history at hrun
  induction hrun generalizing after with
  | start => simp at hhistory
  | @step earlier s next last hrun hstep ih =>
      rcases List.eq_nil_or_concat after with rfl | ⟨init, final, rfl⟩
      · obtain ⟨rfl, hlast⟩ := List.append_inj' hhistory rfl
        cases hlast
        exact ⟨s, next, hrun, hstep⟩
      · have hsame : (before ++ e :: init) ++ [final] = earlier ++ [last] := by
          simpa using hhistory
        exact ih (List.append_inj' hsame rfl).1

/-- By induction the cache is sound along every run. -/
theorem sound (hrun : Reaches mode history s) : s.cache.Sound := by
  induction hrun with
  | start => exact .new mode
  | step hrun hstep ih =>
      cases hstep with
      | enter => exact ih.enter
      | beginRead hfresh => exact ih.beginRead hfresh
      | takeAnswer hreading => exact ih.takeAnswer _ hreading
      | finishLoad hfetched => exact ih.finishLoad hfetched
      | leave => exact ih.returnFrom
      | drop => exact ih
      | invalidate => exact ih.invalidate
      | change => exact ih

end Reaches

/-- The rules are revoked while a load reads them. The call that waits for it
returns after two others have begun to wait for the next load. -/
def overtakenRun : List Event :=
  let early : List Authority := [⟨"ROLE_ADMIN", "/admin/**"⟩]
  let stale := Cache.outcomeOf .exact 1 (.ok early)
  [.entered 0 .unloaded (.waiting 1), .began 1, .answered 1 (.ok early), .finished 1 stale,
    .changed (.ok []), .invalidated 2, .entered 1 .unloaded (.waiting 3),
    .entered 2 (.loading 3) (.waiting 3), .returned 0 stale, .began 3, .answered 3 (.ok []),
    .finished 3 (.ok ⟨3, {}⟩), .returned 1 (.ok ⟨3, {}⟩), .returned 2 (.ok ⟨3, {}⟩)]

theorem reaches_overtakenRun : ∃ s, Reaches .exact overtakenRun s := by
  let early : List Authority := [⟨"ROLE_ADMIN", "/admin/**"⟩]
  let stale := Cache.outcomeOf .exact 1 (.ok early)
  have houtcome : Cache.outcomeOf .exact 3 (.ok []) = .ok ⟨3, {}⟩ := by
    simp [Cache.outcomeOf, Table.build, Table.ofDraft, Draft.ofRecords, Draft.collisions, pure,
      Except.pure, Except.map]
  have hstart : Reaches .exact [] ⟨{ mode := .exact }, .ok early, [], 0⟩ := .start (.ok early)
  have hbegan : Reaches .exact _
      ⟨⟨.exact, 1, .loading 1, [(1, .reading)], 1⟩, .ok early, [(0, 1)], 1⟩ :=
    (hstart.step .enter).step (@Step.beginRead _ 1 rfl)
  have hfinished : Reaches .exact _
      ⟨⟨.exact, 1, .loading 1, [(1, .done stale)], 1⟩, .ok early, [(0, 1)], 1⟩ :=
    (hbegan.step (@Step.takeAnswer _ 1 rfl)).step (@Step.finishLoad _ 1 _ rfl)
  have hinvalidated : Reaches .exact _
      ⟨⟨.exact, 2, .unloaded, [(1, .done stale)], 1⟩, .ok [], [(0, 1)], 1⟩ :=
    (hfinished.step (.change (.ok []))).step .invalidate
  have hwaiting : Reaches .exact _
      ⟨⟨.exact, 3, .loading 3, [(3, .fresh), (1, .done stale)], 1⟩, .ok [],
        [(2, 3), (1, 3), (0, 1)], 3⟩ :=
    (hinvalidated.step .enter).step .enter
  have hlate : Reaches .exact _
      ⟨⟨.exact, 3, .loading 3, [(3, .fresh), (1, .done stale)], 1⟩, .ok [],
        [(2, 3), (1, 3)], 3⟩ :=
    hwaiting.step (@Step.leave _ 0 1 stale (by simp) rfl)
  have hfetched : Reaches .exact _
      ⟨⟨.exact, 3, .loading 3, [(3, .fetched (.ok [])), (1, .done stale)], 2⟩, .ok [],
        [(2, 3), (1, 3)], 3⟩ :=
    (hlate.step (@Step.beginRead _ 3 rfl)).step (@Step.takeAnswer _ 3 rfl)
  have hagain := hfetched.step (@Step.finishLoad _ 3 _ rfl)
  rw [Cache.finishLoad_of_fetched _ 3 rfl, houtcome] at hagain
  have hreturned := hagain.step (@Step.leave _ 1 3 _ (by simp) rfl)
  exact ⟨_, hreturned.step (@Step.leave _ 2 3 _ (by simp) rfl)⟩

end RouteGuard.Rules.Run
