import Mathlib.Data.List.Induction
import RouteGuard.Proofs.Http.AdminWrites
import RouteGuard.Proofs.Rules.Freshness

/-! # Rules and records under concurrent writes

A service at work: administrative writes, loads and calls of the rule cache,
and reloads, interleaved in any order. A write takes two steps, for it changes
the store before it discards the rules. Between the two the cache may come to
hold rules that are out of date. What it holds while no write stands between
them is made of the records that are stored.
-/

namespace RouteGuard.Http.Concurrent

open Directory (Authority Failure Store)
open Glob (CaseMode)
open Rules (Cache Entry Loaded Outcome Phase Progress Table)

/-- The parts of the service that change, among its callers and writers. A read
is told `rules.answer`. -/
structure State where
  store : Store
  rules : Rules.Run.State
  /-- the writes that have changed the store and not yet discarded the rules -/
  writing : List Nat := []
  /-- how many writes have been made; the next one takes this number -/
  writes : Nat := 0

inductive Event
  /-- what is seen of calls, loads and reloads -/
  | rules (e : Rules.Run.Event)
  /-- a write changes the store, which then lists `answer` -/
  | stored (number : Nat) (w : AdminWrite) (answer : Except Failure (List Authority))
  /-- a write discards the rules and is answered as made -/
  | discarded (number attempt : Nat)
  /-- the store stops answering -/
  | failed (failure : Failure)
  /-- the store answers again -/
  | recovered (answer : Except Failure (List Authority))

/-- What the rule cache and its callers see of an event. -/
def Event.seen : Event → Rules.Run.Event
  | rules e => e
  | stored _ _ answer => .changed answer
  | discarded _ attempt => .invalidated attempt
  | failed failure => .changed (.error failure)
  | recovered answer => .changed answer

variable (settings : Settings)

/-- A service that has just been started. -/
def State.new (store : Store) : State :=
  { store, rules := { cache := { mode := settings.auth.enforcement.mode }, answer := store.list } }

/-- The service as its handlers see it. -/
def State.service (s : State) : Service :=
  { settings, guard := ⟨settings.auth.enforcement, s.store, s.rules.cache⟩ }

/-- One step of the service. Every step of the cache and its callers may be
taken at any time; of the writes, only those are steps that the service makes. -/
inductive Step (s : State) : Event → State → Prop
  | rules {e : Rules.Run.Event} {next : Rules.Run.State} (hstep : Rules.Run.Step s.rules e next)
      (hanswer : next.answer = s.rules.answer) : Step s (.rules e) { s with rules := next }
  | store {w : AdminWrite} {store : Store} (hstores : (s.service settings).Stores w store) :
      Step s (.stored s.writes w store.list)
        { s with
          store
          rules := { s.rules with answer := store.list }
          writing := s.writes :: s.writing
          writes := s.writes + 1 }
  | discard {number : Nat} (hwriting : number ∈ s.writing) :
      Step s (.discarded number (s.rules.cache.attempt + 1))
        { s with
          rules := { s.rules with cache := s.rules.cache.invalidate.value }
          writing := s.writing.erase number }
  | fail (failure : Failure) :
      Step s (.failed failure) { s with rules := { s.rules with answer := .error failure } }
  | recover :
      Step s (.recovered s.store.list) { s with rules := { s.rules with answer := s.store.list } }

/-- A run from one state to another, with its events. -/
inductive Steps (start : State) : List Event → State → Prop
  | refl : Steps start [] start
  | step {history : List Event} {s t : State} {e : Event} (hrun : Steps start history s)
      (hstep : Step settings s e t) : Steps start (history ++ [e]) t

/-- The table is made of the records that are stored. -/
def MadeOf (s : State) (table : Table) : Prop :=
  ∃ records, s.store.list = .ok records ∧
    Table.build settings.auth.enforcement.mode records = .ok table

/-- The stored records show a write that was made before `later`, unless a write
in `later` has undone it. -/
def Shows (s : State) (w : AdminWrite) (later : List Event) : Prop :=
  ∃ records, s.store.list = .ok records ∧
    (w.ShownIn records ∨ ∃ number u answer, .stored number u answer ∈ later ∧ u.Undoes w)

/-- A call comes back with an outcome. -/
def Returns (history : List Event) (call : Nat) (outcome : Outcome) : Prop :=
  Rules.Run.Returns (history.map Event.seen) call outcome

/-- What holds between the rules and the records in a run. -/
structure Coherent (store : Store) (history : List Event) (s : State) : Prop where
  /-- while no write is half made, the loaded rules are made of what is stored -/
  loaded : ∀ {set : Loaded}, s.writing = [] → s.rules.cache.phase = .loaded set →
    MadeOf settings s set.table
  /-- a write that discards the rules has changed the store before -/
  written : ∀ {before after : List Event} {number attempt : Nat},
    history = before ++ .discarded number attempt :: after →
    ∃ w answer, .stored number w answer ∈ before
  /-- a call that enters after a write was answered is given rules that are made
  of what is stored at some later moment, and the write shows there -/
  returned : ∀ {before during after : List Event} {number attempt call : Nat} {w : AdminWrite}
    {answer : Except Failure (List Authority)} {found : Phase} {entry : Entry} {set : Loaded},
    history = before ++ .stored number w answer :: during ++ .discarded number attempt :: after →
    .rules (.entered call found entry) ∈ after → Returns history call (.ok set) →
    ∃ between rest moment, after = between ++ rest ∧
      Steps settings (.new settings store)
        (before ++ .stored number w answer :: during ++ .discarded number attempt :: between)
        moment ∧
      Steps settings moment rest s ∧ MadeOf settings moment set.table ∧
      Shows moment w (during ++ between)

variable {settings} {start s middle t : State} {history before after : List Event} {e : Event}

theorem Steps.concat_inv (hrun : Steps settings start (before ++ [e]) t) :
    ∃ s, Steps settings start before s ∧ Step settings s e t := by
  generalize hhistory : before ++ [e] = history at hrun
  cases hrun with
  | refl => simp at hhistory
  | step hrun hstep =>
      obtain ⟨rfl, hlast⟩ := List.append_inj' hhistory rfl
      cases hlast
      exact ⟨_, hrun, hstep⟩

/-! ### The run of the cache within a run of the service -/

/-- What the cache sees of a step is a step of the cache. -/
theorem Step.seen (hstep : Step settings s e t) : Rules.Run.Step s.rules e.seen t.rules := by
  cases hstep with
  | rules hstep => exact hstep
  | store => exact .change _
  | discard => exact .invalidate
  | fail failure => exact .change (.error failure)
  | recover => exact .change s.store.list

/-- The two steps of a write with nothing in between are what its handler does. -/
theorem Step.accepted {number again attempt : Nat} {w : AdminWrite}
    {answer : Except Failure (List Authority)}
    (hstore : Step settings s (.stored number w answer) middle)
    (hdiscard : Step settings middle (.discarded again attempt) t) :
    w.Accepted (s.service settings) (t.service settings) := by
  cases hstore with
  | store hstores =>
      cases hdiscard
      exact hstores.accepted

namespace Steps

theorem append_iff : Steps settings start (before ++ after) t ↔
    ∃ s, Steps settings start before s ∧ Steps settings s after t := by
  constructor
  · intro hrun
    induction after using List.reverseRecOn generalizing t with
    | nil => exact ⟨t, by simpa using hrun, .refl⟩
    | append_singleton after e ih =>
        rw [← List.append_assoc] at hrun
        obtain ⟨s, hbefore, hstep⟩ := hrun.concat_inv
        obtain ⟨first, hfirst, hrest⟩ := ih hbefore
        exact ⟨first, hfirst, hrest.step hstep⟩
  · rintro ⟨s, hbefore, hafter⟩
    induction hafter with
    | refl => simpa using hbefore
    | step _ hstep ih => simpa using ih.step hstep

theorem split (hrun : Steps settings start (before ++ e :: after) t) :
    ∃ s next, Steps settings start before s ∧ Step settings s e next ∧
      Steps settings next after t := by
  rw [List.append_cons] at hrun
  obtain ⟨next, hbefore, hafter⟩ := append_iff.mp hrun
  obtain ⟨s, hearlier, hstep⟩ := hbefore.concat_inv
  exact ⟨s, next, hearlier, hstep, hafter⟩

/-- What the cache sees of a run is a run of the cache. -/
theorem seen {store : Store} (hrun : Steps settings (.new settings store) history s) :
    Rules.Run.Reaches settings.auth.enforcement.mode (history.map Event.seen) s.rules := by
  induction hrun with
  | refl => exact .start _
  | step hrun hstep ih =>
      rw [List.map_append]
      exact ih.step hstep.seen

end Steps

/-! ### What a load has read is what is stored -/

/-- What a load has read so far, if anything, is what is stored. -/
def UpToDate (settings : Settings) (s : State) : Progress → Prop
  | .fetched (.ok records) => s.store.list = .ok records
  | .done (.ok set) => MadeOf settings s set.table
  | _ => True

/-- Reads are told what is stored, unless they fail. While no write is half made,
the load of the last attempt has read what is stored: a load that read before a
write was given up when that write discarded the rules. -/
structure Sound (settings : Settings) (s : State) : Prop where
  answer : ∀ records, s.rules.answer = .ok records → s.store.list = .ok records
  current : s.writing = [] → ∀ p, s.rules.cache.progress? s.rules.cache.attempt = some p →
    UpToDate settings s p

namespace Sound

variable {next : Rules.Run.State} {event : Rules.Run.Event}

theorem new (store : Store) : Sound settings (.new settings store) where
  answer := fun _ h => h
  current := by
    intro _ p hprogress
    simp [State.new, Cache.progress?] at hprogress

/-- A step of the cache or of a caller. A load takes up what a read is told,
and a new attempt has read nothing. -/
theorem current_of_rules (hsound : Sound settings s) (hcache : s.rules.cache.Sound)
    (hmode : s.rules.cache.mode = settings.auth.enforcement.mode)
    (hstep : Rules.Run.Step s.rules event next) (hquiet : s.writing = []) (p : Progress)
    (hprogress : next.cache.progress? next.cache.attempt = some p) :
    UpToDate settings { s with rules := next } p := by
  have hcurrent := hsound.current hquiet
  cases hstep with
  | enter =>
      cases hphase : s.rules.cache.phase with
      | unloaded =>
          simp only [Rules.Run.State.entered, Cache.enter_of_unloaded _ hphase] at hprogress
          obtain rfl : Progress.fresh = p := by simpa [Cache.progress?] using hprogress
          trivial
      | loading number =>
          simp only [Rules.Run.State.entered, Cache.enter_of_loading _ _ hphase] at hprogress
          exact hcurrent p hprogress
      | loaded set =>
          simp only [Rules.Run.State.entered, Cache.enter_of_loaded _ hphase] at hprogress
          exact hcurrent p hprogress
  | @beginRead load hfresh =>
      rw [Cache.beginRead_of_fresh _ _ hfresh] at hprogress
      change (s.rules.cache.setProgress load .reading).progress? s.rules.cache.attempt = _
        at hprogress
      rw [Cache.progress?_setProgress, hfresh] at hprogress
      split at hprogress
      · cases hprogress
        trivial
      · exact hcurrent p hprogress
  | @takeAnswer load hreading =>
      rw [Cache.takeAnswer_of_reading _ _ _ hreading, Cache.progress?_setProgress,
        hreading] at hprogress
      split at hprogress
      · cases hprogress
        cases hanswer : s.rules.answer with
        | error failure => trivial
        | ok records => exact hsound.answer records hanswer
      · exact hcurrent p hprogress
  | @finishLoad load answer hfetched =>
      rw [Cache.finishLoad_of_fetched _ _ hfetched, Cache.progress?_setProgress,
        hfetched] at hprogress
      split at hprogress
      next hattempt =>
        cases hprogress
        have hread := hcurrent (.fetched answer) (hattempt ▸ hfetched)
        cases houtcome : Cache.outcomeOf s.rules.cache.mode load answer with
        | error e => trivial
        | ok set =>
            obtain ⟨records, rfl, _, hbuild⟩ := (Cache.outcomeOf_eq_ok_iff _ _ _ _).mp houtcome
            exact ⟨records, hread, hmode ▸ hbuild⟩
      · exact hcurrent p hprogress
  | @leave call load outcome =>
      refine hcurrent p ?_
      rcases s.rules.cache.returnFrom_cases load with hsame | ⟨_, _, _, _, _, hnext⟩
      · simpa only [hsame] using hprogress
      · simpa only [hnext, Cache.progress?] using hprogress
  | drop => exact hcurrent p hprogress
  | invalidate =>
      -- no load has the number of the new attempt
      rw [Cache.value_invalidate] at hprogress
      have hnone := hcache.not_started (Nat.lt_succ_self _)
      cases hprogress.symm.trans hnone
  | change => exact hcurrent p hprogress

/-- Every step keeps the invariant. -/
theorem step (hsound : Sound settings s) (hcache : s.rules.cache.Sound)
    (hmode : s.rules.cache.mode = settings.auth.enforcement.mode) (hstep : Step settings s e t) :
    Sound settings t := by
  cases hstep with
  | rules hstep hanswer =>
      exact ⟨fun records h => hsound.answer records (hanswer ▸ h),
        hsound.current_of_rules hcache hmode hstep⟩
  | store =>
      -- from here until it discards the rules the write is half made
      exact ⟨fun _ h => h, nofun⟩
  | discard =>
      refine ⟨hsound.answer, fun _ p hprogress => ?_⟩
      have hnone := hcache.not_started (Nat.lt_succ_self _)
      cases hprogress.symm.trans hnone
  | fail failure => exact ⟨nofun, hsound.current⟩
  | recover => exact ⟨fun _ h => h, hsound.current⟩

end Sound

namespace Steps

variable {store : Store}

/-- By induction it holds along every run. -/
theorem sound (hrun : Steps settings (.new settings store) history s) : Sound settings s := by
  induction hrun with
  | refl => exact .new store
  | step hrun hstep ih => exact ih.step hrun.seen.sound hrun.seen.mode_eq hstep

/-- Rules that are loaded while no write is half made are made of the stored records. -/
theorem madeOf_loaded (hrun : Steps settings (.new settings store) history s) {set : Loaded}
    (hquiet : s.writing = []) (hloaded : s.rules.cache.phase = .loaded set) :
    MadeOf settings s set.table := by
  obtain ⟨hload, hdone⟩ := hrun.seen.sound.loaded set hloaded
  exact hrun.sound.current hquiet (.done (.ok set)) (hload ▸ hdone)

/-- A write that is half made was stored. -/
theorem stored_of_writing (hrun : Steps settings (.new settings store) history s) {number : Nat}
    (hwriting : number ∈ s.writing) : ∃ w answer, .stored number w answer ∈ history := by
  induction hrun with
  | refl => simp [State.new] at hwriting
  | @step history s t e hrun hstep ih =>
      have hearlier : number ∈ s.writing →
          ∃ w answer, .stored number w answer ∈ history ++ [e] := by
        intro hmem
        obtain ⟨w, answer, hstored⟩ := ih hmem
        exact ⟨w, answer, List.mem_append_left _ hstored⟩
      cases hstep with
      | @store w store hstores =>
          rcases List.mem_cons.mp hwriting with rfl | hmem
          · exact ⟨w, store.list, List.mem_append_right _ (List.mem_singleton.mpr rfl)⟩
          · exact hearlier hmem
      | discard => exact hearlier (List.mem_of_mem_erase hwriting)
      | _ => exact hearlier hwriting

/-- A write shows as long as it is not undone. -/
theorem shows {w : AdminWrite} {records : List Authority} (hrun : Steps settings s history t)
    (hlist : s.store.list = .ok records) (hshown : w.ShownIn records) : Shows t w history := by
  induction hrun with
  | refl => exact ⟨records, hlist, Or.inl hshown⟩
  | @step history middle _ e hrun hstep ih =>
      obtain ⟨now, hnow, hshows⟩ := ih
      have hundone : (∃ number u answer, .stored number u answer ∈ history ∧ u.Undoes w) →
          ∃ number u answer, .stored number u answer ∈ history ++ [e] ∧ u.Undoes w := by
        rintro ⟨number, later, answer, hlater, hundoes⟩
        exact ⟨number, later, answer, List.mem_append_left _ hlater, hundoes⟩
      cases hstep with
      | @store later store hstores =>
          refine ⟨later.applied now, hstores.list_eq hnow, ?_⟩
          rcases hshows with hshown | hbefore
          · by_cases hundoes : later.Undoes w
            · exact Or.inr ⟨middle.writes, later, store.list, by simp, hundoes⟩
            · exact Or.inl (hshown.applied hundoes)
          · exact Or.inr (hundone hbefore)
      | _ => exact ⟨now, hnow, hshows.imp_right hundone⟩

/-- The read that the rules of a late call are made of takes effect after the
write was answered. -/
theorem madeOf_returned {number attempt call : Nat} {found : Phase} {entry : Entry} {set : Loaded}
    (hrun : Steps settings (.new settings store) (before ++ .discarded number attempt :: after) s)
    (hentered : .rules (.entered call found entry) ∈ after)
    (hreturns : Returns (before ++ .discarded number attempt :: after) call (.ok set)) :
    ∃ between rest moment, after = between ++ rest ∧
      Steps settings (.new settings store) (before ++ .discarded number attempt :: between) moment ∧
      Steps settings moment rest s ∧ MadeOf settings moment set.table := by
  have hseen := hrun.seen
  rw [List.map_append, List.map_cons] at hseen
  obtain ⟨records, hread, hbuild, _⟩ := hseen.returned_fresh (List.mem_map_of_mem hentered)
    (by simpa [Returns, Event.seen] using hreturns)
  -- the moment is just before the read is answered
  obtain ⟨event, hevent, hsees⟩ := List.mem_map.mp hread
  obtain ⟨between, rest, rfl⟩ := List.append_of_mem hevent
  rw [← List.cons_append, ← List.append_assoc] at hrun
  obtain ⟨moment, next, hbefore, hstep, hafter⟩ := hrun.split
  refine ⟨between, event :: rest, moment, rfl, hbefore,
    append_iff.mpr ⟨next, Steps.refl.step hstep, hafter⟩, records, ?_, hbuild⟩
  have hanswered := hstep.seen
  rw [hsees] at hanswered
  exact hbefore.sound.answer records hanswered.answered_eq.symm

/-- The records show a stored write until another one undoes it. -/
theorem shows_stored {number : Nat} {w : AdminWrite} {answer : Except Failure (List Authority)}
    (hrun : Steps settings start (before ++ .stored number w answer :: after) s) :
    Shows s w after := by
  obtain ⟨first, next, _, hstep, hafter⟩ := hrun.split
  cases hstep with
  | store hstores =>
      obtain ⟨records, hlist⟩ := hstores.exists_list
      exact hafter.shows (hstores.list_eq hlist) (w.shownIn_applied records)

/-- In every run the loaded rules agree with the stored records whenever no
write is half made, and no call that enters after a write was answered is given
rules from before it. -/
theorem coherent (hrun : Steps settings (.new settings store) history s) :
    Coherent settings store history s where
  loaded := hrun.madeOf_loaded
  written := by
    rintro before after number attempt rfl
    obtain ⟨first, next, hbefore, hstep, _⟩ := hrun.split
    cases hstep with
    | discard hwriting => exact hbefore.stored_of_writing hwriting
  returned := by
    rintro before during after number attempt call w answer found entry set rfl hentered hreturns
    obtain ⟨between, rest, moment, hafter, hbefore, hrest, hmade⟩ :=
      hrun.madeOf_returned hentered hreturns
    refine ⟨between, rest, moment, hafter, hbefore, hrest, hmade, ?_⟩
    rw [List.append_assoc] at hbefore
    obtain ⟨records, hlist, hshows⟩ := hbefore.shows_stored
    refine ⟨records, hlist, hshows.imp_right ?_⟩
    rintro ⟨later, u, answer, hmem, hundoes⟩
    exact ⟨later, u, answer, by simpa using hmem, hundoes⟩

end Steps

/-! ### A run -/

/-- An authority is deleted while a load has read it. The call that waits for
the load publishes its rules before the write discards them. -/
def halfMadeRun : List Event :=
  let early : List Authority := [⟨"ROLE_ADMIN", "/admin/**"⟩]
  let stale := Cache.outcomeOf .exact 1 (.ok early)
  [.rules (.entered 0 .unloaded (.waiting 1)), .rules (.began 1),
    .rules (.answered 1 (.ok early)), .rules (.finished 1 stale),
    .stored 0 (.delete "ROLE_ADMIN") (.ok []), .rules (.returned 0 stale), .discarded 0 2,
    .rules (.entered 1 .unloaded (.waiting 3)), .rules (.began 3), .rules (.answered 3 (.ok [])),
    .rules (.finished 3 (.ok ⟨3, {}⟩)), .rules (.returned 1 (.ok ⟨3, {}⟩))]

def adminOnly : Store := .memory { authorities := [⟨"ROLE_ADMIN", "/admin/**"⟩] }

theorem steps_halfMadeRun : ∃ s, Steps {} (.new {} adminOnly) halfMadeRun s ∧ s.writing = [] ∧
    s.rules.cache.phase = .loaded ⟨3, {}⟩ := by
  let early : List Authority := [⟨"ROLE_ADMIN", "/admin/**"⟩]
  let stale := Cache.outcomeOf .exact 1 (.ok early)
  have houtcome : Cache.outcomeOf .exact 3 (.ok []) = .ok ⟨3, {}⟩ := by
    simp [Cache.outcomeOf, Table.build, Table.ofDraft, Rules.Draft.ofRecords,
      Rules.Draft.collisions, pure, Except.pure, Except.map]
  have hstart : Steps {} (.new {} adminOnly) []
      ⟨adminOnly, ⟨{ mode := .exact }, .ok early, [], 0⟩, [], 0⟩ := .refl
  have hread : Steps {} (.new {} adminOnly) _
      ⟨adminOnly, ⟨⟨.exact, 1, .loading 1, [(1, .fetched (.ok early))], 1⟩, .ok early, [(0, 1)], 1⟩,
        [], 0⟩ :=
    ((hstart.step (.rules .enter rfl)).step (.rules (@Rules.Run.Step.beginRead _ 1 rfl) rfl)).step
      (.rules (@Rules.Run.Step.takeAnswer _ 1 rfl) rfl)
  have hstored : Steps {} (.new {} adminOnly) _
      ⟨.memory {}, ⟨⟨.exact, 1, .loading 1, [(1, .done stale)], 1⟩, .ok [], [(0, 1)], 1⟩, [0], 1⟩ :=
    (hread.step (.rules (@Rules.Run.Step.finishLoad _ 1 _ rfl) rfl)).step
      (.store (@Service.Stores.delete _ "ROLE_ADMIN" _ rfl))
  have hpublished : Steps {} (.new {} adminOnly) _
      ⟨.memory {}, ⟨⟨.exact, 1, Cache.phaseOf stale, [(1, .done stale)], 1⟩, .ok [], [], 1⟩,
        [0], 1⟩ :=
    hstored.step (.rules (@Rules.Run.Step.leave _ 0 1 stale (by simp) rfl) rfl)
  have hdiscarded : Steps {} (.new {} adminOnly) _
      ⟨.memory {}, ⟨⟨.exact, 2, .unloaded, [(1, .done stale)], 1⟩, .ok [], [], 1⟩, [], 1⟩ :=
    hpublished.step (@Step.discard _ _ 0 (by simp))
  have hfetched : Steps {} (.new {} adminOnly) _
      ⟨.memory {}, ⟨⟨.exact, 3, .loading 3, [(3, .fetched (.ok [])), (1, .done stale)], 2⟩, .ok [],
        [(1, 3)], 2⟩, [], 1⟩ :=
    ((hdiscarded.step (.rules .enter rfl)).step
      (.rules (@Rules.Run.Step.beginRead _ 3 rfl) rfl)).step
      (.rules (@Rules.Run.Step.takeAnswer _ 3 rfl) rfl)
  have hfinished := hfetched.step (.rules (@Rules.Run.Step.finishLoad _ 3 _ rfl) rfl)
  rw [Cache.finishLoad_of_fetched _ 3 rfl, houtcome] at hfinished
  exact ⟨_, hfinished.step (.rules (@Rules.Run.Step.leave _ 1 3 _ (by simp) rfl) rfl), rfl, rfl⟩

/-- The rules that were published while the deletion was half made are gone when
it is answered, and the call that enters after that is given rules without the
deleted authority. -/
theorem coherent_of_halfMadeRun :
    ∃ s, Steps {} (.new {} adminOnly) halfMadeRun s ∧ MadeOf {} s {} ∧
      ∃ between rest moment, halfMadeRun.drop 7 = between ++ rest ∧
        Steps {} (.new {} adminOnly) (halfMadeRun.take 7 ++ between) moment ∧
        MadeOf {} moment {} := by
  obtain ⟨s, hrun, hquiet, hloaded⟩ := steps_halfMadeRun
  have hcoherent := Steps.coherent hrun
  have hsplit : halfMadeRun = halfMadeRun.take 4 ++ .stored 0 (.delete "ROLE_ADMIN") (.ok []) ::
      (halfMadeRun.drop 5).take 1 ++ .discarded 0 2 :: halfMadeRun.drop 7 := rfl
  have hentered : Event.rules (.entered 1 .unloaded (.waiting 3)) ∈ halfMadeRun.drop 7 := by
    simp [halfMadeRun]
  have hreturns : Returns halfMadeRun 1 (.ok ⟨3, {}⟩) :=
    Or.inr (by simp [halfMadeRun, Event.seen])
  obtain ⟨between, rest, moment, hafter, hbefore, _, hmade, _⟩ :=
    hcoherent.returned hsplit hentered hreturns
  refine ⟨s, hrun, hcoherent.loaded hquiet hloaded, between, rest, moment, hafter, ?_, hmade⟩
  simpa [halfMadeRun] using hbefore

end RouteGuard.Http.Concurrent
