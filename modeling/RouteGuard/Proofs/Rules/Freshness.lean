import RouteGuard.Proofs.Rules.History

/-! # Freshness of the rules

A call that starts after an invalidation is never given rules that were read
before it, and a load that an invalidation overtook is never published. Both
hold for every interleaving, because attempts number loads and invalidations in
one row.
-/

namespace RouteGuard.Rules.Run

open Directory (Authority Failure)
open Glob (CaseMode)

namespace Event

def isAnswerOf (load : Nat) : Event → Bool
  | answered read _ => read == load
  | _ => false

end Event

/-- The table is made of the records of one read, which is the only one of its
load and took effect during a part of the history. -/
def MadeDuring (mode : CaseMode) (history part : List Event) (set : Loaded) : Prop :=
  ∃ records, .answered set.load (.ok records) ∈ part ∧
    Table.build mode records = .ok set.table ∧
    history.countP (Event.isAnswerOf set.load) = 1

/-- What callers may rely on about the age of their rules. -/
structure Fresh (mode : CaseMode) (history : List Event) (s : State) : Prop where
  /-- rules given to a call are read after any invalidation before the call -/
  returned : ∀ {before after : List Event} {attempt call : Nat} {found : Phase} {entry : Entry}
    {set : Loaded}, history = before ++ .invalidated attempt :: after →
    .entered call found entry ∈ after → Returns history call (.ok set) →
    MadeDuring mode history after set
  /-- loaded rules come from a load that started after the last invalidation -/
  loaded : ∀ {set : Loaded}, s.cache.phase = .loaded set →
    ∃ before after call, history = before ++ .entered call .unloaded (.waiting set.load) :: after ∧
      .finished set.load (.ok set) ∈ after ∧ ∀ attempt, .invalidated attempt ∉ after
  /-- a load that started before an invalidation is neither loaded after it nor
  given to a call that starts after it -/
  overtaken : ∀ {before after : List Event} {attempt starter load : Nat},
    history = before ++ .invalidated attempt :: after →
    .entered starter .unloaded (.waiting load) ∈ before →
    (∀ set, s.cache.phase = .loaded set → set.load ≠ load) ∧
      ∀ call found entry, .entered call found entry ∈ after → entry.load ≠ load

namespace Reaches

variable {mode : CaseMode} {history before after : List Event} {s : State} {e mark : Event}

/-- What is seen of a load comes after any step that it had not started at. -/
theorem mem_after_of_isOf (hrun : Reaches mode (before ++ mark :: after) s) {load : Nat}
    (hnew : ∀ first next, Reaches mode before first → Step first mark next →
      load ∉ first.cache.numbers)
    (hmark : mark.isOf load = false) (hmem : e ∈ before ++ mark :: after)
    (hof : e.isOf load) : e ∈ after := by
  rcases List.mem_append.mp hmem with hbefore | hrest
  · obtain ⟨first, next, hfirst, hstep⟩ := hrun.split
    exact absurd (hfirst.mem_numbers_of_isOf hbefore hof) (hnew first next hfirst hstep)
  · rcases List.mem_cons.mp hrest with rfl | hafter
    · simp [hmark] at hof
    · exact hafter

/-- A load of a later attempt than an invalidation is seen only after it. -/
theorem mem_after_invalidated {attempt load : Nat}
    (hrun : Reaches mode (before ++ .invalidated attempt :: after) s) (hlt : attempt < load)
    (hmem : e ∈ before ++ .invalidated attempt :: after) (hof : e.isOf load) : e ∈ after := by
  apply hrun.mem_after_of_isOf ?_ rfl hmem hof
  intro first next hfirst hstep hstarted
  have hle := hfirst.sound.numbers_le load hstarted
  have hattempt := hstep.invalidated_eq
  omega

/-- A load is seen to move on only after it is seen to start. -/
theorem mem_after_start {call load : Nat}
    (hrun : Reaches mode (before ++ .entered call .unloaded (.waiting load) :: after) s)
    (hmem : e ∈ before ++ .entered call .unloaded (.waiting load) :: after)
    (hof : e.isOf load) : e ∈ after := by
  apply hrun.mem_after_of_isOf ?_ rfl hmem hof
  intro first next hfirst hstep hstarted
  have hle := hfirst.sound.numbers_le load hstarted
  have hload := (hstep.start_eq rfl).1
  omega

/-- A load that came to a table read records once and built the table of them. -/
theorem madeDuring_of_finished (hrun : Reaches mode history s) {set : Loaded}
    (hfinished : .finished set.load (.ok set) ∈ history) :
    MadeDuring mode history history set := by
  obtain ⟨answer, houtcome, hevents⟩ := hrun.filter_isOf_of_finished hfinished
  obtain ⟨records, rfl, _, hbuild⟩ :=
    (Cache.outcomeOf_eq_ok_iff set.load mode answer set).mp houtcome.symm
  refine ⟨records, ?_, hbuild, ?_⟩
  · have hmem : .answered set.load (.ok records) ∈ history.filter (Event.isOf set.load) := by
      simp [hevents]
    exact (List.mem_filter.mp hmem).1
  · have hsame : history.countP (Event.isAnswerOf set.load) =
        (history.filter (Event.isOf set.load)).countP (Event.isAnswerOf set.load) := by
      rw [List.countP_filter]
      apply List.countP_congr
      intro event _
      cases event <;> simp [Event.isAnswerOf, Event.isOf]
    rw [hsame, hevents]
    simp [Event.isAnswerOf]

theorem returned_fresh {attempt call : Nat} {found : Phase} {entry : Entry} {set : Loaded}
    (hrun : Reaches mode (before ++ .invalidated attempt :: after) s)
    (hentered : .entered call found entry ∈ after)
    (hreturns : Returns (before ++ .invalidated attempt :: after) call (.ok set)) :
    MadeDuring mode (before ++ .invalidated attempt :: after) after set := by
  have hfinished := hrun.finished_of_returns
    (List.mem_append_right _ (List.mem_cons_of_mem _ hentered)) hreturns
  have hload : set.load = entry.load :=
    hrun.sound.done _ _ ((hrun.finished_iff _ _).mp hfinished)
  rw [← hload] at hfinished
  obtain ⟨records, hanswered, hbuild, honce⟩ := hrun.madeDuring_of_finished hfinished
  refine ⟨records, ?_, hbuild, honce⟩
  have hlt : attempt < set.load := by
    rw [hload]
    exact hrun.lt_of_entered_since hentered
  exact hrun.mem_after_invalidated hlt hanswered (by simp [Event.isOf])

theorem loaded_fresh (hrun : Reaches mode history s) {set : Loaded}
    (hphase : s.cache.phase = .loaded set) :
    ∃ before after call, history = before ++ .entered call .unloaded (.waiting set.load) :: after ∧
      .finished set.load (.ok set) ∈ after ∧ ∀ attempt, .invalidated attempt ∉ after := by
  obtain ⟨hattempt, hdone⟩ := hrun.sound.loaded set hphase
  have hstarted : set.load ∈ s.cache.numbers := by
    rw [← s.cache.progress?_isSome_iff, hdone]
    rfl
  obtain ⟨call, hstart⟩ := (hrun.mem_numbers_iff set.load).mp hstarted
  have hfinished := (hrun.finished_iff _ _).mpr hdone
  have hphase' : s.cache.phase ≠ .unloaded := by simp [hphase]
  have hearlier : ∀ attempt, .invalidated attempt ∈ history → attempt < set.load := by
    intro attempt hmem
    rw [hattempt]
    exact hrun.invalidated_lt hmem hphase'
  obtain ⟨before, after, rfl⟩ := List.append_of_mem hstart
  refine ⟨before, after, call, rfl, hrun.mem_after_start hfinished (by simp [Event.isOf]), ?_⟩
  intro attempt hmem
  -- the load would have to be both before and after the invalidation
  have hlt := hearlier attempt (List.mem_append_right _ (List.mem_cons_of_mem _ hmem))
  have hgt : set.load < attempt := hrun.lt_of_invalidated_since hmem
  omega

theorem overtaken_not_loaded {attempt starter load : Nat}
    (hrun : Reaches mode (before ++ .invalidated attempt :: after) s)
    (hstart : .entered starter .unloaded (.waiting load) ∈ before) {set : Loaded}
    (hphase : s.cache.phase = .loaded set) : set.load ≠ load := by
  have hload : load < attempt := hrun.lt_of_entered_before hstart
  have hattempt : attempt < s.cache.attempt :=
    hrun.invalidated_lt (by simp) (by simp [hphase])
  have hset := (hrun.sound.loaded set hphase).1
  omega

theorem overtaken_not_given {attempt starter load call : Nat} {found : Phase} {entry : Entry}
    (hrun : Reaches mode (before ++ .invalidated attempt :: after) s)
    (hstart : .entered starter .unloaded (.waiting load) ∈ before)
    (hentered : .entered call found entry ∈ after) : entry.load ≠ load := by
  have hload : load < attempt := hrun.lt_of_entered_before hstart
  have hentry : attempt < entry.load := hrun.lt_of_entered_since hentered
  omega

/-- In every run callers get fresh rules, and only fresh rules are kept. -/
theorem fresh (hrun : Reaches mode history s) : Fresh mode history s where
  returned := by
    rintro before after attempt call found entry set rfl hentered hreturns
    exact hrun.returned_fresh hentered hreturns
  loaded := hrun.loaded_fresh
  overtaken := by
    rintro before after attempt starter load rfl hstart
    refine ⟨fun set hphase => hrun.overtaken_not_loaded hstart hphase, ?_⟩
    intro call found entry hentered
    exact hrun.overtaken_not_given hstart hentered

/-- Rules that were revoked during a load are not given to later calls, nor are
they loaded when the call that waited for that load returns. -/
theorem fresh_of_overtakenRun :
    ∃ s, Reaches .exact overtakenRun s ∧
      MadeDuring .exact overtakenRun (overtakenRun.drop 6) ⟨3, {}⟩ ∧
      ∀ set, s.cache.phase = .loaded set → set.load ≠ 1 := by
  obtain ⟨s, hrun⟩ := reaches_overtakenRun
  have hfresh := fresh hrun
  have hsplit : overtakenRun =
      overtakenRun.take 5 ++ .invalidated 2 :: overtakenRun.drop 6 := rfl
  have hentered : Event.entered 1 .unloaded (.waiting 3) ∈ overtakenRun.drop 6 := by
    simp [overtakenRun]
  have hstart : Event.entered 0 .unloaded (.waiting 1) ∈ overtakenRun.take 5 := by
    simp [overtakenRun]
  refine ⟨s, hrun, ?_, (hfresh.overtaken hsplit hstart).1⟩
  exact hfresh.returned hsplit hentered (Or.inr (by simp [overtakenRun]))

end Reaches

end RouteGuard.Rules.Run
