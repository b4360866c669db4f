import RouteGuard.Proofs.Rules.Freshness
import RouteGuard.Proofs.Rules.Request

/-! # A call in any state of a run

Whatever a run has led to, a call that is alone and finds the store answering
comes back with the loaded rules, or with what the read of one load leads to.
-/

namespace RouteGuard.Rules.Run

open Directory (Authority Failure)
open Glob (CaseMode)

namespace Reaches

variable {mode : CaseMode} {history : List Event} {s : State} {set : Loaded}

/-- Where no rules are loaded, a call goes by the read of some load. Even a load
that is done goes by a read that was answered. -/
theorem exists_goesBy (hrun : Reaches mode history s)
    (hphase : ∀ set, s.cache.phase ≠ .loaded set) (now : Except Failure (List Authority)) :
    ∃ load answer, s.cache.GoesBy now load answer := by
  cases hwaits : s.cache.phase with
  | unloaded => exact ⟨_, _, Cache.goesBy_of_unloaded hwaits⟩
  | loaded set => exact absurd hwaits (hphase set)
  | loading load =>
      have henter := s.cache.enter_of_loading load hwaits
      have hstarted := (s.cache.progress?_isSome_iff load).mpr (hrun.sound.loading load hwaits).2
      obtain ⟨progress, hprogress⟩ := Option.isSome_iff_exists.mp hstarted
      have hgoes : ∀ answer, s.cache.Answered load now answer → s.cache.GoesBy now load answer :=
        fun answer hanswered => ⟨by rw [henter]; exact hwaits, by rw [henter]; exact hanswered⟩
      cases progress with
      | fresh => exact ⟨load, now, hgoes _ (.fresh hprogress)⟩
      | reading => exact ⟨load, now, hgoes _ (.reading hprogress)⟩
      | fetched answer => exact ⟨load, answer, hgoes _ (.fetched hprogress)⟩
      | done outcome =>
          have hfinished := (hrun.finished_iff load outcome).mpr hprogress
          obtain ⟨answer, rfl, _⟩ := hrun.filter_isOf_of_finished hfinished
          rw [← hrun.mode_eq] at hprogress
          exact ⟨load, answer, hgoes _ (.done hprogress)⟩

end Reaches

end RouteGuard.Rules.Run
