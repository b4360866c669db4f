import RouteGuard.Http.Service
import RouteGuard.Proofs.Directory.Listing

/-! # Administrative writes

The two requests that change the records. A write is accepted or it leaves the
service as it was; an accepted one changes the store in one step and discards
the rules in the next.
-/

namespace RouteGuard.Http

open Directory (Authority Failure Store)
open Glob (CaseMode)

inductive AdminWrite
  | create (name url : String)
  | delete (name : String)
  deriving DecidableEq, Repr

namespace AdminWrite

def handle (s : Service) : AdminWrite → Logged (Service × Response)
  | create name url => s.createAuthority name url
  | delete name => s.deleteAuthority name

/-- The status that tells that the write was made. -/
def doneStatus : AdminWrite → Nat
  | create _ _ => 201
  | delete _ => 204

/-- The records after the write. -/
def applied : AdminWrite → List Authority → List Authority
  | create name url, records => records ++ [⟨Text.trim name, Text.trim url⟩]
  | delete name, records => records.filter (·.name != name)

/-- The records are such as the write leaves them. -/
def ShownIn : AdminWrite → List Authority → Prop
  | create name url, records => ⟨Text.trim name, Text.trim url⟩ ∈ records
  | delete name, records => ∀ a ∈ records, a.name ≠ name

/-- A write deletes what another one created, or the other way around. -/
def Undoes : AdminWrite → AdminWrite → Prop
  | delete name, create created _ => Text.trim created = name
  | create created _, delete name => Text.trim created = name
  | _, _ => False

/-- The write is answered as made, and the service is `t` after it. -/
def Accepted (w : AdminWrite) (s t : Service) : Prop :=
  (w.handle s).value.1 = t ∧ (w.handle s).value.2.status = w.doneStatus

/-- A write is shown in the records right after it. -/
theorem shownIn_applied (w : AdminWrite) (records : List Authority) :
    w.ShownIn (w.applied records) := by
  cases w with
  | create name url => simp [ShownIn, applied]
  | delete name => simp [ShownIn, applied]

/-- Only a write that undoes another one hides it. -/
theorem ShownIn.applied {w later : AdminWrite} {records : List Authority}
    (hshown : w.ShownIn records) (hkeeps : ¬ later.Undoes w) :
    w.ShownIn (later.applied records) := by
  cases w with
  | create name url =>
      cases later with
      | create other pattern => exact List.mem_append_left _ hshown
      | delete removed => exact List.mem_filter.mpr ⟨hshown, by simpa [Undoes] using hkeeps⟩
  | delete name =>
      cases later with
      | create other pattern =>
          intro a ha
          rcases List.mem_append.mp ha with hbefore | hlast
          · exact hshown a hbefore
          · obtain rfl := List.mem_singleton.mp hlast
            exact hkeeps
      | delete removed => exact fun a ha => hshown a (List.mem_filter.mp ha).1

end AdminWrite

namespace Service

/-- The mode in which the patterns of the service are read. -/
def mode (s : Service) : CaseMode := s.settings.auth.enforcement.mode

/-- The change of the store that a write asks for and the store allows. -/
inductive Stores (s : Service) : AdminWrite → Store → Prop
  | create {name url : String} {a : Authority} {store : Store}
      (hread : s.authorityOf name url = .ok a) (hstore : s.guard.store.create a = .ok store) :
      s.Stores (.create name url) store
  | delete {name : String} {store : Store} (hstore : s.guard.store.delete name = .ok store) :
      s.Stores (.delete name) store

/-- The service with another store and its rules discarded. -/
def rewritten (s : Service) (store : Store) : Service :=
  { s with guard := ({ s.guard with store }.invalidate).value }

variable {s t : Service} {w : AdminWrite}

/-- The name and the pattern must not be blank, and the pattern must compile. -/
theorem authorityOf_eq (s : Service) (name url : String) :
    s.authorityOf name url =
      if Text.isBlankText name then .error (.invalid "Authority name cannot be empty")
      else if Text.isBlankText url then .error (.invalid "Authority url cannot be empty")
      else
        match Pattern.compile s.mode (Text.trim url) with
        | .error e => .error (.invalid e.message)
        | .ok _ => .ok ⟨Text.trim name, Text.trim url⟩ := by
  simp only [authorityOf, mode]
  generalize Pattern.compile s.settings.auth.enforcement.mode (Text.trim url) = compiled
  cases Text.isBlankText name with
  | true => rfl
  | false =>
      cases Text.isBlankText url with
      | true => rfl
      | false => cases compiled <;> rfl

/-- A new authority has a name and a pattern, both trimmed, and the pattern can
be read by itself. -/
theorem authorityOf_eq_ok_iff {name url : String} {a : Authority} :
    s.authorityOf name url = .ok a ↔
      Text.isBlankText name = false ∧ Text.isBlankText url = false ∧
        a = ⟨Text.trim name, Text.trim url⟩ ∧ ∃ p, Pattern.compile s.mode a.url = .ok p := by
  rw [authorityOf_eq]
  cases Text.isBlankText name with
  | true => simp
  | false =>
      cases Text.isBlankText url with
      | true => simp
      | false =>
          cases hcompile : Pattern.compile s.mode (Text.trim url) with
          | error e =>
              simp only [Bool.false_eq_true, if_false, true_and]
              constructor
              · rintro ⟨⟩
              · rintro ⟨rfl, p, hp⟩
                cases hcompile.symm.trans hp
          | ok p =>
              simp only [Bool.false_eq_true, if_false, true_and]
              constructor
              · rintro ⟨⟩
                exact ⟨rfl, p, hcompile⟩
              · rintro ⟨rfl, _⟩
                rfl

/-- A record that is refused is answered 400. -/
theorem status_authorityOf {name url : String} {e : AdminError}
    (hrefused : s.authorityOf name url = .error e) : e.response.status = 400 := by
  rw [authorityOf_eq] at hrefused
  split at hrefused
  · cases hrefused
    rfl
  · split at hrefused
    · cases hrefused
      rfl
    · split at hrefused <;> cases hrefused
      rfl

theorem status_ofFailure (failure : Failure) :
    400 ≤ (AdminError.ofFailure failure).value.response.status := by
  cases failure <;> simp [AdminError.ofFailure, AdminError.response, Response.fault, Response.json]

theorem Stores.exists_list {store : Store} (hstores : s.Stores w store) :
    ∃ records, s.guard.store.list = .ok records := by
  cases hstores with
  | create _ hstore => exact Store.exists_list_of_create hstore
  | delete hstore => exact Store.exists_list_of_delete hstore

/-- After a write the store lists the records with the write applied. -/
theorem Stores.list_eq {store : Store} {records : List Authority} (hstores : s.Stores w store)
    (hlist : s.guard.store.list = .ok records) : store.list = .ok (w.applied records) := by
  cases hstores with
  | create hread hstore =>
      obtain ⟨_, _, rfl, _⟩ := authorityOf_eq_ok_iff.mp hread
      exact (Store.list_create hlist hstore).2
  | delete hstore => exact (Store.list_delete hlist hstore).2

/-- A write that the store takes is accepted. -/
theorem Stores.accepted {store : Store} (hstores : s.Stores w store) :
    w.Accepted s (s.rewritten store) := by
  cases hstores with
  | create hread hstore =>
      simp only [AdminWrite.Accepted, AdminWrite.handle, createAuthority, hread, hstore]
      exact ⟨rfl, rfl⟩
  | delete hstore =>
      simp only [AdminWrite.Accepted, AdminWrite.handle, deleteAuthority, hstore]
      exact ⟨rfl, rfl⟩

/-- A write is made, or it is refused and changes nothing. -/
theorem handle_cases (s : Service) (w : AdminWrite) :
    (∃ store, s.Stores w store) ∨
      ((w.handle s).value.1 = s ∧ 400 ≤ (w.handle s).value.2.status) := by
  cases w with
  | create name url =>
      simp only [AdminWrite.handle, createAuthority]
      cases hread : s.authorityOf name url with
      | error e => exact Or.inr ⟨rfl, Nat.le_of_eq (status_authorityOf hread).symm⟩
      | ok a =>
          dsimp only
          cases hstore : s.guard.store.create a with
          | error failure => exact Or.inr ⟨rfl, status_ofFailure failure⟩
          | ok store => exact Or.inl ⟨store, .create hread hstore⟩
  | delete name =>
      simp only [AdminWrite.handle, deleteAuthority]
      cases hstore : s.guard.store.delete name with
      | error failure => exact Or.inr ⟨rfl, status_ofFailure failure⟩
      | ok store => exact Or.inl ⟨store, .delete hstore⟩

/-- The accepted writes are those that the store takes, with the cache invalidated. -/
theorem accepted_iff : w.Accepted s t ↔ ∃ store, s.Stores w store ∧ t = s.rewritten store := by
  constructor
  · intro haccepted
    rcases s.handle_cases w with ⟨store, hstores⟩ | ⟨_, hrefused⟩
    · exact ⟨store, hstores, haccepted.1.symm.trans hstores.accepted.1⟩
    · have hdone := haccepted.2
      cases w <;> simp only [AdminWrite.doneStatus] at hdone <;> omega
  · rintro ⟨store, hstores, rfl⟩
    exact hstores.accepted

end Service

end RouteGuard.Http
