import RouteGuard.Proofs.Directory.Records
import RouteGuard.Proofs.Http.AdminWrites
import RouteGuard.Proofs.Http.Guarded

/-! # All or nothing

A request to create or to delete an authority does all of what it asks for, and
discards the rules, or nothing of it. Which of the two is told by the status of
its answer alone, wherever the request may have failed.
-/

namespace RouteGuard.Http

open Directory (Seed Store)

namespace Resource

/-- Requests to the resource are meant to change the records. -/
def isWritten : Resource → Bool
  | authorities | authority _ => true
  | _ => false

/-- Every resource that is written is guarded. -/
theorem isGuarded_of_isWritten {resource : Resource} (hwritten : resource.isWritten = true) :
    resource.isGuarded = true := by
  cases resource <;> simp [isWritten, isGuarded] at hwritten ⊢

end Resource

namespace AdminWrite

/-- All records after the write: a new authority comes last, and with a deleted
one go the grants of it. -/
def recordsAfter : AdminWrite → Seed → Seed
  | create name url, old => old.withAuthority ⟨Text.trim name, Text.trim url⟩
  | delete name, old => old.withoutAuthority name

/-- The records are such that the write can be made. -/
def Fits : AdminWrite → Seed → Prop
  | create name _, old => ∀ a ∈ old.authorities, a.name ≠ Text.trim name
  | delete name, old => ∃ a ∈ old.authorities, a.name = name

/-- The write was made in full. It fitted the records, and the rules are discarded. -/
structure Made (w : AdminWrite) (old : Seed) (s t : Service) : Prop where
  before : s.guard.store.records? = some old
  fits : w.Fits old
  after : t.guard.store.records? = some (w.recordsAfter old)
  unloaded : t.guard.cache.phase = .unloaded
  invalidated : t.guard.cache.invalidations = s.guard.cache.invalidations + 1

end AdminWrite

/-- The write that a request asks for, if its body or its path can be read. -/
inductive Asks (s : Service) (r : Request) : AdminWrite → Prop
  | create {name url : String} (hrouted : Resource.at? r.path = some .authorities)
      (hread : s.formOf r = .ok (name, url)) : Asks s r (.create name url)
  | delete {segment : String} {name : List Char}
      (hrouted : Resource.at? r.path = some (.authority segment))
      (hread : Text.decode? (Path.percentDecode (Text.bytes segment)) = some name) :
      Asks s r (.delete (String.ofList name))

namespace Service

variable {s t passed : Service} {w : AdminWrite} {store : Store} {r : Request}
  {resource : Resource} {old : Seed}

/-- A write that is stored is made in full. -/
theorem Stores.made (hstores : s.Stores w store) : ∃ old, w.Made old s (s.rewritten store) := by
  have hinvalidated : (s.rewritten store).guard.cache.invalidations =
      s.guard.cache.invalidations + 1 := s.guard.cache.invalidations_invalidate
  cases hstores with
  | create hread hstore =>
      obtain ⟨_, _, rfl, _⟩ := authorityOf_eq_ok_iff.mp hread
      obtain ⟨old, hbefore, hnew, hafter⟩ := Store.records?_create hstore
      exact ⟨old, hbefore, hnew, hafter, rfl, hinvalidated⟩
  | delete hstore =>
      obtain ⟨old, hbefore, hstored, hafter⟩ := Store.records?_delete hstore
      exact ⟨old, hbefore, hstored, hafter, rfl, hinvalidated⟩

/-- A form that is refused is answered 400 or more. -/
theorem status_formOf {response : Response} (hrefused : s.formOf r = .error response) :
    400 ≤ response.status := by
  simp only [formOf] at hrefused
  split at hrefused
  · cases hrefused
    decide
  · split at hrefused
    · cases hrefused
      decide
    · split at hrefused <;> cases hrefused <;> decide

/-- A handler of written records makes the write that is asked for, or it refuses
to read the request. -/
theorem serve_cases (s : Service) (hrouted : Resource.at? r.path = some resource)
    (hwritten : resource.isWritten = true) :
    (∃ w, Asks s r w ∧ s.serve r resource = w.handle s) ∨
      ((s.serve r resource).value.1 = s ∧ 400 ≤ (s.serve r resource).value.2.status) := by
  cases resource with
  | authorities =>
      cases hread : s.formOf r with
      | error response =>
          rw [serve, hread]
          exact Or.inr ⟨rfl, status_formOf hread⟩
      | ok form =>
          refine Or.inl ⟨.create form.1 form.2, .create hrouted hread, ?_⟩
          rw [serve, hread]
          rfl
  | authority segment =>
      cases hread : Text.decode? (Path.percentDecode (Text.bytes segment)) with
      | none =>
          rw [serve, hread]
          exact Or.inr ⟨rfl, Nat.le_refl 400⟩
      | some name =>
          refine Or.inl ⟨.delete (String.ofList name), .delete hrouted hread, ?_⟩
          rw [serve, hread]
          rfl
  | _ => cases hwritten

/-- A request that was let pass still asks for the same write. -/
theorem Untouched.asks (huntouched : Untouched s passed) (hasks : Asks passed r w) :
    Asks s r w := by
  cases hasks with
  | create hrouted hread =>
      rw [formOf, huntouched.settings] at hread
      exact .create hrouted hread
  | delete hrouted hread => exact .delete hrouted hread

theorem Untouched.made (huntouched : Untouched s passed) (hmade : w.Made old passed t) :
    w.Made old s t where
  before := huntouched.store ▸ hmade.before
  fits := hmade.fits
  after := hmade.after
  unloaded := hmade.unloaded
  invalidated := by rw [hmade.invalidated, huntouched.invalidations]

/-- A request to create or to delete an authority is answered as made, and all
of what it asks for is done, or it is answered otherwise and nothing is. -/
theorem allOrNothing (s : Service) (r : Request) (hrouted : Resource.at? r.path = some resource)
    (hwritten : resource.isWritten = true) :
    (∃ w old, Asks s r w ∧ (s.handle r).value.2.status = w.doneStatus ∧
        w.Made old s (s.handle r).value.1) ∨
      (400 ≤ (s.handle r).value.2.status ∧ Untouched s (s.handle r).value.1) := by
  have hservice : (s.handle r).value.1 = (s.answer r).value.1 := rfl
  have hstatus : (s.handle r).value.2.status = (s.answer r).value.2.status := by
    simp only [handle, Logged.value_bind]
    split <;> rfl
  rw [hservice, hstatus]
  by_cases hhanded : Handed s r resource
  · have huntouched := s.untouched_letPass r
    rw [s.value_answer_of_handed r hhanded]
    generalize (s.letPass r).value.1 = passed at huntouched ⊢
    rcases passed.serve_cases hrouted hwritten with ⟨w, hasks, hserve⟩ | ⟨hsame, hrefused⟩
    · rw [hserve]
      rcases passed.handle_cases w with ⟨store, hstores⟩ | ⟨hsame, hrefused⟩
      · obtain ⟨old, hmade⟩ := hstores.made
        obtain ⟨hnext, hdone⟩ := hstores.accepted
        rw [hnext]
        exact Or.inl ⟨w, old, huntouched.asks hasks, hdone, huntouched.made hmade⟩
      · rw [hsame]
        exact Or.inr ⟨hrefused, huntouched⟩
    · rw [hsame]
      exact Or.inr ⟨hrefused, huntouched⟩
  · have hguarded := Resource.isGuarded_of_isWritten hwritten
    obtain ⟨huntouched, hrefused⟩ := s.answer_of_not_handed r hrouted hguarded hhanded
    exact Or.inr ⟨hrefused, huntouched⟩

/-- A service that everybody may pass, over two authorities that are granted. -/
def unguarded (store : Seed → Store) : Service :=
  new { auth := { allowAnonymous := true, enforcement := { enabled := false } } }
    (store
      { authorities := [⟨"ROLE_ADMIN", "/admin/**"⟩, ⟨"ROLE_AUDIT", "/audit/**"⟩]
        roles := [⟨"admin", ["ROLE_ADMIN", "ROLE_AUDIT"]⟩]
        principals := [⟨"alice", some ["admin"]⟩] })

/-- A database lets go of an authority and its grant, and a memory store takes in
none of a name that it has. -/
theorem allOrNothing_unguarded :
    let written : Service := unguarded fun seed =>
      .database { tables := some (Directory.Tables.empty.write seed) }
    let spared : Service := unguarded .memory
    let deletion : Request := { method := "DELETE", path := "/admin/authorities/ROLE_AUDIT" }
    let creation : Request :=
      { method := "POST"
        path := "/admin/authorities"
        headers := [⟨"content-type", "application/json"⟩]
        body := "\x7b\"name\": \"ROLE_AUDIT\", \"url\": \"/audit\"\x7d" }
    (∃ w old, AdminWrite.Made w old written (written.handle deletion).value.1) ∧
      Untouched spared (spared.handle creation).value.1 := by
  intro written spared deletion creation
  have hdeletion : Resource.at? deletion.path = some (.authority "ROLE_AUDIT") := by
    decide +kernel
  have hcreation : Resource.at? creation.path = some .authorities := by decide +kernel
  constructor
  · have hstatus : (written.handle deletion).value.2.status = 204 := by decide +kernel
    rcases written.allOrNothing deletion hdeletion rfl with ⟨w, old, _, _, hmade⟩ | ⟨hrefused, _⟩
    · exact ⟨w, old, hmade⟩
    · omega
  · have hstatus : (spared.handle creation).value.2.status = 409 := by decide +kernel
    rcases spared.allOrNothing creation hcreation rfl with ⟨w, _, _, hdone, _⟩ | ⟨_, huntouched⟩
    · cases w <;> simp only [AdminWrite.doneStatus] at hdone <;> omega
    · exact huntouched

end Service

end RouteGuard.Http
