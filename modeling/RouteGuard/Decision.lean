import RouteGuard.AuthoritySet

/-! # Decisions

Whether a caller may go on depends on two sets alone: the authorities granted
and those required. Nothing required means nothing to check.
-/

namespace RouteGuard

inductive DenyReason
  | insufficientAuthority
  deriving DecidableEq, Repr

namespace DenyReason

def message : DenyReason → String
  | insufficientAuthority => "insufficient authority"

def code : DenyReason → String
  | insufficientAuthority => "insufficient_authority"

end DenyReason

inductive Decision
  | permit
  | deny (reason : DenyReason)
  deriving DecidableEq, Repr

namespace Decision

def isPermit : Decision → Bool
  | permit => true
  | deny _ => false

def code : Decision → String
  | permit => "permit"
  | deny _ => "deny"

def reason? : Decision → Option DenyReason
  | permit => none
  | deny reason => some reason

/-- The decision in words, with its reason. -/
def message : Decision → String
  | permit => "permit"
  | deny reason => "deny (" ++ reason.message ++ ")"

end Decision

/-- Permits when nothing is required or some granted authority is. -/
def decideAccess (granted : AuthoritySet) : Option AuthoritySet → Decision
  | none => .permit
  | some required =>
    if required.isEmpty || granted.intersects required then .permit
    else .deny .insufficientAuthority

/-- A caller is turned away exactly when authorities are required and none of
them is granted. -/
theorem decideAccess_isPermit_iff (granted : AuthoritySet) (required : Option AuthoritySet) :
    (decideAccess granted required).isPermit = true ↔
      ∀ r, required = some r → r.names = [] ∨ ∃ n ∈ granted.names, n ∈ r.names := by
  cases required with
  | none => simp [decideAccess, Decision.isPermit]
  | some r =>
    by_cases he : r.names = []
    · simp [decideAccess, Decision.isPermit, AuthoritySet.isEmpty, he]
    · by_cases hi : granted.intersects r
      · have hshared : ∃ n ∈ granted.names, n ∈ r.names := by
          simpa [AuthoritySet.intersects_eq_true_iff] using hi
        simp [decideAccess, Decision.isPermit, hi, hshared]
      · have hapart : ¬ ∃ n ∈ granted.names, n ∈ r.names := by
          simpa [AuthoritySet.intersects_eq_true_iff] using hi
        simp [decideAccess, Decision.isPermit, AuthoritySet.isEmpty, he, hi, hapart]

end RouteGuard
