import RouteGuard.AuthoritySet

/-! # Records of the directory

An authority binds a name to a resource pattern. A role grants authorities, a
principal holds roles. A principal whose role collection was never assigned is
kept apart from one with an empty collection.
-/

namespace RouteGuard.Directory

structure Authority where
  name : String
  url : String
  deriving DecidableEq, Repr

/-- The name as it is compared, or `none` for a blank name. -/
def Authority.trimmedName? (a : Authority) : Option String :=
  if Text.isBlankText a.name then none else some (Text.trim a.name)

structure Role where
  name : String
  authorities : List Authority
  deriving DecidableEq, Repr

structure Principal where
  username : String
  /-- `none` while no collection is assigned -/
  roles : Option (List Role)
  deriving DecidableEq, Repr

/-- All authorities that a list of roles grants. -/
def grantedBy (roles : List Role) : AuthoritySet :=
  .ofList (roles.flatMap fun r => r.authorities.map (·.name))

end RouteGuard.Directory
