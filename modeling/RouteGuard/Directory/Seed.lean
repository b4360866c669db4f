import RouteGuard.Directory.Record
import RouteGuard.Directory.Failure

/-! # Seeds

A seed lists authorities, roles and principals by name. It is consistent when
no name is used twice and every name that is referred to is listed. Authority
names are told apart by their trimmed form but referred to by their exact one.
-/

namespace RouteGuard.Directory

structure SeedRole where
  name : String
  authorities : List String := []
  deriving DecidableEq, Repr

structure SeedPrincipal where
  username : String
  /-- `none` leaves the role collection unassigned -/
  roles : Option (List String) := none
  deriving DecidableEq, Repr

structure Seed where
  authorities : List Authority := []
  roles : List SeedRole := []
  principals : List SeedPrincipal := []
  deriving DecidableEq, Repr

inductive SeedFault
  | duplicateAuthority (name : String)
  | duplicateRole (name : String)
  | unknownAuthority (role authority : String)
  | duplicatePrincipal (username : String)
  | unknownRole (username role : String)
  deriving DecidableEq, Repr

def SeedFault.message : SeedFault → String
  | duplicateAuthority name => "duplicate authority name '" ++ name ++ "'"
  | duplicateRole name => "duplicate role name '" ++ name ++ "'"
  | unknownAuthority role authority =>
    "role '" ++ role ++ "' references unknown authority '" ++ authority ++ "'"
  | duplicatePrincipal username => "duplicate principal '" ++ username ++ "'"
  | unknownRole username role =>
    "principal '" ++ username ++ "' references unknown role '" ++ role ++ "'"

namespace Seed

/-- The first authority whose trimmed name is among `seen` or among those of
the authorities before it. -/
def authorityFault? (seen : List String) : List Authority → Option SeedFault
  | [] => none
  | a :: rest =>
    if seen.contains (Text.trim a.name) then some (.duplicateAuthority a.name)
    else authorityFault? (Text.trim a.name :: seen) rest

/-- The first fault of a role: its name is taken, or it grants an authority that
is not `known`. -/
def roleFault? (known seen : List String) : List SeedRole → Option SeedFault
  | [] => none
  | r :: rest =>
    if seen.contains r.name then some (.duplicateRole r.name)
    else
      match r.authorities.find? (!known.contains ·) with
      | some missing => some (.unknownAuthority r.name missing)
      | none => roleFault? known (r.name :: seen) rest

/-- The first fault of a principal: its name is taken, or it holds a role that
is not `known`. -/
def principalFault? (known seen : List String) : List SeedPrincipal → Option SeedFault
  | [] => none
  | p :: rest =>
    if seen.contains p.username then some (.duplicatePrincipal p.username)
    else
      match (p.roles.getD []).find? (!known.contains ·) with
      | some missing => some (.unknownRole p.username missing)
      | none => principalFault? known (p.username :: seen) rest

/-- The first fault of a seed: authorities before roles before principals. -/
def fault? (s : Seed) : Option SeedFault :=
  authorityFault? [] s.authorities
    |>.or (roleFault? (s.authorities.map (·.name)) [] s.roles)
    |>.or (principalFault? (s.roles.map (·.name)) [] s.principals)

def checked (s : Seed) : Except Failure Seed :=
  match s.fault? with
  | some fault => .error (.invalid fault.message)
  | none => .ok s

end Seed

end RouteGuard.Directory
