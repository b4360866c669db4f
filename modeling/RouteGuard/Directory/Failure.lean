/-! # Failures of the directory

Why a read or a write of the stored records did not succeed.
-/

namespace RouteGuard.Directory

inductive Failure
  | notFound
  | conflict (detail : String)
  | invalid (detail : String)
  /-- a seed file that cannot be read -/
  | unreadableSeed (path reason : String)
  /-- a seed file without the form of a seed -/
  | malformedSeed (detail : String)
  | database (detail : String)
  | migration (detail : String)
  | internal (detail : String)
  deriving DecidableEq, Repr

namespace Failure

def message : Failure → String
  | notFound => "Not found"
  | conflict detail => "Conflict: " ++ detail
  | invalid detail => "Validation error: " ++ detail
  | unreadableSeed path reason => "Failed to read seed file " ++ path ++ ": " ++ reason
  | malformedSeed detail => "Failed to parse seed file: " ++ detail
  | database detail => "Database error: " ++ detail
  | migration detail => "Migration error: " ++ detail
  | internal detail => "Internal error: " ++ detail

/-- A connection asked of a database that has been closed. -/
def closedPool : Failure := database "attempted to acquire a connection on a closed pool"

/-- A statement on a table that no migration has created yet. -/
def noTable (table : String) : Failure :=
  database ("error returned from database: (code: 1) no such table: " ++ table)

/-- A database file that is not there and may not be made, or cannot be. -/
def cannotOpen : Failure :=
  database "error returned from database: (code: 14) unable to open database file"

/-- A file that is there but holds no database. -/
def notDatabase : Failure :=
  database "error returned from database: (code: 26) file is not a database"

/-- A migration of a database that has been closed. -/
def closedMigration : Failure :=
  migration "while executing migrations: attempted to acquire a connection on a closed pool"

end Failure

end RouteGuard.Directory
