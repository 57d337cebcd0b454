import EntityStore.QueryError

/-!
# Failures of the store

Conflicts of identity are always reported and never settled by letting the last write win. Next
to them stand failures of look-up, of persistence and of the connection to a relational store,
and the failures of queries.
-/

namespace EntityStore

/-- Why rows could not be loaded or kept. -/
inductive PersistFault
  /-- The first line of a file that is not JSON. -/
  | malformedLine (path : String) (line : Nat)
  | notText (path : String)
  /-- A row of a table does not fit the type it is loaded as. -/
  | unfitRow (table : String)
  /-- The directory a file belongs into does not exist. -/
  | noDirectory (path : String)
  | diskFull
  /-- What the caller's own loader reports. -/
  | loader (text : String)
  deriving DecidableEq, Repr

def PersistFault.message : PersistFault → String
  | .malformedLine path line => path ++ ":" ++ toString line
  | .notText path => path ++ ": stream did not contain valid UTF-8"
  | .unfitRow table => table
  | .noDirectory path => path ++ ": No such file or directory (os error 2)"
  | .diskFull => "disk full"
  | .loader text => text

/-- What a lock protects. -/
inductive Guarded
  | session
  deriving DecidableEq, Repr

def Guarded.name : Guarded → String
  | .session => "session"

/-- Everything that can go wrong in the store. -/
inductive StoreError
  | duplicateId (type : String) (id : EntityId)
  | duplicateSlug (type slug : String)
  /-- No entity of that id; none when the entity looked for has no id. -/
  | notFound (type : String) (id : Option EntityId)
  /-- A look-up by a unique key found more than one entity. -/
  | duplicateResult (type key : String)
  | wrongType (expected found : String)
  | query (e : QueryError)
  | persist (fault : PersistFault)
  | idsExhausted (type : String)
  | lockPoisoned (what : Guarded)
  | connection (text : String)
  deriving DecidableEq

/-- The name of the kind of a failure. -/
def StoreError.kind : StoreError → String
  | .duplicateId .. => "DuplicateId"
  | .duplicateSlug .. => "DuplicateSlug"
  | .notFound .. => "NotFound"
  | .duplicateResult .. => "DuplicateResult"
  | .wrongType .. => "WrongEntityType"
  | .query e => "Query:" ++ e.kind
  | .persist _ => "Persist"
  | .idsExhausted _ => "IdsExhausted"
  | .lockPoisoned _ => "LockPoisoned"
  | .connection _ => "Connection"

def StoreError.message : StoreError → String
  | .duplicateId type id => "duplicate " ++ type ++ " id " ++ EntityId.toText id
  | .duplicateSlug type slug => "duplicate " ++ type ++ " slug `" ++ slug ++ "`"
  | .notFound type (some id) => type ++ " not found: " ++ EntityId.toText id
  | .notFound type none => type ++ " not found: entity without id"
  | .duplicateResult type key => "more than one " ++ type ++ " found for " ++ key
  | .wrongType expected found => "expected a " ++ expected ++ " entity, got " ++ found
  | .query e => e.message
  | .persist fault => "persistence failed: " ++ fault.message
  | .idsExhausted type => type ++ " ids exhausted"
  | .lockPoisoned what => "lock poisoned: " ++ what.name
  | .connection text => "connection error: " ++ text

end EntityStore
