import EntityStore.Cache
import EntityStore.RowFormat
import EntityStore.Settings

/-!
# The repository

What all sessions share: one cache of committed entities per type, filled by the type's loader
when the type is first asked for, and one sequence of ids per type, which only ever goes up.

A changeset is applied to copies of the caches of the types it touches. Ids and slugs have to be
unique when all of it has been applied, not after every single change, so two entities may swap
their slugs. Only when every change has gone through and every type has been checked do the
copies take the place of the caches. After that, types with a row format are written to their
tables; a failure there is reported, but what was committed stays committed.
-/

namespace EntityStore

/-- Where the entities of a type come from when the type is first asked for. -/
abbrev Loader := Directory → Except StoreError (List Entity)

namespace Loader

/-- A fixed list of entities. -/
def ofEntities (entities : List Entity) : Loader := fun _ => .ok entities

/-- The rows of a table. -/
def ofRows (format : RowFormat) : Loader := fun d => (format.load d).mapError .persist

/-- A loader that reports a failure of its own. -/
def failing (text : String) : Loader := fun _ => .error (.persist (.loader text))

end Loader

/-- The committed entities, and how they got here. -/
structure Repository where
  settings : Settings
  /-- The loaders, by the names of the types. -/
  loader? : String → Option Loader
  /-- The formats of the types that are written to tables. -/
  format? : String → Option RowFormat
  /-- The types that have been loaded. -/
  caches : Caches
  /-- The last id of each type's sequence. -/
  lastId : String → EntityId

namespace Repository

/-- A repository without loaders. -/
def empty (settings : Settings) : Repository where
  settings := settings
  loader? := fun _ => none
  format? := fun _ => none
  caches := []
  lastId := fun _ => 0

def withLoader (r : Repository) (type : String) (loader : Loader) : Repository :=
  { r with loader? := fun t => if t = type then some loader else r.loader? t }

/-- Load a type from its table, and write it there. -/
def withRows (r : Repository) (format : RowFormat) : Repository :=
  { r.withLoader format.type.name (.ofRows format) with
    format? := fun t => if t = format.type.name then some format else r.format? t }

def withLastId (r : Repository) (type : String) (id : EntityId) : Repository :=
  { r with lastId := fun t => if t = type then id else r.lastId t }

def withCache (r : Repository) (c : Cache) : Repository := { r with caches := r.caches.put c }

end Repository

/-- A repository with the entities and the files it lives on. -/
structure Store where
  pool : Pool
  directory : Directory
  repository : Repository

/-- A step of the store. A step that fails keeps what it changed before it failed. -/
abbrev StoreM := ExceptT StoreError (StateM Store)

namespace Store

/-- The next id after the last one of a sequence. -/
def advance (type : String) (last : EntityId) : Except StoreError EntityId × EntityId :=
  match last.next? with
  | some id => (.ok id, id)
  | none => (.error (.idsExhausted type), last)

/-- Number the entities of a cache that have no id, and index it. Entities that have been given
an id keep it when a later one can be given none. -/
def number (last : EntityId) (cache : Cache) : StoreM (EntityId × Cache) := do
  let s ← get
  let (outcome, cache, pool, last) := cache.assignMissingIds (advance cache.type) s.pool last
  set { s with pool }
  let _ ← ofExcept outcome
  return (last, cache.rebuild pool)

/-- The cache of a type, which is loaded if it has not been. Nothing is kept of a load that
fails, so the next one asks the loader again. -/
def checkout (type : String) : StoreM Cache := do
  let s ← get
  match s.repository.caches.find? type with
  | some cache => return cache
  | none =>
    let entities ← match s.repository.loader? type with
      | some loader => ofExcept (loader s.directory)
      | none => pure []
    let (handles, pool) := s.pool.allocAll entities
    let cache ← ofExcept (Cache.ofEntities pool type handles)
    set { s with pool }
    let (last, cache) ← number ((cache.maxId? pool).getD 0) cache
    modify fun s => { s with repository := (s.repository.withLastId type last).withCache cache }
    return cache

/-- The committed entities of a type. -/
def load (type : String) : StoreM (List Handle) := return (← checkout type).entities

/-- How many committed entities of a type there are. -/
def size (type : String) : StoreM Nat := return (← load type).length

/-- Draw the next id of a type: the one after all that were drawn or committed. -/
def newId (type : String) : StoreM EntityId := do
  let cache ← checkout type
  let s ← get
  let last := s.repository.lastId type
  let last := ((cache.maxId? s.pool).map last.later).getD last
  let id ← ofExcept (advance type last).1
  modify fun s => { s with repository := s.repository.withLastId type id }
  return id

/-! ## Committing -/

/-- Apply a change to the staged copy of its type's cache, which is taken on the first touch. -/
def stage (staged : Caches) (change : Change) : StoreM Caches := do
  let type := (← get).pool.typeName change.entity
  let cache ← match staged.find? type with
    | some cache => pure cache
    | none => checkout type
  let s ← get
  let (outcome, cache, pool) := cache.apply change s.pool
  set { s with pool }
  ofExcept outcome
  return staged.put cache

/-- Check a staged cache as a whole, number its new entities and index it. -/
def finish (cache : Cache) : StoreM Cache := do
  let s ← get
  ofExcept (cache.checkUnique s.pool)
  let last := s.repository.lastId cache.type
  let last := ((cache.maxId? s.pool).map last.later).getD last
  let (last, cache) ← number last cache
  modify fun s => { s with repository := s.repository.withLastId cache.type last }
  return cache

/-- Apply a changeset to the committed entities, all of it or nothing. The caches of the touched
types are returned in the order of the first touch. -/
def applyAll (changes : Changeset) : StoreM Caches := do
  let staged ← changes.foldlM stage []
  let staged ← staged.mapM finish
  modify fun s => { s with repository := staged.foldl .withCache s.repository }
  return staged

/-- Write a committed cache to its table, if its type has one. -/
def dump (cache : Cache) : StoreM Unit := do
  let s ← get
  match s.repository.format? cache.type with
  | none => return
  | some format =>
    let directory ← ofExcept
      ((format.dump s.directory (cache.entities.map s.pool.entity)).mapError .persist)
    set { s with directory }

/-- Commit a changeset and write the touched tables. -/
def commit (changes : Changeset) : StoreM Unit := do
  (← applyAll changes).forM dump

/-- Discard a changeset. The repository was never touched by it. -/
def rollback (_ : Changeset) : StoreM Unit := return

end Store

end EntityStore
