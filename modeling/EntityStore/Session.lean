import EntityStore.Ledger
import EntityStore.Repository

/-!
# Sessions

A session works on copies. The first time it touches a type it checks out the committed entities:
it gets a copy of each, tracks the copies as clean in its ledger and puts them into a cache of its
own. From then on it reads and changes only its cache and its ledger, until a commit hands the
ledger's changes to the repository, or a rollback drops them; both leave the session empty.

A session can fail in two ways. A failure of the store is an outcome like any other. A violation
of the ledger's contract is not: it leaves the session poisoned, and whoever goes through its lock
is turned away from then on.
-/

namespace EntityStore

/-- A unit of work on copies of the committed entities. -/
structure Session where
  ledger : Ledger
  caches : Caches
  /-- Whether the contract of the ledger was violated while the session was locked. -/
  poisoned : Bool

/-- A session that has not touched anything. -/
def Session.fresh : Session := ⟨[], [], false⟩

/-- Why a step of a session did not go through. -/
inductive SessionFault
  | store (e : StoreError)
  | violation (v : Violation)
  deriving DecidableEq

/-- A session and the store it works on. -/
structure Work where
  store : Store
  session : Session

/-- A step of a session. A step that fails keeps what it changed before it failed. -/
abbrev SessionM := ExceptT SessionFault (StateM Work)

namespace Session

/-! ## Parts of a step -/

/-- A step of the store as a step of the session. -/
def ask (m : StoreM α) : SessionM α := do
  let w ← get
  let (outcome, store) := m.run.run w.store
  set { w with store }
  ofExcept (outcome.mapError .store)

/-- A change to the ledger. -/
def track (f : Pool → Ledger → Except Violation Ledger) : SessionM Unit := do
  let w ← get
  let ledger ← ofExcept ((f w.store.pool w.session.ledger).mapError .violation)
  set { w with session := { w.session with ledger } }

/-- The cache of a type, which is checked out if it has not been. -/
def checkout (type : String) : SessionM Cache := do
  match (← get).session.caches.find? type with
  | some cache => return cache
  | none =>
    let committed ← ask (Store.load type)
    let w ← get
    let (copies, pool, ledger) := w.session.ledger.registerAllClean w.store.pool committed
    set { store := { w.store with pool }, session := { w.session with ledger } : Work }
    let cache ← ofExcept ((Cache.ofEntities pool type copies).mapError .store)
    modify fun w => { w with session := { w.session with caches := w.session.caches.put cache } }
    return cache

/-- An operation on the cache of a type. -/
def onCache (type : String) (f : Pool → Cache → Except StoreError α × Cache) : SessionM α := do
  let cache ← checkout type
  let w ← get
  let (outcome, cache) := f w.store.pool cache
  set { w with session := { w.session with caches := w.session.caches.put cache } }
  ofExcept (outcome.mapError .store)

/-- Have one entity take over the ledger's entry of another: where that was loaded the new one is
compared with the same snapshot, so that a commit sees an update; else it is new. -/
def succeed (old new : Handle) : SessionM Unit := do
  let w ← get
  let (entry, ledger) := w.session.ledger.release old
  set { w with session := { w.session with ledger } }
  match entry.filter fun e => e.origin = .clean with
  | some e => track fun pool l => l.register pool new .clean e.snapshot
  | none => track fun pool l => l.registerNew pool new

/-! ## Commit and rollback -/

/-- The changes a commit would hand to the repository. -/
def changeset (w : Work) : Changeset := w.session.ledger.changeset w.store.pool

/-- Rebuild the indexes of all caches. -/
def flush : SessionM Unit :=
  modify fun w =>
    { w with session := { w.session with caches := w.session.caches.rebuild w.store.pool } }

/-- Let go of everything. -/
def reset : SessionM Unit :=
  modify fun w => { w with session := { w.session with ledger := [], caches := [] } }

/-- Hand the changes to the repository. If they are refused the session stays as it is. -/
def commit : SessionM Unit := do
  flush
  ask (Store.commit (changeset (← get)))
  reset

/-- Drop the changes. -/
def rollback : SessionM Unit := do
  ask (Store.rollback (changeset (← get)))
  reset

/-- Commit, where the repository is set to commit every change at once. -/
def autocommit : SessionM Unit := do
  if (← get).store.repository.settings.autocommit then commit

/-! ## Reading -/

/-- Re-index a type before it is read, where the repository is set to. -/
def readThrough (type : String) : SessionM Unit := do
  if (← get).store.repository.settings.autoflush then
    onCache type fun pool c => (.ok (), c.rebuild pool)

def lookup (type : String) (id : EntityId) : SessionM (Option Handle) :=
  onCache type fun pool c => let (found, c) := c.getById pool id; (.ok found, c)

def getById (type : String) (id : EntityId) : SessionM (Option Handle) := do
  readThrough type
  lookup type id

def getBySlug (type slug : String) : SessionM (Option Handle) := do
  readThrough type
  onCache type fun pool c => let (found, c) := c.getBySlug pool slug; (.ok found, c)

/-- The entities of a type, in the order in which they were loaded and added. -/
def all (type : String) : SessionM (List Handle) := do
  readThrough type
  return (← checkout type).entities

/-- The state of an entity in the session, none when it is not tracked. -/
def state? (h : Handle) (w : Work) : Option LifeState := w.session.ledger.state? w.store.pool h

/-! ## Changing -/

/-- Take an entity, or the one of the same id, out of its cache. -/
def withdraw (type : String) (h : Handle) : SessionM Handle :=
  onCache type fun pool c => c.remove pool h

/-- Draw ids until one is not taken in the session. Ids are never drawn twice, so one draw more
than there are entities is enough. -/
def unusedId (type : String) : Nat → SessionM EntityId
  | 0 => throw (.store (.idsExhausted type))
  | draws + 1 => do
    let id ← ask (Store.newId type)
    match ← lookup type id with
    | none => return id
    | some _ => unusedId type draws

/-- Give an entity that has been added to its cache an id, or take it out again. -/
def identify (type : String) (h : Handle) : SessionM Unit := do
  let draws := (← checkout type).size + 1
  let id ← tryCatch (unusedId type draws) fun e => do
    let _ ← withdraw type h
    throw e
  modify fun w =>
    { w with store := { w.store with pool := w.store.pool.edit h fun e => e.setId (some id) } }
  onCache type fun _ c => (.ok (), c.invalidate)

/-- Add an entity. One without an id gets one. Adding an entity that was removed before makes
that undone. -/
def add (h : Handle) : SessionM Unit := do
  let type := (← get).store.pool.typeName h
  let revived := state? h (← get) == some .deleted
  let cache ← checkout type
  if cache.contains h then return
  onCache type fun pool c => c.add pool h
  if ((← get).store.pool.id h).isNone then identify type h
  if revived then succeed h h else track fun pool l => l.registerNew pool h
  autocommit

/-- Remove an entity, or the one of the same id. -/
def remove (h : Handle) : SessionM Unit := do
  let gone ← withdraw ((← get).store.pool.typeName h) h
  if (← get).session.ledger.contains gone then track fun pool l => l.mark pool gone .deleted
  autocommit

/-- Put an entity in the place of the one with the same id. This does not commit. -/
def replace (h : Handle) : SessionM Unit := do
  let previous ← onCache ((← get).store.pool.typeName h) fun pool c => c.replace pool h
  succeed previous h

/-! ## The lock -/

/-- Run a step; if it violates the contract of the ledger the session is poisoned. -/
def run (m : SessionM α) : SessionM α :=
  tryCatch m fun
    | .violation v => do
      modify fun w => { w with session := { w.session with poisoned := true } }
      throw (.violation v)
    | .store e => throw (.store e)

/-- Run a step under the lock of the session, which cannot be had once it is poisoned. -/
def locked (m : SessionM α) : SessionM α := do
  if (← get).session.poisoned then throw (.store (.lockPoisoned .session)) else run m

end Session

end EntityStore
