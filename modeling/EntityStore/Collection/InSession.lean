import EntityStore.Collection.Basic
import EntityStore.Collection.Relationship
import EntityStore.Collection.View
import EntityStore.Filter.Matching
import EntityStore.Order.Comparing
import EntityStore.Session

/-!
# Collections in a session

The entities of one type as a session sees them, or the children of one parent, through a view.
The view is checked before anything is read, so a view that does not fit the type fails without
side effects; that goes for look-ups as well. The children of a parent can be read without the
session. Whatever needs the session goes through its lock. Sorting does not: an order that turns out
to be inconsistent is a violation that poisons nothing.
-/

namespace EntityStore

/-- A collection of entities of one type. -/
structure SessionCollection where
  /-- The name of the type. -/
  type : String
  schema : Schema
  /-- The parent whose children these are; without one these are all entities of the type. -/
  scope : Option Relationship
  view : View

namespace SessionCollection

/-- The result of a check. -/
def check (r : Except QueryError α) : SessionM α :=
  ofExcept (r.mapError fun e => .store (.query e))

/-- The view's filter, checked. -/
def predicate (c : SessionCollection) : SessionM (Option Predicate) :=
  check (c.view.filter.mapM (FilterSpec.compile c.schema c.type))

/-- The view's order, checked. -/
def comparator (c : SessionCollection) : SessionM (Option Comparator) :=
  check (c.view.order.mapM (OrderSpec.compile c.schema c.type))

/-- Whether an entity passes an optional filter. -/
def passes (pool : Pool) (p : Option Predicate) (h : Handle) : Bool := p.all (·.holds pool h)

/-- What the collection is a view of. -/
def base (c : SessionCollection) : SessionM (List Handle) := do
  match c.scope with
  | some r => return r.children (← get).store.pool
  | none => Session.locked (Session.all c.type)

/-- The entities that pass the filter. -/
def matching (c : SessionCollection) (p : Option Predicate) : SessionM (List Handle) := do
  let entities ← c.base
  return entities.filter (passes (← get).store.pool p)

/-! ## Reading -/

/-- How many entities pass the filter. -/
def count (c : SessionCollection) : SessionM Nat := do
  let p ← c.predicate
  if c.view.suppressed then return 0
  return (← c.matching p).length

/-- Entities in order. Without an order they stay as they come. -/
def inOrder? (sorter : Sorter Handle) (pool : Pool) (order : Option Comparator)
    (entities : List Handle) : Option (List Handle) :=
  match order with
  | some o => sorter.sort? (fun a b => o.compare pool a b) entities
  | none => some entities

/-- The entities of the view: filtered, then ordered, then windowed. -/
def items (c : SessionCollection) (sorter : Sorter Handle := .cautious) :
    SessionM (List Handle) := do
  let p ← c.predicate
  let order ← c.comparator
  if c.view.suppressed then return []
  let entities ← c.matching p
  match inOrder? sorter (← get).store.pool order entities with
  | some sorted => return Window.sliceIn sorted c.view.window
  | none => throw (.violation .inconsistentOrder)

/-- The only child that passes the filter and holds a key. -/
def find (c : SessionCollection) (p : Option Predicate) (key : String)
    (holds : Pool → Handle → Bool) : SessionM (Option Handle) := do
  let entities ← c.matching p
  match entities.filter (holds (← get).store.pool) with
  | [] => return none
  | [h] => return some h
  | _ => throw (.store (.duplicateResult c.type key))

/-- What a look-up in the session found, if it passes the filter. -/
def among (p : Option Predicate) (found : Option Handle) : SessionM (Option Handle) := do
  let pool := (← get).store.pool
  return found.filter (passes pool p)

def getById (c : SessionCollection) (id : EntityId) : SessionM (Option Handle) := do
  let p ← c.predicate
  match c.scope with
  | some _ => c.find p id.toText fun pool h => pool.id h == some id
  | none => among p (← Session.locked (Session.getById c.type id))

def getBySlug (c : SessionCollection) (slug : String) : SessionM (Option Handle) := do
  let p ← c.predicate
  match c.scope with
  | some _ => c.find p slug fun pool h => pool.slug h == some slug
  | none => among p (← Session.locked (Session.getBySlug c.type slug))

/-! ## Changing -/

/-- A change to the entities themselves. -/
def editPool (f : Pool → Pool) : SessionM Unit :=
  modify fun w => { w with store := { w.store with pool := f w.store.pool } }

/-- A change to the children, which must have been there for it. -/
def editChildren (type : String) (h : Handle) (f : Pool → Option Pool) : SessionM Unit := do
  let pool := (← get).store.pool
  match f pool with
  | some pool => editPool fun _ => pool
  | none => throw (.store (.notFound type (pool.id h)))

/-- Add an entity to the session, unless it tracks it already. -/
def addUntracked (h : Handle) : SessionM Unit := do
  if (Session.state? h (← get)).isNone then Session.add h

/-- Add an entity. A child is added to the session first and to the parent when that succeeded. -/
def add (c : SessionCollection) (h : Handle) : SessionM Unit := do
  match c.scope with
  | none => Session.locked (Session.add h)
  | some r =>
    let pool := (← get).store.pool
    if ← ofExcept ((Relationship.admits pool h (r.children pool)).mapError .store) then
      Session.locked (addUntracked h)
      editPool (r.attach h)

/-- Remove an entity from the session, if it is there. -/
def removePresent (h : Handle) : SessionM Unit :=
  tryCatch (Session.remove h) fun
    | .store (.notFound _ _) => return
    | e => throw e

/-- Remove an entity. A child is taken from the parent first and then from the session, which
need not know it. -/
def remove (c : SessionCollection) (h : Handle) : SessionM Unit := do
  match c.scope with
  | none => Session.locked (Session.remove h)
  | some r =>
    editChildren c.type h (r.detach? h)
    Session.locked (removePresent h)

/-- Put an entity in the place of the one with the same id, in the parent and in the session. -/
def update (c : SessionCollection) (h : Handle) : SessionM Unit := do
  match c.scope with
  | none => pure ()
  | some r => editChildren c.type h (r.replace? h)
  Session.locked (Session.replace h)

/-- The operations of a collection in a session. -/
def toCollection (c : SessionCollection) (sorter : Sorter Handle := .cautious) :
    Collection SessionM where
  count := c.count
  items := c.items sorter
  getById := c.getById
  getBySlug := c.getBySlug
  add := c.add
  remove := c.remove
  update := c.update

end SessionCollection

end EntityStore
