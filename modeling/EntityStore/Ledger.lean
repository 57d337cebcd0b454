import EntityStore.Changeset
import EntityStore.Entity.Snapshot

/-!
# The ledger of a session

A session keeps a ledger of the entities it tracks: whether each is new, clean, dirty or deleted,
in the order in which they were registered. The state of a clean entity is not only stored but
also derived: with the entry goes a snapshot, and an entity whose current state differs from it
reads as dirty, without anybody saying so.

States follow a fixed table. Registering twice, marking what is not tracked and leaving the table
are not errors a caller recovers from but violations of the ledger's contract.

    untracked → new, clean        clean → dirty, deleted
    new → clean, deleted          dirty → clean, deleted
-/

namespace EntityStore

/-- The state of a tracked entity. -/
inductive LifeState
  | new
  | clean
  | dirty
  | deleted
  deriving DecidableEq, Repr

namespace LifeState

def name : LifeState → String
  | .new => "NEW"
  | .clean => "CLEAN"
  | .dirty => "DIRTY"
  | .deleted => "DELETED"

def ofName? : String → Option LifeState
  | "NEW" => some .new
  | "CLEAN" => some .clean
  | "DIRTY" => some .dirty
  | "DELETED" => some .deleted
  | _ => none

/-- The table of transitions; an untracked entity comes from nowhere. -/
def allows : Option LifeState → LifeState → Bool
  | none, .new => true
  | none, .clean => true
  | some .new, .clean => true
  | some .new, .deleted => true
  | some .clean, .dirty => true
  | some .clean, .deleted => true
  | some .dirty, .clean => true
  | some .dirty, .deleted => true
  | _, _ => false

end LifeState

/-- A broken contract: of the ledger, or of sorting, which asks for a consistent comparison. -/
inductive Violation
  | inconsistentOrder
  | alreadyRegistered (type : String)
  | unregisterUntracked (type : String)
  | markUntracked (type : String) (target : LifeState)
  | transition (type : String) (source target : LifeState)
  deriving DecidableEq, Repr

def Violation.message : Violation → String
  | .inconsistentOrder =>
    "user-provided comparison function does not correctly implement a total order"
  | .alreadyRegistered type => type ++ " entity is already registered"
  | .unregisterUntracked type => "cannot unregister untracked " ++ type ++ " entity"
  | .markUntracked type target => "cannot mark untracked " ++ type ++ " entity " ++ target.name
  | .transition type source target =>
    "invalid " ++ type ++ " transition " ++ source.name ++ " -> " ++ target.name

/-- A tracked entity. -/
structure LedgerEntry where
  entity : Handle
  state : LifeState
  /-- The state it was registered with, new or clean. -/
  origin : LifeState
  snapshot : Snapshot

/-- The state of an entry, edits included. -/
def LedgerEntry.current (pool : Pool) (e : LedgerEntry) : LifeState :=
  if e.state = .clean && !(Snapshot.capture pool e.entity).same e.snapshot then .dirty else e.state

/-- The tracked entities in the order of registration. -/
abbrev Ledger := List LedgerEntry

namespace Ledger

def find? (l : Ledger) (h : Handle) : Option LedgerEntry := List.find? (fun e => e.entity == h) l

def contains (l : Ledger) (h : Handle) : Bool := (l.find? h).isSome

/-- The current state of an entity, none when it is not tracked. -/
def state? (pool : Pool) (h : Handle) (l : Ledger) : Option LifeState :=
  (l.find? h).map (·.current pool)

/-- Register an entity in a state, to be compared with a snapshot. -/
def register (pool : Pool) (h : Handle) (state : LifeState) (snapshot : Snapshot) (l : Ledger) :
    Except Violation Ledger :=
  if l.contains h then .error (.alreadyRegistered (pool.typeName h))
  else .ok (l ++ [⟨h, state, state, snapshot⟩])

/-- Track an entity as new. -/
def registerNew (pool : Pool) (h : Handle) (l : Ledger) : Except Violation Ledger :=
  l.register pool h .new (Snapshot.capture pool h)

/-- Track a copy of an entity as clean; the copy has a handle of its own, which is returned. -/
def registerClean (pool : Pool) (h : Handle) (l : Ledger) : Handle × Pool × Ledger :=
  let (copy, pool') := pool.detach h
  (copy, pool', l ++ [⟨copy, .clean, .clean, Snapshot.capture pool h⟩])

/-- Track copies of several entities as clean. -/
def registerAllClean (pool : Pool) (l : Ledger) : List Handle → List Handle × Pool × Ledger
  | [] => ([], pool, l)
  | h :: rest =>
    let (copy, pool, l) := l.registerClean pool h
    let (copies, pool, l) := registerAllClean pool l rest
    (copy :: copies, pool, l)

/-- Stop tracking an entity; what its entry was is returned. -/
def release (h : Handle) (l : Ledger) : Option LedgerEntry × Ledger :=
  (l.find? h, List.filter (fun e => e.entity != h) l)

def unregister (pool : Pool) (h : Handle) (l : Ledger) : Except Violation Ledger :=
  match l.release h with
  | (some _, l) => .ok l
  | (none, _) => .error (.unregisterUntracked (pool.typeName h))

/-- Change the entry of an entity. -/
def update (h : Handle) (f : LedgerEntry → LedgerEntry) (l : Ledger) : Ledger :=
  List.map (fun e => if e.entity = h then f e else e) l

/-- Move an entity to another state. The table is asked for the stored state and for the current
one; either may allow the move. -/
def mark (pool : Pool) (h : Handle) (target : LifeState) (l : Ledger) : Except Violation Ledger :=
  match l.find? h with
  | none => .error (.markUntracked (pool.typeName h) target)
  | some e =>
    let source := e.current pool
    if LifeState.allows (some e.state) target || LifeState.allows (some source) target then
      .ok (l.update h fun e => { e with state := target })
    else .error (.transition (pool.typeName h) source target)

/-- Mark an entity clean as it is now. -/
def markClean (pool : Pool) (h : Handle) (l : Ledger) : Except Violation Ledger :=
  (l.mark pool h .clean).map fun l =>
    l.update h fun e => { e with snapshot := Snapshot.capture pool h }

/-- What a commit has to do about an entry. -/
def changeOf (pool : Pool) (e : LedgerEntry) : Option Change :=
  match e.origin, e.current pool with
  | .new, .deleted => none
  | .new, _ => some ⟨.add, e.entity⟩
  | _, .dirty => some ⟨.update, e.entity⟩
  | _, .deleted => some ⟨.remove, e.entity⟩
  | _, _ => none

/-- The changes a commit has to apply, in the order of registration. -/
def changeset (pool : Pool) (l : Ledger) : Changeset := l.filterMap (changeOf pool)

end Ledger

end EntityStore
