import EntityStore.StoreError
import EntityStore.Entity.Basic

/-!
# Relationships

A parent holds its children in a to-many field; each child may refer back through a to-one field.
The operations here change both ends together.
-/

namespace EntityStore

/-- The children of one parent. -/
structure Relationship where
  parent : Handle
  /-- The parent's field that holds the children. -/
  field : String
  /-- The children's field that refers back, where that is kept up. -/
  back : Option String
  deriving DecidableEq, Repr

namespace Relationship

def children (r : Relationship) (pool : Pool) : List Handle :=
  match (pool.entity r.parent).stored? r.field with
  | some (.many related) => related
  | _ => []

def setChildren (r : Relationship) (children : List Handle) (pool : Pool) : Pool :=
  pool.edit r.parent fun e => e.set r.field (.many children)

/-- Point the back reference of a child somewhere. -/
def setBack (r : Relationship) (child : Handle) (target : Option Handle) (pool : Pool) : Pool :=
  match r.back with
  | some field => pool.edit child fun e => e.set field (.one target)
  | none => pool

/-- Append a child. -/
def attach (r : Relationship) (child : Handle) (pool : Pool) : Pool :=
  r.setBack child (some r.parent) (r.setChildren (r.children pool ++ [child]) pool)

/-- Drop a child, or the one of the same id. Neither refers back afterwards. -/
def detach? (r : Relationship) (child : Handle) (pool : Pool) : Option Pool :=
  (pool.counterpart? child (r.children pool)).map fun gone =>
    r.setBack child none
      (r.setBack gone none (r.setChildren ((r.children pool).erase gone) pool))

/-- Put a child in its own place, or in that of the one with the same id. -/
def replace? (r : Relationship) (child : Handle) (pool : Pool) : Option Pool :=
  (pool.counterpart? child (r.children pool)).map fun old =>
    r.setBack child (some r.parent) (r.setChildren ((r.children pool).replace old child) pool)

/-- Whether an entity can be added to children. It need not be when it is one of them already;
it must not be when one of them, met before, has its id or its slug. -/
def admits (pool : Pool) (h : Handle) : List Handle → Except StoreError Bool
  | [] => .ok true
  | child :: rest =>
    if child = h then .ok false
    else
      let type := pool.typeName h
      match (pool.id h).filter fun id => pool.id child == some id,
          (pool.slug h).filter fun slug => pool.slug child == some slug with
      | some id, _ => .error (.duplicateId type id)
      | none, some slug => .error (.duplicateSlug type slug)
      | none, none => admits pool h rest

end Relationship

end EntityStore
