import EntityStore.Entity.Basic

/-!
# Snapshots

A snapshot is the externally visible state of an entity: the values of its declared attributes,
relations by the ids of what they relate to. It holds no handles, so later edits cannot reach
into it, and comparing it with a fresh one tells whether the entity was edited.
-/

namespace EntityStore

/-- One captured attribute. -/
inductive Captured
  | scalar (v : Value)
  | ref (id : Value)
  | refs (ids : List Value)
  deriving DecidableEq

/-- The captured attributes of an entity, in declaration order. Attributes that cannot be read as
what they are declared are left out. -/
abbrev Snapshot := List (String × Captured)

namespace Snapshot

/-- What an attribute contributes to a snapshot. -/
def captureField? (p : Pool) (kind : AttributeKind) (field : Option Field) : Option Captured :=
  match kind, field with
  | .terminal _, some (.value v) => some (.scalar v)
  | .toOne _, some (.one none) => some (.ref .null)
  | .toOne _, some (.one (some related)) => some (.ref (p.idValue related))
  | .toMany _ _, some (.many related) => some (.refs (related.map p.idValue))
  | _, _ => none

/-- The current state of an entity. -/
def capture (p : Pool) (h : Handle) : Snapshot :=
  let e := p.entity h
  e.type.attributes.filterMap fun a =>
    (captureField? p a.kind (e.field? a.name)).map fun c => (a.name, c)

def get? (s : Snapshot) (name : String) : Option Captured :=
  (s.find? fun entry => entry.1 == name).map (·.2)

def sameCaptured : Captured → Captured → Bool
  | .scalar a, .scalar b => a.same b
  | .ref a, .ref b => a.same b
  | .refs a, .refs b => Value.sameList a b
  | _, _ => false

/-- Equality of snapshots, attribute by attribute. -/
def same : Snapshot → Snapshot → Bool
  | [], [] => true
  | (m, a) :: as, (n, b) :: bs => m == n && sameCaptured a b && same as bs
  | _, _ => false

end Snapshot

end EntityStore
