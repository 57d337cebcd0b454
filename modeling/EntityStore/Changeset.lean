import EntityStore.Entity.Basic

/-!
# Changesets

The delta that a session hands to its repository: which entities to add, to update and to remove,
in the order in which the session came to track them.
-/

namespace EntityStore

inductive ChangeKind
  | add
  | update
  | remove
  deriving DecidableEq, Repr

def ChangeKind.name : ChangeKind → String
  | .add => "add"
  | .update => "update"
  | .remove => "remove"

def ChangeKind.ofName? : String → Option ChangeKind
  | "add" => some .add
  | "update" => some .update
  | "remove" => some .remove
  | _ => none

/-- One pending operation on one entity. -/
structure Change where
  kind : ChangeKind
  entity : Handle
  deriving DecidableEq, Repr

/-- Changes in the order in which they are applied. -/
abbrev Changeset := List Change

namespace Changeset

/-- The names of the types that are touched, in the order of the first touch. -/
def types (pool : Pool) (changes : Changeset) : List String :=
  (changes.map fun c => pool.typeName c.entity).eraseDups

def count (kind : ChangeKind) (changes : Changeset) : Nat :=
  (changes.filter fun c => c.kind == kind).length

end Changeset

end EntityStore
