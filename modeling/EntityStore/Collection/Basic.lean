import EntityStore.Changeset
import EntityStore.EntityId
import EntityStore.Schema.Basic

/-!
# Collections

What can be asked of a collection of entities, wherever they are kept: in a session or in a table.
-/

namespace EntityStore

/-- The operations of a collection, as steps of some kind. -/
structure Collection (m : Type → Type) where
  /-- How many entities pass the filter. The window has no say in it. -/
  count : m Nat
  /-- The entities that pass the filter, ordered and windowed. -/
  items : m (List Handle)
  /-- The entity of an id, if it passes the filter. -/
  getById : EntityId → m (Option Handle)
  /-- The entity of a slug, if it passes the filter. -/
  getBySlug : String → m (Option Handle)
  add : Handle → m Unit
  remove : Handle → m Unit
  /-- Put an entity in the place of the one with the same id. -/
  update : Handle → m Unit

/-- The change of a kind. -/
def Collection.change {m : Type → Type} (c : Collection m) : ChangeKind → Handle → m Unit
  | .add => c.add
  | .update => c.update
  | .remove => c.remove

end EntityStore
