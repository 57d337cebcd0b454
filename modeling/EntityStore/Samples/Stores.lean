import EntityStore.Repository
import EntityStore.Samples.Types

/-!
# Sample stores

Stores with a few tags and people to be loaded, and with entities that somebody has made and not
handed in yet.
-/

namespace EntityStore.Samples

/-- A tag of a name. -/
def tagNamed (id : Option EntityId) (name : String) : Entity :=
  (blank tag).setId id |>.set "name" (.value (.string name))

/-- A person of a nickname. -/
def personCalled (id : EntityId) (nickname : String) : Entity :=
  (blank person).setId (some id) |>.set "nickname" (.value (.string nickname))

/-- A store that has two tags to load, a red one and a blue one, and some entities at large. -/
def redAndBlue (made : List Entity) : Store where
  pool := (Pool.empty.allocAll made).2
  directory := .empty "."
  repository := (Repository.empty .defaults).withLoader "tag"
    (.ofEntities [tagNamed (some 1) "red", tagNamed (some 2) "blue"])

end EntityStore.Samples
