import EntityStore.Directory
import EntityStore.Entity.Basic

/-!
# Row formats

How the entities of a type are kept as rows of a table. A row that cannot be read as an entity
of the type makes the whole table unreadable.
-/

namespace EntityStore

/-- The table of a type, and how its rows are written and read. -/
structure RowFormat where
  type : EntityType
  encode : Entity → Json
  decode? : Json → Option Entity

namespace RowFormat

/-- The entities that rows stand for. -/
def decodeAll (format : RowFormat) : List Json → Except PersistFault (List Entity)
  | [] => .ok []
  | row :: rest =>
    match format.decode? row with
    | none => .error (.unfitRow format.type.table)
    | some e =>
      match format.decodeAll rest with
      | .error e => .error e
      | .ok es => .ok (e :: es)

/-- The entities of the table. -/
def load (format : RowFormat) (d : Directory) : Except PersistFault (List Entity) :=
  match d.load format.type.table with
  | .error e => .error e
  | .ok rows => format.decodeAll rows

/-- Keep entities as the table. -/
def dump (format : RowFormat) (d : Directory) (entities : List Entity) :
    Except PersistFault Directory :=
  d.dump format.type.table (entities.map format.encode)

end RowFormat

end EntityStore
