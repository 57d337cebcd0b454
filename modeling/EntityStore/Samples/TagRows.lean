import EntityStore.Json.Access
import EntityStore.RowFormat
import EntityStore.Samples.Types

/-!
# Tags as rows

A tag is kept as an object with its id, its name and its weight. Read back, members that it does
not know are skipped and the id may be missing; an array has to give all three in this order. A
weight without a value is kept as null and cannot be read again.
-/

namespace EntityStore.Samples

/-- The JSON of a scalar field. -/
def scalarJson : Option Field → Json
  | some (.value (.int i)) => .int i.toInt
  | some (.value (.float x)) => if x.isFinite then .float x else .null
  | some (.value (.string s)) => .text s
  | _ => .null

def encodeTag (e : Entity) : Json :=
  .object
    [ ("id", scalarJson (e.stored? "id")), ("name", scalarJson (e.stored? "name")),
      ("weight", scalarJson (e.stored? "weight")) ]

/-- An id, or none where there is null. -/
def decodeId? : Json → Option (Option EntityId)
  | .null => some none
  | j => j.int64?.map some

def tagOf? (id name weight : Json) : Option Entity := do
  let id ← decodeId? id
  let name ← name.text?
  let weight ← weight.float?
  some ⟨tag, id, [("name", .value (.string name)), ("weight", .value (.float weight))]⟩

def decodeTag? (row : Json) : Option Entity :=
  match row with
  | .array [id, name, weight] => tagOf? id name weight
  | .object _ => do
    tagOf? ((row.member? "id").getD .null) (← row.member? "name") (← row.member? "weight")
  | _ => none

/-- Tags in the table of tags. -/
def tagRows : RowFormat := ⟨tag, encodeTag, decodeTag?⟩

end EntityStore.Samples
