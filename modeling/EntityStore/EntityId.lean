import EntityStore.Text.Integer

/-!
# Entity ids

An entity is identified within its type by a signed 64-bit number, which the store assigns in
ascending order and never twice. Entities exist without one until then.
-/

namespace EntityStore

/-- An id assigned by a store. -/
abbrev EntityId := Int64

namespace EntityId

/-- The largest id there is. -/
def last : EntityId := Int64.maxValue

/-- The id after this one, unless the sequence is exhausted. -/
def next? (id : EntityId) : Option EntityId := if id = last then none else some (id + 1)

/-- The later one of two ids. -/
def later (a b : EntityId) : EntityId := if a.toInt < b.toInt then b else a

def toText (id : EntityId) : String := Text.writeInt64 id

end EntityId

end EntityStore
