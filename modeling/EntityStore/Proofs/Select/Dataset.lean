import EntityStore.Entity.Basic
import EntityStore.Filter.Check
import EntityStore.Proofs.Entity.Plain
import EntityStore.Select.Meaning

/-!
# Entities and the tables they are kept in

A dataset is a set of entities with the tables a store keeps them in. The tables are an image of
the entities when every row shows what its entity holds: terminals under their columns, a to-one
relation as the id of what it relates to, and a to-many relation through the rows that refer
back. Both backends are then asked about the same things.
-/

namespace EntityStore

/-- The schema knows the type, and under its own name. -/
def Schema.Registered (schema : Schema) (t : EntityType) : Prop := schema.find? t.name = some t

/-- Every relation of a registered type leads to a registered type. -/
def Schema.Closed (schema : Schema) : Prop :=
  ∀ t ∈ schema.types, ∀ a ∈ t.attributes, a.isRelation = true → ∃ u, schema.targetOf a = .ok u

theorem Schema.find?_name {schema : Schema} {name : String} {t : EntityType}
    (h : schema.find? name = some t) : t.name = name := by
  have hname := List.find?_some h
  simpa using hname

theorem Schema.registered_of_find? {schema : Schema} {name : String} {t : EntityType}
    (h : schema.find? name = some t) : schema.Registered t := by
  rw [Registered, Schema.find?_name h]
  exact h

theorem Schema.registered_of_lookup {schema : Schema} {name : String} {t : EntityType}
    (h : schema.lookup name = .ok t) : schema.Registered t ∧ t.name = name := by
  unfold lookup at h
  split at h
  case h_1 u hu =>
    obtain rfl := Except.ok.inj h
    exact ⟨registered_of_find? hu, find?_name hu⟩
  case h_2 => exact absurd h (by simp)

theorem Schema.registered_of_targetOf {schema : Schema} {a : Attribute} {t : EntityType}
    (h : schema.targetOf a = .ok t) : schema.Registered t := by
  unfold targetOf at h
  split at h
  · exact (registered_of_lookup h).1
  · exact absurd h (by simp)

theorem Schema.Closed.target {schema : Schema} (hs : schema.Closed) {t : EntityType}
    (ht : schema.Registered t) {a : Attribute} (ha : t.attribute? a.name = some a)
    (hrel : a.isTerminal = false) : ∃ u, schema.targetOf a = .ok u := by
  refine hs t (List.mem_of_find?_eq_some ht) a (List.mem_of_find?_eq_some ha) ?_
  rw [Attribute.isRelation, hrel]
  rfl

/-- Entities of several types, and the tables they are kept in. -/
structure Dataset where
  pool : Pool
  /-- The entities of a type, by its name. -/
  members : String → List Handle
  /-- The row of an entity. -/
  row : Handle → Row
  tables : Tables

namespace Dataset

variable (d : Dataset)

/-- What a column holds for the entity a to-one relation leads to. -/
def idOf : Option Handle → Value
  | some r => d.pool.idValue r
  | none => .null

/-- An entity can be read as a declared attribute says, and its row shows what is read. -/
inductive Shows (schema : Schema) (t : EntityType) (h : Handle) (a : Attribute) : Prop
  /-- A value of the declared kind, or null. -/
  | terminal (kind : ValueKind) (v : Value) (declared : a.kind = .terminal (some kind))
      (field : (d.pool.entity h).field? a.name = some (.value v))
      (kindOf : ∀ k, v.kind? = some k → k = kind) (number : v.isNaN = false)
      (cell : (d.row h).value a.column = v)
  /-- The id of the related entity. -/
  | toOne (target : Option String) (related : Option Handle) (declared : a.kind = .toOne target)
      (field : (d.pool.entity h).field? a.name = some (.one related))
      (present : ∀ r ∈ related, ∀ u, schema.targetOf a = .ok u → r ∈ d.members u.name)
      (cell : (d.row h).value a.column = d.idOf related)
  /-- The related entities are those whose rows refer back. -/
  | toMany (target remote : Option String) (related : List Handle)
      (declared : a.kind = .toMany target remote)
      (field : (d.pool.entity h).field? a.name = some (.many related))
      (refer : ∀ u, schema.targetOf a = .ok u → ∀ r, r ∈ related ↔
        r ∈ d.members u.name ∧
          ((d.row r).value (remote.getD a.column)).agrees (d.pool.idValue h) = true)

/-- The tables are an image of the entities. -/
structure Image (schema : Schema) : Prop where
  /-- One row for each entity, in the same order. -/
  rows : ∀ t, schema.Registered t → d.tables t.table = (d.members t.name).map d.row
  /-- Ids are not null. -/
  ids : ∀ t, schema.Registered t → ∀ h ∈ d.members t.name, ∃ id, d.pool.idValue h = .int id
  /-- No two entities of a type have the same id. -/
  unique : ∀ t, schema.Registered t → ((d.members t.name).map d.pool.idValue).Nodup
  /-- The id column shows the id. -/
  idCell : ∀ t, schema.Registered t → ∀ h ∈ d.members t.name,
    (d.row h).value t.idColumn = d.pool.idValue h
  /-- Every declared attribute is readable, and shown by the row. -/
  shown : ∀ t, schema.Registered t → ∀ h ∈ d.members t.name, ∀ a,
    t.attribute? a.name = some a → d.Shows schema t h a

end Dataset

end EntityStore
