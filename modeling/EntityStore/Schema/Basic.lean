import EntityStore.EntityId
import EntityStore.Value.Basic

/-!
# Entity types and the schema

An entity type declares its attributes: terminals, which hold a value, and relations to one or to
many entities of another type. The schema is the list of types a query may walk through. Types
are known by their names, and a relation names its target, so a target may well be a type the
schema does not hold; that is found out when a path tries to go there.
-/

namespace EntityStore

/-- Address of a live entity. Whoever holds the same handle sees the same entity. -/
abbrev Handle := Nat

/-- What a field of an entity holds. -/
inductive Field
  | value (v : Value)
  | one (related : Option Handle)
  | many (related : List Handle)
  deriving DecidableEq, Inhabited

/-- What an attribute holds, as far as it is declared. -/
inductive AttributeKind
  | terminal (kind : Option ValueKind)
  | toOne (target : Option String)
  /-- `remoteColumn` is the column of the related rows that refers back. -/
  | toMany (target : Option String) (remoteColumn : Option String)
  deriving DecidableEq, Repr

def AttributeKind.name : AttributeKind → String
  | .terminal _ => "terminal"
  | .toOne _ => "to-one"
  | .toMany _ _ => "to-many"

/-- A declared attribute of an entity type. -/
structure Attribute where
  name : String
  kind : AttributeKind
  /-- The column on the table of the type itself. -/
  column : String
  /-- The stored field that reading the attribute gives; an attribute may be declared and yet
  not be readable. -/
  source : Option String
  deriving DecidableEq, Repr

namespace Attribute

def isTerminal (a : Attribute) : Bool :=
  match a.kind with
  | .terminal _ => true
  | _ => false

def isRelation (a : Attribute) : Bool := !a.isTerminal

def isToMany (a : Attribute) : Bool :=
  match a.kind with
  | .toMany _ _ => true
  | _ => false

/-- The kind of value that a terminal is declared to hold. -/
def valueKind? (a : Attribute) : Option ValueKind :=
  match a.kind with
  | .terminal kind => kind
  | _ => none

/-- The column of the related rows that refers back. -/
def remoteColumn? (a : Attribute) : Option String :=
  match a.kind with
  | .toMany _ column => column
  | _ => none

/-- The name of the related type. -/
def target? (a : Attribute) : Option String :=
  match a.kind with
  | .terminal _ => none
  | .toOne t => t
  | .toMany t _ => t

end Attribute

/-- The field that holds an entity's id. -/
def idField : String := "id"

/-- A declared entity type. -/
structure EntityType where
  name : String
  table : String
  idColumn : String
  attributes : List Attribute
  /-- The terminal attribute the slug is stored in, when it is stored at all. -/
  slugAttribute : Option String
  /-- The slug, a mnemonic key that may be derived from any of the entity's fields and is then
  known only once they are. -/
  slug : Option EntityId → (String → Option Field) → Option String

namespace EntityType

instance : Inhabited EntityType := ⟨⟨"", "", "", [], none, fun _ _ => none⟩⟩

def attribute? (t : EntityType) (name : String) : Option Attribute :=
  t.attributes.find? fun a => a.name == name

/-- The first attribute that shows a stored field. -/
def attributeOf? (t : EntityType) (field : String) : Option Attribute :=
  t.attributes.find? fun a => a.source == some field

end EntityType

/-! ## Failures of the schema -/

/-- Why a path does not lead to an attribute. -/
inductive PathFault
  | emptySegment
  | noAttribute (owner segment : String)
  | notTraversable (segment : String)
  deriving DecidableEq, Repr

/-- What can be wrong with a reference into the schema. -/
inductive SchemaError
  | invalidPath (entity path : String) (fault : PathFault)
  /-- A type asked for by name is not registered. -/
  | unknownType (name : String)
  /-- A type that a path starts from or leads to is not registered. -/
  | unregistered (name : String)
  | notARelation (name : String)
  | malformedId (fault : Text.IntegerFault)
  deriving DecidableEq, Repr

/-- The name of the kind of a failure. -/
def SchemaError.kind : SchemaError → String
  | .invalidPath .. => "InvalidAttribute"
  | .unknownType _ => "UnknownEntityType"
  | .unregistered _ => "UnknownEntityType"
  | .notARelation _ => "Validation"
  | .malformedId _ => "Validation"

def PathFault.message : PathFault → String
  | .emptySegment => "empty path segment"
  | .noAttribute owner segment => "`" ++ owner ++ "` has no attribute `" ++ segment ++ "`"
  | .notTraversable segment => "terminal attribute `" ++ segment ++ "` cannot be traversed"

def SchemaError.message : SchemaError → String
  | .invalidPath entity path fault =>
    "invalid attribute `" ++ path ++ "` on `" ++ entity ++ "`: " ++ fault.message
  | .unknownType name => "unknown entity type: " ++ name
  | .unregistered name => "unknown entity type: " ++ name
  | .notARelation name =>
    "validation failed: attribute `" ++ name ++ "` is not a relation"
  | .malformedId fault => "validation failed: EntityId: " ++ fault.message

/-- Read an id from its decimal text. -/
def EntityId.ofText (s : String) : Except SchemaError EntityId :=
  match Text.readInt64 s.toList with
  | .ok id => .ok id
  | .error fault => .error (.malformedId fault)

/-! ## The schema -/

/-- The registered entity types, no two of one name. -/
structure Schema where
  types : List EntityType

namespace Schema

def empty : Schema := ⟨[]⟩

/-- Put `t` in the place of the type of its name, or at the end. -/
def registerIn (t : EntityType) : List EntityType → List EntityType
  | [] => [t]
  | u :: rest => if u.name = t.name then t :: rest else u :: registerIn t rest

def register (s : Schema) (t : EntityType) : Schema := ⟨registerIn t s.types⟩

def ofList (types : List EntityType) : Schema := types.foldl register empty

def find? (s : Schema) (name : String) : Option EntityType := s.types.find? fun t => t.name == name

def contains (s : Schema) (name : String) : Bool := (s.find? name).isSome

def size (s : Schema) : Nat := s.types.length

/-- A type that a query names. -/
def require (s : Schema) (name : String) : Except SchemaError EntityType :=
  match s.find? name with
  | some t => .ok t
  | none => .error (.unknownType name)

/-- A type that a path starts from or leads to. -/
def lookup (s : Schema) (name : String) : Except SchemaError EntityType :=
  match s.find? name with
  | some t => .ok t
  | none => .error (.unregistered name)

/-- The type a relation leads to. -/
def targetOf (s : Schema) (a : Attribute) : Except SchemaError EntityType :=
  match a.target? with
  | some name => s.lookup name
  | none => .error (.notARelation a.name)

end Schema

end EntityStore
