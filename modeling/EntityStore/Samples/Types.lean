import EntityStore.Entity.Basic

/-!
# Sample entity types

Four types that between them show every shape an attribute can take. People and notes refer to
each other and people to themselves; tags are flat and can be stored as rows; events have columns
named unlike their attributes, kinds of every sort, an attribute that is declared and cannot be
read, a relation without a target and a to-many relation without a remote column.
-/

namespace EntityStore.Samples

/-- A terminal attribute whose column and stored field bear its name. -/
def terminal (name : String) (kind : ValueKind) : Attribute :=
  ⟨name, .terminal (some kind), name, some name⟩

def toOne (name column target : String) : Attribute :=
  ⟨name, .toOne (some target), column, some name⟩

def toMany (name remoteColumn target : String) : Attribute :=
  ⟨name, .toMany (some target) (some remoteColumn), name, some name⟩

/-- The characters of a stored text, none when the field holds none. -/
def storedText? (field : String → Option Field) (name : String) : Option String :=
  match field name with
  | some (.value v) => v.text?
  | _ => none

/-- People: the nickname doubles as the slug and is usually given later. -/
def person : EntityType where
  name := "person"
  table := "people"
  idColumn := "id"
  attributes :=
    [ terminal "id" .int, terminal "name" .string, terminal "age" .int,
      terminal "nickname" .string, toOne "parent" "parent_id" "person",
      toMany "notes" "author_id" "note" ]
  slugAttribute := some "nickname"
  slug := fun _ field => storedText? field "nickname"

/-- Notes have no slug. -/
def note : EntityType where
  name := "note"
  table := "notes"
  idColumn := "id"
  attributes :=
    [terminal "id" .int, terminal "text" .string, toOne "author" "author_id" "person"]
  slugAttribute := none
  slug := fun _ _ => none

/-- Tags are flat; the name is the slug. -/
def tag : EntityType where
  name := "tag"
  table := "tags"
  idColumn := "id"
  attributes := [terminal "id" .int, terminal "name" .string, terminal "weight" .float]
  slugAttribute := some "name"
  slug := fun _ field => storedText? field "name"

/-- Events: the slug is derived from the title and stored nowhere. -/
def event : EntityType where
  name := "event"
  table := "ev\"ents"
  idColumn := "event_pk"
  attributes :=
    [ ⟨"id", .terminal (some .int), "event_pk", some "id"⟩,
      ⟨"title", .terminal (some .string), "the \"title\"", some "title"⟩,
      terminal "active" .bool,
      terminal "at" .timestamp,
      terminal "link" .url,
      terminal "score" .float,
      ⟨"any", .terminal none, "any", some "any"⟩,
      ⟨"ghost", .terminal (some .string), "ghost", none⟩,
      toOne "owner" "owner_fk" "person",
      toOne "whole" "whole_fk" "event",
      ⟨"orphan", .toOne none, "orphan_fk", none⟩,
      toMany "parts" "whole_fk" "event",
      ⟨"loose", .toMany (some "event") none, "loose", some "parts"⟩ ]
  slugAttribute := none
  slug := fun _ field =>
    match storedText? field "title" with
    | some title => if title = "" then none else some ("ev-" ++ title)
    | none => none

def all : List EntityType := [person, note, tag, event]

def find? (name : String) : Option EntityType := all.find? fun t => t.name == name

/-- The field in which entities of a type hold children, the type of these, and the field in
which they refer back. -/
def childField? : String → Option (String × String × String)
  | "person" => some ("notes", "note", "author")
  | "event" => some ("parts", "event", "whole")
  | _ => none

/-- The stored fields of a new entity of a sample type. -/
def defaults (type : String) : List (String × Field) :=
  match type with
  | "person" =>
    [ ("name", .value (.string "")), ("age", .value (.int 0)), ("nickname", .value .null),
      ("parent", .one none), ("notes", .many []) ]
  | "note" => [("text", .value (.string "")), ("author", .one none)]
  | "tag" => [("name", .value (.string "")), ("weight", .value (.float Binary64.zero))]
  | "event" =>
    [ ("title", .value (.string "")), ("active", .value .null), ("at", .value .null),
      ("link", .value .null), ("score", .value .null), ("any", .value .null),
      ("owner", .one none), ("whole", .one none), ("parts", .many []) ]
  | _ => []

/-- A new entity of a sample type, without an id. -/
def blank (type : EntityType) : Entity := ⟨type, none, defaults type.name⟩

end EntityStore.Samples
