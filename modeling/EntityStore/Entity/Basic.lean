import EntityStore.Schema.Basic

/-!
# Entities and the pool they live in

Entities are shared: a session's cache, a parent's collection and the caller may all hold the
same handle, and an edit through one of them is seen by all. The pool maps handles to entities;
handles are given out in order and never again.
-/

namespace EntityStore

/-- An entity: its type, its id once it has one, and its stored fields. -/
structure Entity where
  type : EntityType
  id : Option EntityId
  fields : List (String × Field)
  deriving Inhabited

namespace Entity

/-- A stored field by its name. The id is one of them. -/
def stored? (e : Entity) (name : String) : Option Field :=
  if name = idField then some (.value (Value.ofId e.id))
  else (e.fields.find? fun f => f.1 == name).map (·.2)

/-- What reading a declared attribute gives. -/
def field? (e : Entity) (name : String) : Option Field :=
  (e.type.attribute? name).bind fun a => a.source.bind e.stored?

def slug (e : Entity) : Option String := e.type.slug e.id e.stored?

def setId (e : Entity) (id : Option EntityId) : Entity := { e with id }

/-- Overwrite a field in a list of fields, or append it. -/
def putField (name : String) (value : Field) : List (String × Field) → List (String × Field)
  | [] => [(name, value)]
  | (k, v) :: rest => if k = name then (name, value) :: rest else (k, v) :: putField name value rest

/-- Overwrite a stored field. The id has a field of its own. -/
def set (e : Entity) (name : String) (value : Field) : Entity :=
  { e with fields := putField name value e.fields }

end Entity

/-- All entities there are, by handle. -/
structure Pool where
  entity : Handle → Entity
  /-- The next handle to be given out. -/
  next : Handle

namespace Pool

def empty : Pool := ⟨fun _ => default, 0⟩

instance : Inhabited Pool := ⟨empty⟩

/-- Put an entity under a new handle. -/
def alloc (p : Pool) (e : Entity) : Handle × Pool :=
  (p.next, ⟨fun h => if h = p.next then e else p.entity h, p.next + 1⟩)

/-- Put several entities under new handles. -/
def allocAll (p : Pool) : List Entity → List Handle × Pool
  | [] => ([], p)
  | e :: rest =>
    let (h, p) := p.alloc e
    let (hs, p) := allocAll p rest
    (h :: hs, p)

/-- Overwrite the entity of a handle. -/
def write (p : Pool) (h : Handle) (e : Entity) : Pool :=
  { p with entity := fun k => if k = h then e else p.entity k }

/-- Edit the entity of a handle in place. -/
def edit (p : Pool) (h : Handle) (f : Entity → Entity) : Pool := p.write h (f (p.entity h))

/-- A new handle for a copy of an entity's current state. -/
def detach (p : Pool) (h : Handle) : Handle × Pool := p.alloc (p.entity h)

def id (p : Pool) (h : Handle) : Option EntityId := (p.entity h).id

def slug (p : Pool) (h : Handle) : Option String := (p.entity h).slug

/-- The name of the type of an entity. -/
def typeName (p : Pool) (h : Handle) : String := (p.entity h).type.name

/-- The id of an entity as its relations see it: through its attribute of that name. -/
def idValue (p : Pool) (h : Handle) : Value :=
  match (p.entity h).field? idField with
  | some (.value v) => v
  | _ => .null

/-- The first entity of a list that holds an id. -/
def holder? (p : Pool) (id : EntityId) (hs : List Handle) : Option Handle :=
  hs.find? fun h => p.id h == some id

/-- The entity of a list that a handle stands for: itself, or else the first of the same id. -/
def counterpart? (p : Pool) (h : Handle) (hs : List Handle) : Option Handle :=
  if hs.contains h then some h else (p.id h).bind fun id => p.holder? id hs

@[simp] theorem entity_write_self (p : Pool) (h : Handle) (e : Entity) :
    (p.write h e).entity h = e := by simp [write]

theorem entity_write_of_ne {p : Pool} {h k : Handle} {e : Entity} (hk : k ≠ h) :
    (p.write h e).entity k = p.entity k := by simp [write, hk]

@[simp] theorem entity_alloc_self (p : Pool) (e : Entity) :
    (p.alloc e).2.entity (p.alloc e).1 = e := by simp [alloc]

theorem entity_alloc_of_ne {p : Pool} {e : Entity} {k : Handle} (hk : k ≠ p.next) :
    (p.alloc e).2.entity k = p.entity k := by simp [alloc, hk]

end Pool

end EntityStore
