import EntityStore.Collection.Basic
import EntityStore.Collection.View
import EntityStore.Entity.Basic
import EntityStore.Select.OfSpec
import EntityStore.StoreError

/-!
# Collections over a table

The entities of one type as the rows of a table, reached through a connection. Every read is one
query, made of the view's filter, order and window. Look-ups by a key ask for two rows: one too
many is enough to know that the key is not unique. A slug that is stored in no column is looked
for by fetching all rows that pass the filter.
-/

namespace EntityStore

/-- What executes queries and changes rows, with a state of its own. -/
structure Connection (σ : Type) where
  fetch : Select → σ → Except StoreError (List Entity) × σ
  /-- The number of rows that pass the filter of a query. -/
  count : Select → σ → Except StoreError Nat × σ
  /-- Insert a row; returns the id it got. -/
  insert : Entity → σ → Except StoreError EntityId × σ
  /-- Delete a row; returns whether there was one. -/
  delete : EntityId → σ → Except StoreError Bool × σ
  /-- Update a row; returns whether there was one. -/
  update : Entity → σ → Except StoreError Bool × σ

/-- The entities at hand and the state of a connection. -/
structure Link (σ : Type) where
  pool : Pool
  connection : σ

/-- A step over a connection. -/
abbrev LinkM (σ : Type) := ExceptT StoreError (StateM (Link σ))

/-- The rows of a table as a collection of entities. -/
structure TableCollection (σ : Type) where
  type : EntityType
  schema : Schema
  connection : Connection σ
  view : View

namespace TableCollection

variable {σ : Type}

/-! ## Parts of a step -/

/-- A call to the connection. -/
def call (f : σ → Except StoreError α × σ) : LinkM σ α := do
  let l ← get
  let (outcome, connection) := f l.connection
  set { l with connection }
  ofExcept outcome

/-- Give fetched entities handles. -/
def share (entities : List Entity) : LinkM σ (List Handle) := do
  let l ← get
  let (handles, pool) := l.pool.allocAll entities
  set { l with pool }
  return handles

def fetch (c : TableCollection σ) (q : Select) : LinkM σ (List Entity) :=
  call (c.connection.fetch q)

/-- A query for entities of the type. -/
def query (c : TableCollection σ) (filter : Option FilterSpec) (order : Option OrderSpec)
    (window : Option Window) : LinkM σ Select :=
  ofExcept ((Select.ofSpecs c.schema c.type.name filter order window).mapError .query)

/-- Both of two filters, where the first may be missing. -/
def narrow (filter : Option FilterSpec) (extra : FilterSpec) : FilterSpec :=
  match filter with
  | some f => f.and extra
  | none => extra

/-- The window of a look-up by a unique key. -/
def uniqueWindow : Window := ⟨0, 2⟩

/-- The only one of the rows that a key was looked up in. -/
def only (c : TableCollection σ) (key : String) (rows : List Entity) : LinkM σ (Option Handle) :=
  match rows with
  | [] => return none
  | [e] => return (← share [e]).head?
  | _ => throw (.duplicateResult c.type.name key)

/-- Look up a key that is stored in an attribute. -/
def findByAttribute (c : TableCollection σ) (filter : Option FilterSpec) (name : String)
    (value : Value) (key : String) : LinkM σ (Option Handle) := do
  let q ← c.query (some (narrow filter (.single .equalTo name value))) none (some uniqueWindow)
  c.only key (← c.fetch q)

def findById (c : TableCollection σ) (filter : Option FilterSpec) (id : EntityId) :
    LinkM σ (Option Handle) :=
  c.findByAttribute filter idField (.int id) id.toText

def findBySlug (c : TableCollection σ) (filter : Option FilterSpec) (slug : String) :
    LinkM σ (Option Handle) := do
  match c.type.slugAttribute with
  | some name => c.findByAttribute filter name (.string slug) slug
  | none =>
    let rows ← c.fetch (← c.query filter none none)
    c.only slug (rows.filter fun e => e.slug == some slug)

/-! ## Reading -/

/-- How many rows pass the filter. -/
def count (c : TableCollection σ) : LinkM σ Nat := do
  let q ← c.query c.view.filter none none
  if c.view.suppressed then return 0
  call (c.connection.count q)

/-- The entities of the view: filtered, then ordered, then windowed. -/
def items (c : TableCollection σ) : LinkM σ (List Handle) := do
  let q ← c.query c.view.filter c.view.order c.view.window
  if c.view.suppressed then return []
  share (← c.fetch q)

def getById (c : TableCollection σ) (id : EntityId) : LinkM σ (Option Handle) :=
  c.findById c.view.filter id

def getBySlug (c : TableCollection σ) (slug : String) : LinkM σ (Option Handle) :=
  c.findBySlug c.view.filter slug

/-! ## Changing -/

/-- Fail if there is a row with the id of an entity. -/
def checkId (c : TableCollection σ) (e : Entity) : LinkM σ Unit := do
  match e.id with
  | some id =>
    if (← c.findById none id).isSome then throw (.duplicateId c.type.name id)
  | none => return

/-- Fail if there is a row with the slug of an entity. -/
def checkSlug (c : TableCollection σ) (e : Entity) : LinkM σ Unit := do
  match e.slug with
  | some slug =>
    if (← c.findBySlug none slug).isSome then throw (.duplicateSlug c.type.name slug)
  | none => return

/-- Insert an entity whose keys are free in the whole table; it gets the id of its row. -/
def add (c : TableCollection σ) (h : Handle) : LinkM σ Unit := do
  let e := (← get).pool.entity h
  c.checkId e
  c.checkSlug e
  let id ← call (c.connection.insert e)
  modify fun l => { l with pool := l.pool.edit h fun e => e.setId (some id) }

/-- The id of an entity, without which it can have no row. -/
def requiredId (c : TableCollection σ) (e : Entity) : LinkM σ EntityId :=
  match e.id with
  | some id => return id
  | none => throw (.notFound c.type.name none)

/-- Delete the row of an entity. -/
def remove (c : TableCollection σ) (h : Handle) : LinkM σ Unit := do
  let id ← c.requiredId ((← get).pool.entity h)
  unless ← call (c.connection.delete id) do throw (.notFound c.type.name (some id))

/-- Write an entity over its row. -/
def update (c : TableCollection σ) (h : Handle) : LinkM σ Unit := do
  let e := (← get).pool.entity h
  let id ← c.requiredId e
  unless ← call (c.connection.update e) do throw (.notFound c.type.name (some id))

/-- The operations of a collection over a table. -/
def toCollection (c : TableCollection σ) : Collection (LinkM σ) where
  count := c.count
  items := c.items
  getById := c.getById
  getBySlug := c.getBySlug
  add := c.add
  remove := c.remove
  update := c.update

end TableCollection

end EntityStore
