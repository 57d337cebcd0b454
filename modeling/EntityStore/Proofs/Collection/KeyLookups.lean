import EntityStore.Proofs.Collection.PlainTable
import EntityStore.Proofs.Order.Consistency
import EntityStore.Proofs.Select.Agreement
import EntityStore.Proofs.Session.Finding

/-!
# Looking keys up in a table

A key that is stored in a column is looked up by one query: the filter of the view, narrowed by a
criterion for the key, for two rows at most. A slug that is derived from other fields is in no column;
all rows that pass the filter are fetched for it, and their slugs compared. **Either way the answer goes
by the rows that pass the filter and hold the key**: there is none, or it is the only one, or there are
several and that is an error. It is no matter how many of them the query was cut down to, nor in what
order or through what window the view shows its rows.
-/

namespace EntityStore

/-! ## Queries without an order -/

/-- Whether a row passes an optional condition. -/
def Tables.passes (tables : Tables) (condition : Option Condition) (row : Row) : Bool :=
  condition.all fun c => c.isTrue tables [(rootLabel, row)]

namespace Select

/-- The query for the rows of a type that pass a condition, as they come. -/
def unordered (t : EntityType) (condition : Option Condition) (window : Option Window) : Select where
  table := t.table
  label := rootLabel
  joins := []
  filter := condition
  orderBy := []
  offset := window.map (·.offset)
  limit := window.map (·.limit)

theorem ofSpecs_unordered {schema : Schema} {t : EntityType} {filter : Option FilterSpec}
    {condition : Option Condition} (ht : schema.find? t.name = some t)
    (hfilter : Condition.ofFilter? schema t.name filter = .ok condition) (window : Option Window) :
    ofSpecs schema t.name filter none window = .ok (unordered t condition window) := by
  rw [ofSpecs, Schema.require, ht]
  dsimp only
  rw [hfilter]
  rfl

/-- Without an order rows come as they are in the table. -/
theorem run_unordered (t : EntityType) (condition : Option Condition) (window : Option Window)
    (tables : Tables) :
    (unordered t condition window).run tables
      = Window.sliceIn ((tables t.table).filter (tables.passes condition)) window := by
  have hmatching : (unordered t condition window).matching tables
      = ((tables t.table).filter (tables.passes condition)).map
        fun row => (row, [(rootLabel, row)]) := by
    cases condition with
    | none => rfl
    | some c => rfl
  have hsort : Sorting.sort (fun a b : Row × RowEnv => compareBy a.2 b.2 [])
        ((unordered t condition window).matching tables)
      = (unordered t condition window).matching tables :=
    Sorting.sort_of_not_lt (fun a b hlt => by cases hlt) _
  rw [@run_eq_sliceIn (unordered t condition window) window rfl rfl tables]
  show (Window.sliceIn (Sorting.sort (fun a b => compareBy a.2 b.2 [])
    ((unordered t condition window).matching tables)) window).map Prod.fst = _
  rw [hsort, hmatching, sliceIn_map, List.map_map]
  exact List.map_id _

end Select

/-! ## Filters that are narrowed -/

namespace Condition

variable {schema : Schema} {root : String} {used used' used'' : Nat} {f extra : FilterSpec}
  {fs : List FilterSpec} {cs : List Condition} {c : Condition}

theorem ofFilters_append_singleton (hfs : ofFilters schema root used fs = .ok (cs, used'))
    (hextra : ofFilter schema root used' extra = .ok (c, used'')) :
    ofFilters schema root used (fs ++ [extra]) = .ok (cs ++ [c], used'') := by
  induction fs generalizing used cs with
  | nil =>
    obtain ⟨rfl, rfl⟩ := Prod.mk.inj (Except.ok.inj hfs)
    simp only [List.nil_append, ofFilters, hextra]
  | cons g rest ih =>
    rw [ofFilters] at hfs
    rcases hg : ofFilter schema root used g with e | ⟨d, between⟩
    · rw [hg] at hfs
      cases hfs
    · rw [hg] at hfs
      rcases hrest : ofFilters schema root between rest with e | ⟨ds, after⟩
      · simp only [hrest] at hfs
        cases hfs
      · simp only [hrest] at hfs
        obtain ⟨rfl, rfl⟩ := Prod.mk.inj (Except.ok.inj hfs)
        simp only [List.cons_append, ofFilters, hg, ih hrest]

theorem isTrue_and (cs : List Condition) (tables : Tables) (env : RowEnv) :
    (Condition.and cs).isTrue tables env = cs.all fun c => c.isTrue tables env := by
  refine Bool.eq_iff_iff.mpr ?_
  simp only [isTrue, beq_iff_eq, truth_and, List.all_eq_true]

/-- The children that a filter contributes to a conjunction say together what the filter says. -/
theorem ofFilters_conjuncts (hf : ofFilter schema root used f = .ok (c, used')) :
    ∃ cs, ofFilters schema root used f.conjuncts = .ok (cs, used') ∧
      ∀ tables env, (cs.all fun d => d.isTrue tables env) = c.isTrue tables env := by
  have halone : ofFilters schema root used [f] = .ok ([c], used') := by
    simp only [ofFilters, hf]
  cases f with
  | conjunction children =>
    rw [ofFilter] at hf
    rcases hchildren : ofFilters schema root used children with e | ⟨cs, after⟩
    · rw [hchildren] at hf
      cases hf
    · rw [hchildren] at hf
      obtain ⟨rfl, rfl⟩ := Prod.mk.inj (Except.ok.inj hf)
      exact ⟨cs, hchildren, fun tables env => (isTrue_and cs tables env).symm⟩
  | criterion _ | disjunction _ | negation _ =>
    exact ⟨[c], halone, fun tables env => by rw [List.all_cons, List.all_nil, Bool.and_true]⟩

/-- Wrapped up, unless there is only one, children say what they say together. -/
theorem ofFilter_collapse (hfs : ofFilters schema root used fs = .ok (cs, used')) :
    ∃ c, ofFilter schema root used (FilterSpec.collapse .conjunction fs) = .ok (c, used') ∧
      ∀ tables env, c.isTrue tables env = cs.all fun d => d.isTrue tables env := by
  have hwrapped : ofFilter schema root used (.conjunction fs) = .ok (.and cs, used') := by
    rw [ofFilter, hfs]
  match fs with
  | [] | _ :: _ :: _ => exact ⟨.and cs, hwrapped, isTrue_and cs⟩
  | [only] =>
    rw [ofFilters] at hfs
    rcases honly : ofFilter schema root used only with e | ⟨c, after⟩
    · rw [honly] at hfs
      cases hfs
    · rw [honly] at hfs
      obtain ⟨rfl, rfl⟩ := Prod.mk.inj (Except.ok.inj hfs)
      exact ⟨c, honly, fun tables env => by rw [List.all_cons, List.all_nil, Bool.and_true]⟩

/-- **Narrowing a filter**: where a filter and a criterion compile, so does what is made of both, and
its condition is true where both their conditions are. -/
theorem ofFilter?_narrow {filter : Option FilterSpec} {condition : Option Condition}
    {criterion : Criterion} (hfilter : ofFilter? schema root filter = .ok condition)
    (hextra : ∀ used, ofFilter schema root used (.criterion criterion) = .ok (c, used)) :
    ∃ narrowed, ofFilter? schema root
        (some (TableCollection.narrow filter (.criterion criterion))) = .ok (some narrowed) ∧
      ∀ tables env, narrowed.isTrue tables env
        = ((condition.all fun d => d.isTrue tables env) && c.isTrue tables env) := by
  cases filter with
  | none =>
    obtain rfl := Except.ok.inj hfilter
    refine ⟨c, ?_, fun tables env => (Bool.true_and _).symm⟩
    show ofFilter? schema root (some (.criterion criterion)) = _
    rw [ofFilter?, hextra]
  | some f =>
    rw [ofFilter?] at hfilter
    rcases hf : ofFilter schema root 0 f with e | ⟨d, used'⟩
    · rw [hf] at hfilter
      cases hfilter
    · rw [hf] at hfilter
      obtain rfl := Except.ok.inj hfilter
      obtain ⟨cs, hcs, hd⟩ := ofFilters_conjuncts hf
      obtain ⟨narrowed, hnarrowed, htrue⟩ :=
        ofFilter_collapse (ofFilters_append_singleton hcs (hextra used'))
      refine ⟨narrowed, ?_, fun tables env => ?_⟩
      · have hall : TableCollection.narrow (some f) (.criterion criterion)
            = FilterSpec.collapse .conjunction (f.conjuncts ++ [.criterion criterion]) := by
          rw [TableCollection.narrow, FilterSpec.and, FilterSpec.all, List.flatMap_cons]
          rfl
        rw [ofFilter?, hall, hnarrowed]
      · rw [htrue, List.all_append, hd, List.all_cons, List.all_nil, Bool.and_true, Option.all_some]

end Condition

/-! ## Keys in columns -/

/-- Whether an entity holds the key. -/
def LookupKey.isOf (key : LookupKey) (e : Entity) : Bool :=
  match key with
  | .byId id => e.id == some id
  | .bySlug slug => e.slug == some slug

/-- The attribute that stores the key, if any does, and the value it has then. -/
def LookupKey.stored? (t : EntityType) : LookupKey → Option (String × Value)
  | .byId id => some (idField, .int id)
  | .bySlug slug => t.slugAttribute.map fun name => (name, .string slug)

/-- An attribute with a column that takes the given values. -/
structure EntityType.IsColumn (t : EntityType) (schema : Schema) (name : String) (a : Attribute)
    (values : Set Value) : Prop where
  path : schema.resolve t.name name = .ok [⟨a, t⟩]
  kind : ∃ kind, a.kind = .terminal kind ∧ ∀ k ∈ kind, ∀ v ∈ values, k.accepts v = true

/-- Rows of a type, with the entities that are read from them: the attribute for the id stores their
ids and, if there is one, the attribute for the slug stores their slugs. -/
structure EntityType.KeysStored (t : EntityType) (schema : Schema) (read : Row → Entity)
    (rows : List Row) : Prop where
  registered : schema.find? t.name = some t
  id : ∃ a, t.IsColumn schema idField a (Set.range Value.int) ∧
    ∀ row ∈ rows, row.value a.column = Value.ofId (read row).id
  slug : ∀ name ∈ t.slugAttribute, ∃ a, t.IsColumn schema name a (Set.range Value.string) ∧
    ∀ row ∈ rows, (row.value a.column).text? = (read row).slug

/-- Comparing the column of a stored key is looking at the entities. -/
theorem EntityType.KeysStored.column {t : EntityType} {schema : Schema} {read : Row → Entity}
    {rows : List Row} (h : t.KeysStored schema read rows) {key : LookupKey} {name : String}
    {value : Value} (hkey : key.stored? t = some (name, value)) :
    ∃ c : Condition, (∀ used, Condition.ofFilter schema t.name used (.single .equalTo name value)
        = .ok (c, used)) ∧
      ∀ tables, ∀ row ∈ rows, c.isTrue tables [(rootLabel, row)] = key.isOf (read row) := by
  cases key with
  | byId id =>
    obtain ⟨rfl, rfl⟩ := Prod.mk.inj (Option.some.inj hkey)
    obtain ⟨a, hcolumn, hcell⟩ := h.id
    obtain ⟨kind, hkind, haccepts⟩ := hcolumn.kind
    refine ⟨.compare ⟨rootLabel, a.column⟩ .eq (.int id), ?_, fun tables row hrow => ?_⟩
    · exact ofFilter_key hcolumn.path ⟨kind, hkind, fun k hk => haccepts k hk _ ⟨id, rfl⟩⟩ nofun
    · rw [isTrue_key, hcell row hrow, Value.agrees_ofId]
      rfl
  | bySlug slug =>
    obtain ⟨name', hname, heq⟩ := Option.map_eq_some_iff.mp hkey
    obtain ⟨rfl, rfl⟩ := Prod.mk.inj heq
    obtain ⟨a, hcolumn, hcell⟩ := h.slug name' hname
    obtain ⟨kind, hkind, haccepts⟩ := hcolumn.kind
    refine ⟨.compare ⟨rootLabel, a.column⟩ .eq (.string slug), ?_, fun tables row hrow => ?_⟩
    · exact ofFilter_key hcolumn.path ⟨kind, hkind, fun k hk => haccepts k hk _ ⟨slug, rfl⟩⟩ nofun
    · rw [isTrue_key, Value.agrees_of_text (v := .string slug) rfl, hcell row hrow]
      rfl

/-! ## Looking up -/

/-- A connection that answers queries by their meaning: the rows come from the tables of its state, and
an entity is read from each. What it notes of a query is its own affair. -/
def Connection.FetchesBy {σ : Type} (connection : Connection σ) (tables : σ → Tables)
    (read : Row → Entity) (note : Select → σ → σ) : Prop :=
  ∀ q s, connection.fetch q s = (.ok ((q.run (tables s)).map read), note q s)

namespace TableCollection

variable {σ : Type}

/-- Look up by a key of either kind. -/
def lookUp (c : TableCollection σ) : LookupKey → LinkM σ (Option Handle)
  | .byId id => c.getById id
  | .bySlug slug => c.getBySlug slug

/-- The filter and the window of the query that a look-up makes. -/
def asked (c : TableCollection σ) (key : LookupKey) : Option FilterSpec × Option Window :=
  match key.stored? c.type with
  | some (name, value) =>
    (some (narrow c.view.filter (.single .equalTo name value)), some uniqueWindow)
  | none => (c.view.filter, none)

/-- What a look-up is due to answer, given the entities that hold the key: the only one is given a
handle. -/
def due (type : String) (key : LookupKey) (pool : Pool) :
    List Entity → Except StoreError (Option Handle) × Pool
  | [] => (.ok none, pool)
  | [e] => (.ok (some (pool.alloc e).1), (pool.alloc e).2)
  | _ => (.error (.duplicateResult type key.text), pool)

/-- The entities that are read from the rows which pass a condition and hold a key. -/
def holders (t : EntityType) (tables : Tables) (read : Row → Entity) (condition : Option Condition)
    (key : LookupKey) : List Entity :=
  (((tables t.table).filter (tables.passes condition)).map read).filter key.isOf

/-- Two of the entities that hold a key are enough to tell. -/
theorem due_take (type : String) (key : LookupKey) (pool : Pool) (es : List Entity) :
    due type key pool (es.take 2) = due type key pool es := by
  match es with
  | [] => rfl
  | [_] => rfl
  | _ :: _ :: _ => rfl

variable {c : TableCollection σ} {key : LookupKey} {tables : σ → Tables} {read : Row → Entity}
  {note : Select → σ → σ} {condition : Option Condition}

theorem exec_only_eq_due (c : TableCollection σ) (key : LookupKey) (pool : Pool) (s : σ)
    (es : List Entity) : exec (c.only key.text es) ⟨pool, s⟩
      = ((due c.type.name key pool es).1, ⟨(due c.type.name key pool es).2, s⟩) := by
  match es with
  | [] => rfl
  | [_] => rfl
  | _ :: _ :: _ => rfl

theorem exec_query {filter : Option FilterSpec} {order : Option OrderSpec} {window : Option Window}
    {q : Select} (hq : Select.ofSpecs c.schema c.type.name filter order window = .ok q) (l : Link σ) :
    exec (c.query filter order window) l = (.ok q, l) := by
  unfold query
  rw [exec_ofExcept, hq]
  rfl

theorem exec_fetch (hfetch : c.connection.FetchesBy tables read note) (q : Select) (pool : Pool)
    (s : σ) : exec (c.fetch q) ⟨pool, s⟩ = (.ok ((q.run (tables s)).map read), ⟨pool, note q s⟩) :=
  exec_call (hfetch q s)

theorem lookUp_of_stored {name : String} {value : Value}
    (hkey : key.stored? c.type = some (name, value)) :
    c.lookUp key = c.findByAttribute c.view.filter name value key.text := by
  cases key with
  | byId id =>
    obtain ⟨rfl, rfl⟩ := Prod.mk.inj (Option.some.inj hkey)
    rfl
  | bySlug slug =>
    obtain ⟨name', hname, heq⟩ := Option.map_eq_some_iff.mp hkey
    obtain ⟨rfl, rfl⟩ := Prod.mk.inj heq
    show c.findBySlug c.view.filter slug = _
    unfold findBySlug
    rw [hname]
    rfl

theorem lookUp_of_derived (hkey : key.stored? c.type = none) :
    c.lookUp key = c.query c.view.filter none none >>= fun q => c.fetch q >>= fun rows =>
      c.only key.text (rows.filter key.isOf) := by
  cases key with
  | byId id => cases hkey
  | bySlug slug =>
    show c.findBySlug c.view.filter slug = _
    unfold findBySlug
    rw [Option.map_eq_none_iff.mp hkey]
    rfl

/-- **A look-up goes by the rows that pass the filter and hold the key.** It makes one query: for two
rows, if the key is stored in a column, and else for all that pass. Whatever the filter is, as long as
it compiles, and whatever is in the table, the answer is none, the only such row's entity or an error.
The order and the window of the view make no difference. -/
theorem lookUp_eq_due (hfetch : c.connection.FetchesBy tables read note) {s : σ}
    (hkeys : c.type.KeysStored c.schema read (tables s c.type.table))
    (hfilter : Condition.ofFilter? c.schema c.type.name c.view.filter = .ok condition)
    (key : LookupKey) (pool : Pool) :
    let answer := due c.type.name key pool (holders c.type (tables s) read condition key)
    (∃ q, Select.ofSpecs c.schema c.type.name (c.asked key).1 none (c.asked key).2 = .ok q ∧
      exec (c.lookUp key) ⟨pool, s⟩ = (answer.1, ⟨answer.2, note q s⟩)) ∧
    ∀ order window, exec (lookUp { c with view := { c.view with order, window } } key) ⟨pool, s⟩
      = exec (c.lookUp key) ⟨pool, s⟩ := by
  refine ⟨?_, fun order window => by cases key <;> rfl⟩
  unfold asked
  cases hkey : key.stored? c.type with
  | none =>
    have hq := Select.ofSpecs_unordered hkeys.registered hfilter none
    refine ⟨_, hq, ?_⟩
    rw [lookUp_of_derived hkey]
    simp only [exec_bind, exec_query hq, exec_fetch hfetch, exec_only_eq_due, Select.run_unordered]
    rfl
  | some stored =>
    obtain ⟨name, value⟩ := stored
    obtain ⟨compared, hcompared, htrue⟩ := hkeys.column hkey
    obtain ⟨narrowed, hnarrowed, hboth⟩ := Condition.ofFilter?_narrow hfilter hcompared
    have hq := Select.ofSpecs_unordered hkeys.registered hnarrowed (some uniqueWindow)
    refine ⟨_, hq, ?_⟩
    have hrows : ((tables s c.type.table).filter ((tables s).passes (some narrowed))).map read
        = holders c.type (tables s) read condition key := by
      rw [holders, List.filter_map, List.filter_filter]
      refine congrArg (List.map read) (List.filter_congr fun row hrow => ?_)
      rw [Function.comp_apply, ← htrue (tables s) row hrow, Bool.and_comm]
      exact hboth (tables s) [(rootLabel, row)]
    have hquery : exec (c.query (some (narrow c.view.filter (.single .equalTo name value))) none
        (some uniqueWindow)) ⟨pool, s⟩
        = (.ok (Select.unordered c.type (some narrowed) (some uniqueWindow)), ⟨pool, s⟩) :=
      exec_query hq _
    rw [lookUp_of_stored hkey, ← hrows, ← due_take]
    unfold findByAttribute
    simp only [exec_bind, hquery, exec_fetch hfetch, exec_only_eq_due, Select.run_unordered]
    rw [← List.map_take]
    rfl

open Samples

/-- Tables that can only be read, behind a log of what has been asked. -/
def logged (tables : Tables) (read : Row → Entity) : Connection (List Select) where
  fetch q log := (.ok ((q.run tables).map read), log ++ [q])
  count q log := (.ok (q.runCount tables), log)
  insert _ log := (.error (.connection "read only"), log)
  delete _ log := (.error (.connection "read only"), log)
  update _ log := (.error (.connection "read only"), log)

/-- Two tags of the id 1, a red one and a blue one, and another red one; and two events. -/
def colliding : Tables
  | "tags" =>
    [ [("id", .int 1), ("name", .string "red")], [("id", .int 1), ("name", .string "blue")],
      [("id", .int 2), ("name", .string "red")] ]
  | "ev\"ents" =>
    [ [("event_pk", .int 1), ("the \"title\"", .string "lunch")],
      [("event_pk", .int 2), ("the \"title\"", .string "tea")] ]
  | _ => []

/-- An id that stands in a cell. -/
def idIn : Value → Option EntityId
  | .int id => some id
  | _ => none

def readTag (row : Row) : Entity :=
  ((blank tag).setId (idIn (row.value "id"))).set "name" (.value (row.value "name"))

def readEvent (row : Row) : Entity :=
  ((blank event).setId (idIn (row.value "event_pk"))).set "title"
    (.value (row.value "the \"title\""))

theorem keysStored_tags :
    tag.KeysStored (.ofList Samples.all) readTag (colliding tag.table) where
  registered := rfl
  id := by
    refine ⟨terminal "id" .int, ⟨by cbv, some .int, rfl, ?_⟩, by decide +kernel⟩
    rintro k ⟨⟩ _ ⟨id, rfl⟩
    rfl
  slug := by
    rintro name ⟨⟩
    refine ⟨terminal "name" .string, ⟨by cbv, some .string, rfl, ?_⟩, by decide +kernel⟩
    rintro k ⟨⟩ _ ⟨slug, rfl⟩
    rfl

theorem keysStored_events :
    event.KeysStored (.ofList Samples.all) readEvent (colliding event.table) where
  registered := rfl
  id := by
    refine ⟨⟨"id", .terminal (some .int), "event_pk", some "id"⟩, ⟨by cbv, some .int, rfl, ?_⟩,
      by decide +kernel⟩
    rintro k ⟨⟩ _ ⟨id, rfl⟩
    rfl
  slug := nofun

/-- The tags that are not blue. -/
def notBlue : TableCollection (List Select) :=
  ⟨tag, .ofList Samples.all, logged colliding readTag,
    { View.all with filter := some (.single .notEqualTo "name" (.string "blue")) }⟩

def events : TableCollection (List Select) :=
  ⟨event, .ofList Samples.all, logged colliding readEvent, .all⟩

/-- The id of two tags is that of the only one that is not blue; of two red tags none can be given;
and an event is found by a slug that is in no column. -/
theorem lookUp_eq_due_colliding :
    (exec (notBlue.lookUp (.byId 1)) ⟨.empty, []⟩).1 = .ok (some 0) ∧
      (exec (notBlue.lookUp (.bySlug "red")) ⟨.empty, []⟩).1
        = .error (.duplicateResult "tag" "red") ∧
      (exec (events.lookUp (.bySlug "ev-tea")) ⟨.empty, []⟩).1 = .ok (some 0) := by
  have hfilter : Condition.ofFilter? notBlue.schema "tag" notBlue.view.filter
      = .ok (some (.compare ⟨rootLabel, "name"⟩ .ne (.string "blue"))) := by cbv
  have hfetch : ∀ read, (logged colliding read).FetchesBy (fun _ => colliding) read
      fun q log => log ++ [q] := fun _ _ _ => rfl
  have htags := lookUp_eq_due (c := notBlue) (s := []) (hfetch readTag) keysStored_tags hfilter
  obtain ⟨⟨_, -, hone⟩, -⟩ := htags (.byId 1) .empty
  obtain ⟨⟨_, -, htwo⟩, -⟩ := htags (.bySlug "red") .empty
  obtain ⟨⟨_, -, hderived⟩, -⟩ := lookUp_eq_due (c := events) (s := []) (hfetch readEvent)
    keysStored_events rfl (.bySlug "ev-tea") .empty
  rw [hone, htwo, hderived]
  dsimp only
  decide +kernel

end TableCollection

end EntityStore
