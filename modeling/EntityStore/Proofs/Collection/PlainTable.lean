import EntityStore.Collection.OverTable
import EntityStore.Proofs.Entity.Agreeing
import EntityStore.Proofs.Repository.Lookups
import EntityStore.Proofs.Select.Filters
import EntityStore.Samples.Stores
import Mathlib.Data.List.Induction

/-!
# Keys in a table without constraints

A collection over a table looks keys up before it inserts a row, in the whole table and not only in
what it shows, so the ids and slugs of rows stay unique even where the table itself does not care.
Writing over a row looks nothing up. **Keys stay unique exactly as long as no row is written over
with a slug that another row has**; such an update is accepted, where a session refuses it.
-/

namespace EntityStore

/-- A table of entities of one type, as rows, without constraints. What it stands in for answers
queries by their meaning, keeps what it is given, and gives out ids that no row has. -/
structure PlainTable where
  type : EntityType
  /-- The row of an entity, and the entity read from one. -/
  row : Entity → Row
  read : Row → Entity
  /-- What is in the other tables. -/
  others : Tables
  /-- An id for a row that comes without one, while there are any. -/
  unused? : List Entity → Option EntityId
  fresh : ∀ {rows id}, unused? rows = some id → ∀ e ∈ rows, e.id ≠ some id

/-- What is asked of a collection: a change by a view of it, with the entities as they are then. -/
structure ChangeRequest where
  view : View
  pool : Pool
  kind : ChangeKind
  handle : Handle

def ChangeRequest.entity (r : ChangeRequest) : Entity := r.pool.entity r.handle

namespace PlainTable

variable (s : PlainTable)

/-- All tables, when this one has the given rows. -/
def tables (rows : List Entity) : Tables :=
  fun name => if name = s.type.table then rows.map s.row else s.others name

/-- The rows after an entity has been written over the row with its id. -/
def overwrite (rows : List Entity) (e : Entity) : List Entity :=
  rows.map fun r => if r.id = e.id then e else r

/-- The table as what a collection is reached through. -/
def connection : Connection (List Entity) where
  fetch q rows := (.ok ((q.run (s.tables rows)).map s.read), rows)
  count q rows := (.ok (q.runCount (s.tables rows)), rows)
  insert e rows :=
    match e.id with
    | some id => (.ok id, rows ++ [e])
    | none =>
      match s.unused? rows with
      | some id => (.ok id, rows ++ [e.setId (some id)])
      | none => (.error (.connection "no id left"), rows)
  delete id rows := (.ok (rows.any fun r => r.id == some id), rows.filter fun r => r.id != some id)
  update e rows := (.ok (rows.any fun r => r.id == e.id), overwrite rows e)

/-- A collection over the table. -/
def collection (schema : Schema) (view : View) : TableCollection (List Entity) :=
  ⟨s.type, schema, s.connection, view⟩

/-- The outcome of a request and the rows it leaves. -/
def serve (schema : Schema) (rows : List Entity) (r : ChangeRequest) :
    Except StoreError Unit × List Entity :=
  let ran := exec ((s.collection schema r.view).toCollection.change r.kind r.handle) ⟨r.pool, rows⟩
  (ran.1, ran.2.connection)

/-! ## Keys -/

/-- Two rows have different ids and no slug in common. -/
def Apart (a b : Entity) : Prop := a.id ≠ b.id ∧ ∀ slug, a.slug = some slug → b.slug ≠ some slug

/-- The rows of a table whose keys are unique. -/
structure Keyed (rows : List Entity) : Prop where
  typed : ∀ e ∈ rows, e.type = s.type
  numbered : ∀ e ∈ rows, e.id ≠ none
  apart : rows.Pairwise Apart

/-- Another row has the slug of an entity. -/
def HasRival (rows : List Entity) (e : Entity) : Prop :=
  ∃ r ∈ rows, r.id ≠ e.id ∧ ∃ slug, e.slug = some slug ∧ r.slug = some slug

/-- A row is written over with a slug that another row has. -/
structure Usurps (rows : List Entity) (r : ChangeRequest) : Prop where
  update : r.kind = .update
  held : ∃ e ∈ rows, e.id = r.entity.id
  rival : HasRival rows r.entity

theorem Apart.symm {a b : Entity} (h : Apart a b) : Apart b a :=
  ⟨h.1.symm, fun slug hb ha => h.2 slug ha hb⟩

instance : Std.Symm Apart := ⟨fun _ _ => Apart.symm⟩

variable {s} {rows : List Entity} {e : Entity}

theorem Keyed.insert (h : s.Keyed rows) (htype : e.type = s.type) (hid : e.id ≠ none)
    (hfree : ∀ r ∈ rows, r.id ≠ e.id) (hrival : ¬ HasRival rows e) : s.Keyed (rows ++ [e]) := by
  refine ⟨?_, ?_, List.pairwise_append.mpr ⟨h.apart, List.pairwise_singleton _ _, ?_⟩⟩
  · exact List.forall_mem_append.mpr ⟨h.typed, List.forall_mem_singleton.mpr htype⟩
  · exact List.forall_mem_append.mpr ⟨h.numbered, List.forall_mem_singleton.mpr hid⟩
  · intro r hr e' he'
    obtain rfl := List.mem_singleton.mp he'
    exact ⟨hfree r hr, fun slug hslug he => hrival ⟨r, hr, hfree r hr, slug, he, hslug⟩⟩

theorem Keyed.filter (h : s.Keyed rows) (p : Entity → Bool) : s.Keyed (rows.filter p) :=
  ⟨fun e he => h.typed e (List.mem_of_mem_filter he),
    fun e he => h.numbered e (List.mem_of_mem_filter he), h.apart.filter p⟩

/-- A row that is not there is not written over. -/
theorem overwrite_of_not_held (h : ∀ r ∈ rows, r.id ≠ e.id) : overwrite rows e = rows := by
  have hsame : ∀ r ∈ rows, (if r.id = e.id then e else r) = id r := fun r hr => if_neg (h r hr)
  rw [overwrite, List.map_congr_left hsame, List.map_id]

/-- Writing over a row keeps keys unique unless another row has the slug. -/
theorem keyed_overwrite_iff (h : s.Keyed rows) (htype : e.type = s.type)
    (hheld : ∃ r ∈ rows, r.id = e.id) : s.Keyed (overwrite rows e) ↔ ¬ HasRival rows e := by
  obtain ⟨holder, hholder, hid⟩ := hheld
  have hmem : e ∈ overwrite rows e := List.mem_map.mpr ⟨holder, hholder, if_pos hid⟩
  constructor
  · rintro hkeyed ⟨rival, hrival, hne, slug, he, hr⟩
    have hmem' : rival ∈ overwrite rows e := List.mem_map.mpr ⟨rival, hrival, if_neg hne⟩
    have hapart := hkeyed.apart.forall hmem hmem' fun heq => hne (heq ▸ rfl)
    exact hapart.2 slug he hr
  · intro hrival
    -- what is not the row written over keeps apart from the entity, having neither key
    have hnew : ∀ r ∈ rows, r.id ≠ e.id → Apart r e := fun r hr hne =>
      ⟨hne, fun slug hslug he => hrival ⟨r, hr, hne, slug, he, hslug⟩⟩
    refine ⟨?_, ?_, ?_⟩
    · refine List.forall_mem_map.mpr fun r hr => ?_
      split
      · exact htype
      · exact h.typed r hr
    · refine List.forall_mem_map.mpr fun r hr => ?_
      split
      · exact hid ▸ h.numbered holder hholder
      · exact h.numbered r hr
    · refine List.pairwise_map.mpr (h.apart.imp_of_mem fun {a b} ha hb hab => ?_)
      by_cases hea : a.id = e.id
      · have heb : b.id ≠ e.id := fun heb => hab.1 (hea.trans heb.symm)
        rw [if_pos hea, if_neg heb]
        exact (hnew b hb heb).symm
      · rw [if_neg hea]
        split
        · exact hnew a ha hea
        · exact hab

/-! ## What is due -/

/-- No row has the id of an entity. -/
def dueId (s : PlainTable) (rows : List Entity) (e : Entity) : Except StoreError Unit :=
  match e.id with
  | some id =>
    if rows.any fun r => r.id == some id then .error (.duplicateId s.type.name id) else .ok ()
  | none => .ok ()

/-- No other row has the slug of an entity. -/
def dueSlug (s : PlainTable) (rows : List Entity) (e : Entity) : Except StoreError Unit :=
  match e.slug with
  | some slug =>
    if rows.any fun r => r.id != e.id && r.slug == some slug then
      .error (.duplicateSlug s.type.name slug)
    else .ok ()
  | none => .ok ()

/-- A row has the id of an entity. -/
def dueRow (s : PlainTable) (rows : List Entity) (e : Entity) : Except StoreError Unit :=
  if e.id.isSome && rows.any fun r => r.id == e.id then .ok ()
  else .error (.notFound s.type.name e.id)

/-- There is an id for an entity. -/
def dueRoom (s : PlainTable) (rows : List Entity) (e : Entity) : Except StoreError Unit :=
  if e.id.isSome || (s.unused? rows).isSome then .ok () else .error (.connection "no id left")

/-- How a change is answered where keys are unique, as a session answers it: an id or a slug that
another row has is refused. -/
def due (s : PlainTable) (rows : List Entity) (e : Entity) : ChangeKind → Except StoreError Unit
  | .add => do dueId s rows e; dueSlug s rows e; dueRoom s rows e
  | .remove => dueRow s rows e
  | .update => do dueRow s rows e; dueSlug s rows e

theorem dueId_eq_ok (h : s.dueId rows e = .ok ()) (hnumbered : ∀ r ∈ rows, r.id ≠ none) :
    ∀ r ∈ rows, r.id ≠ e.id := by
  intro r hr heq
  rw [dueId] at h
  split at h
  case h_1 id hid =>
    split at h
    · cases h
    case isFalse hany =>
      exact hany (List.any_eq_true.mpr ⟨r, hr, by rw [heq, hid, beq_self_eq_true]⟩)
  case h_2 hid => exact hnumbered r hr (heq.trans hid)

theorem dueSlug_eq_ok_iff : s.dueSlug rows e = .ok () ↔ ¬ HasRival rows e := by
  rw [dueSlug]
  split
  case h_1 slug hslug =>
    have hrival : (rows.any fun r => r.id != e.id && r.slug == some slug) = true
        ↔ HasRival rows e := by
      simp [HasRival, List.any_eq_true, hslug]
    rw [← hrival]
    split
    · simp [*]
    · simp [*]
  case h_2 hslug => simp [HasRival, hslug]

theorem dueRow_eq_ok_iff (hnumbered : ∀ r ∈ rows, r.id ≠ none) :
    s.dueRow rows e = .ok () ↔ ∃ r ∈ rows, r.id = e.id := by
  have hheld : (e.id.isSome && rows.any fun r => r.id == e.id) = true ↔
      ∃ r ∈ rows, r.id = e.id := by
    rw [Bool.and_eq_true, List.any_eq_true]
    simp only [beq_iff_eq]
    refine and_iff_right_of_imp ?_
    rintro ⟨r, hr, hid⟩
    exact hid ▸ Option.isSome_iff_ne_none.mpr (hnumbered r hr)
  rw [dueRow, ← hheld]
  split
  · simp [*]
  · simp [*]

/-! ## Looking a key up -/

/-- A table whose type declares an attribute for the id and one for the slug, and keeps both in the
columns of these. -/
structure Declares (s : PlainTable) (schema : Schema) (idAttr slugAttr : Attribute) : Prop where
  registered : schema.find? s.type.name = some s.type
  idPath : schema.resolve s.type.name idField = .ok [⟨idAttr, s.type⟩]
  idKind : ∃ kind, idAttr.kind = .terminal kind ∧ ∀ k ∈ kind, ∀ id, k.accepts (.int id) = true
  slugAttribute : s.type.slugAttribute = some slugAttr.name
  slugPath : schema.resolve s.type.name slugAttr.name = .ok [⟨slugAttr, s.type⟩]
  slugKind : ∃ kind, slugAttr.kind = .terminal kind ∧
    ∀ k ∈ kind, ∀ slug, k.accepts (.string slug) = true
  slugFixed : s.type.SlugFixed
  idCell : ∀ e, e.type = s.type → (s.row e).value idAttr.column = Value.ofId e.id
  slugCell : ∀ e, e.type = s.type → ((s.row e).value slugAttr.column).text? = e.slug

end PlainTable

theorem Value.agrees_ofId {id : Option EntityId} {id' : EntityId} :
    (Value.ofId id).agrees (.int id') = (id == some id') := by
  cases id with
  | none => rfl
  | some id => exact Bool.eq_iff_iff.mpr (Value.agrees_int.trans (by simp))

/-- The query that looks a key up in a column. -/
def keyQuery (t : EntityType) (a : Attribute) (key : Value) : Select where
  table := t.table
  label := rootLabel
  joins := []
  filter := some (.compare ⟨rootLabel, a.column⟩ .eq key)
  orderBy := []
  offset := some 0
  limit := some 2

/-- Comparing an attribute with a key is comparing its column. -/
theorem ofFilter_key {schema : Schema} {t : EntityType} {a : Attribute} {name : String} {key : Value}
    (hpath : schema.resolve t.name name = .ok [⟨a, t⟩])
    (hkind : ∃ kind, a.kind = .terminal kind ∧ ∀ k ∈ kind, k.accepts key = true)
    (hkey : key ≠ .null) (used : Nat) :
    Condition.ofFilter schema t.name used (.single .equalTo name key)
      = .ok (.compare ⟨rootLabel, a.column⟩ .eq key, used) := by
  obtain ⟨kind, hkind, haccepts⟩ := hkind
  have hleaf : Condition.leaf ⟨rootLabel, a.column⟩ .equalTo (.single key)
      = .compare ⟨rootLabel, a.column⟩ .eq key := by
    cases key <;> first | rfl | exact absurd rfl hkey
  have hresolve : Criterion.resolve schema t.name ⟨name, .equalTo, .single key⟩ = .ok [⟨a, t⟩] := by
    have hlast : Criterion.checkLast ⟨name, .equalTo, .single key⟩ a = .ok () := by
      cases kind with
      | none => rw [Criterion.checkLast, hkind]
      | some k =>
        have haccept := haccepts k rfl
        simp [Criterion.checkLast, hkind, Criterion.checkKind, FilterOperator.isOrdering,
          FilterOperator.isTextual, Criterion.checkLiterals, Operand.values, haccept]
    simp [Criterion.resolve, hpath, hlast]
  simp only [FilterSpec.single, Condition.ofFilter, hresolve, Condition.ofSteps, hkind, hleaf]

theorem ofSpecs_key {schema : Schema} {t : EntityType} {a : Attribute} {name : String} {key : Value}
    (ht : schema.find? t.name = some t) (hpath : schema.resolve t.name name = .ok [⟨a, t⟩])
    (hkind : ∃ kind, a.kind = .terminal kind ∧ ∀ k ∈ kind, k.accepts key = true)
    (hkey : key ≠ .null) :
    Select.ofSpecs schema t.name (some (.single .equalTo name key)) none
        (some TableCollection.uniqueWindow)
      = .ok (keyQuery t a key) := by
  rw [Select.ofSpecs, Schema.require, ht]
  simp only [Condition.ofFilter?, ofFilter_key hpath hkind hkey]
  rfl

/-- A row is selected by a key that its column agrees with. -/
theorem isTrue_key (a : Attribute) (key : Value) (tables : Tables) (row : Row) :
    (Condition.compare ⟨rootLabel, a.column⟩ .eq key).isTrue tables [(rootLabel, row)]
      = (row.value a.column).agrees key := by
  show (((RowEnv.value [(rootLabel, row)] ⟨rootLabel, a.column⟩).compare? key).map
    Comparison.eq.admits == some true) = _
  rw [RowEnv.shows_cons_self [] rootLabel row, Value.agrees]
  rcases (row.value a.column).compare? key with _ | o
  · rfl
  · cases o <;> rfl

/-- It comes upon the rows that hold the key, up to two of them. -/
theorem length_run_key (t : EntityType) (a : Attribute) (key : Value) (tables : Tables) :
    ((keyQuery t a key).run tables).length
      = min 2 ((tables t.table).countP fun row => (row.value a.column).agrees key) := by
  have hmatching : ((keyQuery t a key).matching tables).length
      = (tables t.table).countP fun row => (row.value a.column).agrees key := by
    rw [List.countP_eq_length_filter, Select.matching, List.length_map]
    exact congrArg (fun p => ((tables t.table).filter p).length) (funext (isTrue_key a key tables))
  rw [Select.run, List.length_map, ← hmatching]
  show ((Sorting.sort _ _).drop 0 |>.take 2).length = _
  rw [List.drop_zero, List.length_take, (Sorting.sort_perm _ _).length_eq]

namespace TableCollection

variable {σ : Type} {c : TableCollection σ} {l : Link σ}

theorem exec_call {α : Type} {f : σ → Except StoreError α × σ} {pool : Pool} {state state' : σ}
    {answer : Except StoreError α} (h : f state = (answer, state')) :
    exec (call f) ⟨pool, state⟩ = (answer, ⟨pool, state'⟩) := by
  simp [call, h]

/-- A look-up by key goes by the number of rows it comes upon. -/
theorem exec_only (c : TableCollection σ) (key : String) {rows : List Entity} (h : rows.length ≤ 1)
    (l : Link σ) :
    ∃ found pool, exec (c.only key rows) l = (.ok found, { l with pool }) ∧
      found.isSome = !rows.isEmpty := by
  match rows, h with
  | [], _ => exact ⟨none, l.pool, rfl, rfl⟩
  | [e], _ => exact ⟨some l.pool.next, _, rfl, rfl⟩
  | _ :: _ :: _, h => simp at h

end TableCollection

namespace PlainTable

variable {s : PlainTable} {schema : Schema} {idAttr slugAttr : Attribute} {rows : List Entity}
  {e : Entity} {view : View} {pool : Pool}

/-- Rows that keep apart have no key in common, so a key is held by one of them at most. -/
theorem countP_le_one (h : rows.Pairwise Apart) {p : Entity → Bool}
    (hp : ∀ a b, p a = true → p b = true → ¬ Apart a b) : rows.countP p ≤ 1 := by
  rw [List.countP_eq_length_filter]
  have hfilter := h.filter p
  match hmatch : rows.filter p with
  | [] => exact Nat.zero_le 1
  | [_] => exact Nat.le_refl 1
  | a :: b :: rest =>
    rw [hmatch] at hfilter
    have hmem : ∀ x ∈ a :: b :: rest, p x = true := fun x hx =>
      (List.mem_filter.mp (hmatch ▸ hx)).2
    have hab := (List.pairwise_cons.mp hfilter).1 b List.mem_cons_self
    exact absurd hab (hp a b (hmem a List.mem_cons_self)
      (hmem b (List.mem_cons_of_mem _ List.mem_cons_self)))

/-- Looking up a key that one row holds at most tells whether there is one, and leaves the rows. -/
theorem exec_findByAttribute (view : View) (pool : Pool) (text : String) (key : Value)
    (hreg : schema.find? s.type.name = some s.type) {a : Attribute} {name : String}
    (hpath : schema.resolve s.type.name name = .ok [⟨a, s.type⟩])
    (hkind : ∃ kind, a.kind = .terminal kind ∧ ∀ k ∈ kind, k.accepts key = true)
    (hkey : key ≠ .null) {holds : Entity → Bool}
    (hcell : ∀ r ∈ rows, ((s.row r).value a.column).agrees key = holds r)
    (hone : rows.countP holds ≤ 1) :
    ∃ found pool', exec ((s.collection schema view).findByAttribute none name key text) ⟨pool, rows⟩
        = (.ok found, ⟨pool', rows⟩) ∧ found.isSome = rows.any holds := by
  have hcount : ((s.tables rows) s.type.table).countP (fun row => (row.value a.column).agrees key)
      = rows.countP holds := by
    rw [tables, if_pos rfl, List.countP_map]
    exact List.countP_congr fun r hr => by rw [Function.comp_apply, hcell r hr]
  have hlength : (((keyQuery s.type a key).run (s.tables rows)).map s.read).length
      = rows.countP holds := by
    rw [List.length_map, length_run_key, hcount, Nat.min_eq_right (Nat.le_succ_of_le hone)]
  obtain ⟨found, pool', honly, hfound⟩ := TableCollection.exec_only (s.collection schema view) text
    (hlength ▸ hone) ⟨pool, rows⟩
  refine ⟨found, pool', ?_, ?_⟩
  · have hquery : exec ((s.collection schema view).query
        (some (TableCollection.narrow none (.single .equalTo name key))) none
        (some TableCollection.uniqueWindow)) ⟨pool, rows⟩
          = (.ok (keyQuery s.type a key), ⟨pool, rows⟩) := by
      rw [TableCollection.query, exec_ofExcept]
      exact congrArg (fun made => (Except.mapError StoreError.query made, (⟨pool, rows⟩ : Link _)))
        (ofSpecs_key hreg hpath hkind hkey)
    rw [TableCollection.findByAttribute, exec_bind, hquery]
    have hfetch : exec ((s.collection schema view).fetch (keyQuery s.type a key)) ⟨pool, rows⟩
        = (.ok (((keyQuery s.type a key).run (s.tables rows)).map s.read), ⟨pool, rows⟩) :=
      TableCollection.exec_call rfl
    dsimp only
    rw [exec_bind, hfetch]
    exact honly
  · have hpos : (!(((keyQuery s.type a key).run (s.tables rows)).map s.read).isEmpty)
        = decide (0 < rows.countP holds) := by
      rw [← hlength]
      cases ((keyQuery s.type a key).run (s.tables rows)).map s.read <;> rfl
    rw [hfound, hpos]
    refine Bool.eq_iff_iff.mpr ?_
    rw [decide_eq_true_iff, List.countP_pos_iff, List.any_eq_true]

/-- Whether an id is free is found out right. -/
theorem exec_checkId (view : View) (pool : Pool) (h : s.Keyed rows)
    (hs : s.Declares schema idAttr slugAttr) (e : Entity) :
    ∃ pool', exec ((s.collection schema view).checkId e) ⟨pool, rows⟩
      = (s.dueId rows e, ⟨pool', rows⟩) := by
  rw [TableCollection.checkId, dueId]
  cases e.id with
  | none => exact ⟨pool, rfl⟩
  | some id =>
    have hone : rows.countP (fun r => r.id == some id) ≤ 1 :=
      countP_le_one h.apart fun a b ha hb hab =>
        hab.1 ((beq_iff_eq.mp ha).trans (beq_iff_eq.mp hb).symm)
    obtain ⟨found, pool', hfind, hfound⟩ := exec_findByAttribute view pool id.toText (.int id)
      hs.registered hs.idPath
      (hs.idKind.imp fun kind hk => ⟨hk.1, fun k hmem => hk.2 k hmem id⟩) nofun
      (fun r hr => by rw [hs.idCell r (h.typed r hr), Value.agrees_ofId]) hone
    refine ⟨pool', ?_⟩
    dsimp only
    rw [exec_bind, TableCollection.findById, hfind]
    dsimp only
    rw [hfound]
    split <;> rfl

/-- Whether a slug is free is found out right. -/
theorem exec_checkSlug (view : View) (pool : Pool) (h : s.Keyed rows)
    (hs : s.Declares schema idAttr slugAttr) (hfree : ∀ r ∈ rows, r.id ≠ e.id) :
    ∃ pool', exec ((s.collection schema view).checkSlug e) ⟨pool, rows⟩
      = (s.dueSlug rows e, ⟨pool', rows⟩) := by
  rw [TableCollection.checkSlug, dueSlug]
  cases e.slug with
  | none => exact ⟨pool, rfl⟩
  | some slug =>
    have hone : rows.countP (fun r => r.slug == some slug) ≤ 1 :=
      countP_le_one h.apart fun a b ha hb hab =>
        hab.2 slug (beq_iff_eq.mp ha) (beq_iff_eq.mp hb)
    obtain ⟨found, pool', hfind, hfound⟩ := exec_findByAttribute view pool slug (.string slug)
      hs.registered hs.slugPath
      (hs.slugKind.imp fun kind hk => ⟨hk.1, fun k hmem => hk.2 k hmem slug⟩) nofun
      (fun r hr => by rw [Value.agrees_of_text rfl, hs.slugCell r (h.typed r hr)]) hone
    have hothers : (rows.any fun r => r.id != e.id && r.slug == some slug)
        = rows.any fun r => r.slug == some slug := by
      refine Bool.eq_iff_iff.mpr ?_
      rw [List.any_eq_true, List.any_eq_true]
      exact exists_congr fun r => and_congr_right fun hr => by
        rw [bne_iff_ne.mpr (hfree r hr), Bool.true_and]
    refine ⟨pool', ?_⟩
    dsimp only
    rw [exec_bind, TableCollection.findBySlug, PlainTable.collection, hs.slugAttribute]
    dsimp only
    rw [← PlainTable.collection, hfind]
    dsimp only
    rw [hfound, hothers]
    split <;> rfl

/-! ## Changes -/

/-- A row whose keys no row has is inserted if there is an id for it, and keys stay unique. -/
theorem insert_cases (h : s.Keyed rows) (hfixed : s.type.SlugFixed) (htype : e.type = s.type)
    (hfree : ∀ r ∈ rows, r.id ≠ e.id) (hrival : ¬ HasRival rows e) :
    ∃ rows', s.Keyed rows' ∧
      ((∃ id, s.connection.insert e rows = (.ok id, rows') ∧ s.dueRoom rows e = .ok ()) ∨
        ∃ fault, s.connection.insert e rows = (.error fault, rows') ∧
          s.dueRoom rows e = .error fault) := by
  cases hid : e.id with
  | some id =>
    have hkeyed := h.insert htype (by rw [hid]; exact Option.some_ne_none id) hfree hrival
    refine ⟨_, hkeyed, .inl ⟨id, ?_, ?_⟩⟩
    · simp only [connection, hid]
    · simp [dueRoom, hid]
  | none =>
    cases hunused : s.unused? rows with
    | none =>
      refine ⟨rows, h, .inr ⟨.connection "no id left", ?_, ?_⟩⟩
      · simp only [connection, hid, hunused]
      · simp [dueRoom, hid, hunused]
    | some id =>
      have hslug : (e.setId (some id)).slug = e.slug := hfixed e htype (some id)
      have hrival' : ¬ HasRival rows (e.setId (some id)) := by
        rintro ⟨r, hr, -, slug, he, hslug'⟩
        exact hrival ⟨r, hr, hfree r hr, slug, hslug ▸ he, hslug'⟩
      have hkeyed := h.insert (e := e.setId (some id)) htype (Option.some_ne_none id)
        (s.fresh hunused) hrival'
      refine ⟨_, hkeyed, .inl ⟨id, ?_, ?_⟩⟩
      · simp only [connection, hid, hunused]
      · simp [dueRoom, hid, hunused]

/-- An addition is answered as is due, and keys stay unique. -/
theorem exec_add (view : View) (pool : Pool) (h : s.Keyed rows)
    (hs : s.Declares schema idAttr slugAttr) {k : Handle} (htype : (pool.entity k).type = s.type) :
    (exec ((s.collection schema view).add k) ⟨pool, rows⟩).1 = s.due rows (pool.entity k) .add ∧
      s.Keyed (exec ((s.collection schema view).add k) ⟨pool, rows⟩).2.connection := by
  obtain ⟨pool₁, hid⟩ := exec_checkId view pool h hs (pool.entity k)
  rw [TableCollection.add, exec_bind, exec_get]
  dsimp only
  rw [exec_bind, hid, due]
  cases hdue : s.dueId rows (pool.entity k) with
  | error fault => exact ⟨rfl, h⟩
  | ok =>
    have hfree := dueId_eq_ok hdue h.numbered
    obtain ⟨pool₂, hslug⟩ := exec_checkSlug view pool₁ h hs hfree
    dsimp only
    rw [exec_bind, hslug]
    cases hdue' : s.dueSlug rows (pool.entity k) with
    | error fault => exact ⟨rfl, h⟩
    | ok =>
      obtain ⟨rows', hkeyed, ⟨id, hinsert, hroom⟩ | ⟨fault, hinsert, hroom⟩⟩ :=
        insert_cases h hs.slugFixed htype hfree (dueSlug_eq_ok_iff.mp hdue')
      · have hcall : exec (TableCollection.call
            ((s.collection schema view).connection.insert (pool.entity k))) ⟨pool₂, rows⟩
              = (.ok id, ⟨pool₂, rows'⟩) := TableCollection.exec_call hinsert
        dsimp only
        rw [exec_bind, hcall, hroom]
        exact ⟨rfl, hkeyed⟩
      · have hcall : exec (TableCollection.call
            ((s.collection schema view).connection.insert (pool.entity k))) ⟨pool₂, rows⟩
              = (.error fault, ⟨pool₂, rows'⟩) := TableCollection.exec_call hinsert
        dsimp only
        rw [exec_bind, hcall, hroom]
        exact ⟨rfl, hkeyed⟩

/-- What has no id has no row. -/
theorem exec_requiredId (view : View) (e : Entity) (l : Link (List Entity)) :
    exec ((s.collection schema view).requiredId e) l
      = (match e.id with
          | some id => .ok id
          | none => .error (.notFound s.type.name none), l) := by
  rw [TableCollection.requiredId]
  cases e.id <;> rfl

/-- A removal is answered as is due, and keys stay unique. -/
theorem exec_remove (schema : Schema) (view : View) (pool : Pool) (h : s.Keyed rows) (k : Handle) :
    (exec ((s.collection schema view).remove k) ⟨pool, rows⟩).1
        = s.due rows (pool.entity k) .remove ∧
      s.Keyed (exec ((s.collection schema view).remove k) ⟨pool, rows⟩).2.connection := by
  rw [TableCollection.remove, exec_bind, exec_get]
  dsimp only
  rw [exec_bind, exec_requiredId, due, dueRow]
  cases hid : (pool.entity k).id with
  | none => exact ⟨rfl, h⟩
  | some id =>
    have hcall : exec (TableCollection.call ((s.collection schema view).connection.delete id))
        ⟨pool, rows⟩ = (.ok (rows.any fun r => r.id == some id),
          ⟨pool, rows.filter fun r => r.id != some id⟩) := TableCollection.exec_call rfl
    dsimp only
    rw [exec_bind, hcall]
    dsimp only
    cases rows.any fun r => r.id == some id with
    | true => exact ⟨rfl, h.filter _⟩
    | false => exact ⟨rfl, h.filter _⟩

/-- **An update is accepted wherever there is a row to write over.** -/
theorem exec_update (schema : Schema) (view : View) (pool : Pool) (h : s.Keyed rows) (k : Handle) :
    (exec ((s.collection schema view).update k) ⟨pool, rows⟩).1 = s.dueRow rows (pool.entity k) ∧
      (exec ((s.collection schema view).update k) ⟨pool, rows⟩).2.connection
        = overwrite rows (pool.entity k) := by
  rw [TableCollection.update, exec_bind, exec_get]
  dsimp only
  rw [exec_bind, exec_requiredId, dueRow]
  cases hid : (pool.entity k).id with
  | none =>
    exact ⟨rfl, (overwrite_of_not_held fun r hr => by rw [hid]; exact h.numbered r hr).symm⟩
  | some id =>
    have hcall : exec (TableCollection.call
        ((s.collection schema view).connection.update (pool.entity k))) ⟨pool, rows⟩
          = (.ok (rows.any fun r => r.id == some id), ⟨pool, overwrite rows (pool.entity k)⟩) :=
      TableCollection.exec_call (by rw [← hid]; rfl)
    dsimp only
    rw [exec_bind, hcall]
    dsimp only
    cases rows.any fun r => r.id == some id with
    | true => exact ⟨rfl, rfl⟩
    | false => exact ⟨rfl, rfl⟩

/-- One request is answered as is due, and leaves keys unique, exactly if it usurps no slug. -/
theorem serve_iff (h : s.Keyed rows) (hs : s.Declares schema idAttr slugAttr) {r : ChangeRequest}
    (htype : r.entity.type = s.type) :
    ((s.serve schema rows r).1 = s.due rows r.entity r.kind ↔ ¬ Usurps rows r) ∧
      (s.Keyed (s.serve schema rows r).2 ↔ ¬ Usurps rows r) := by
  obtain ⟨view, pool, kind, k⟩ := r
  cases kind with
  | add =>
    have husurps : ¬ Usurps rows ⟨view, pool, .add, k⟩ := fun hu => nomatch hu.update
    obtain ⟨hanswer, hkeyed⟩ := exec_add view pool h hs htype
    exact ⟨iff_of_true hanswer husurps, iff_of_true hkeyed husurps⟩
  | remove =>
    have husurps : ¬ Usurps rows ⟨view, pool, .remove, k⟩ := fun hu => nomatch hu.update
    obtain ⟨hanswer, hkeyed⟩ := exec_remove schema view pool h k
    exact ⟨iff_of_true hanswer husurps, iff_of_true hkeyed husurps⟩
  | update =>
    obtain ⟨hanswer, hrows⟩ := exec_update schema view pool h k
    change (s.serve schema rows ⟨view, pool, .update, k⟩).1 = _ at hanswer
    change (s.serve schema rows ⟨view, pool, .update, k⟩).2 = _ at hrows
    rw [hanswer, hrows, ChangeRequest.entity, due]
    have hheld := dueRow_eq_ok_iff (s := s) (e := pool.entity k) h.numbered
    cases hrow : s.dueRow rows (pool.entity k) with
    | error fault =>
      have hnone : ¬ ∃ r ∈ rows, r.id = (pool.entity k).id := fun hex => by
        rw [hheld.mpr hex] at hrow
        cases hrow
      have husurps : ¬ Usurps rows ⟨view, pool, .update, k⟩ := fun hu => hnone hu.held
      refine ⟨iff_of_true rfl husurps, iff_of_true ?_ husurps⟩
      rwa [overwrite_of_not_held fun r hr hid => hnone ⟨r, hr, hid⟩]
    | ok =>
      have hex := hheld.mp hrow
      have husurps : HasRival rows (pool.entity k) ↔ Usurps rows ⟨view, pool, .update, k⟩ :=
        ⟨fun hrival => ⟨rfl, hex, hrival⟩, fun hu => hu.rival⟩
      exact ⟨(eq_comm.trans dueSlug_eq_ok_iff).trans (not_congr husurps),
        (keyed_overwrite_iff h htype hex).trans (not_congr husurps)⟩

/-! ## Sequences of requests -/

/-- The rows that requests leave, served one after the other. -/
def rowsAfter (s : PlainTable) (schema : Schema) (rows : List Entity)
    (requests : List ChangeRequest) : List Entity :=
  requests.foldl (fun rows r => (s.serve schema rows r).2) rows

theorem rowsAfter_concat (rows : List Entity) (requests : List ChangeRequest) (r : ChangeRequest) :
    s.rowsAfter schema rows (requests ++ [r])
      = (s.serve schema (s.rowsAfter schema rows requests) r).2 := by
  rw [rowsAfter, List.foldl_append]
  rfl

/-- Keys are unique as long as no slug is usurped. By induction on the requests served. -/
theorem keyed_rowsAfter (h : s.Keyed rows) (hs : s.Declares schema idAttr slugAttr)
    {requests : List ChangeRequest} (htype : ∀ r ∈ requests, r.entity.type = s.type)
    (hnone : ∀ before r after, requests = before ++ r :: after →
      ¬ Usurps (s.rowsAfter schema rows before) r) :
    s.Keyed (s.rowsAfter schema rows requests) := by
  induction requests using List.reverseRecOn with
  | nil => exact h
  | append_singleton requests r ih =>
    have hbefore : s.Keyed (s.rowsAfter schema rows requests) :=
      ih (fun r' hr' => htype r' (List.mem_append_left _ hr')) fun before r' after hsplit =>
        hnone before r' (after ++ [r]) (by rw [hsplit, List.append_assoc]; rfl)
    have hr : r.entity.type = s.type :=
      htype r (List.mem_append_right _ (List.mem_singleton_self r))
    rw [rowsAfter_concat]
    exact (serve_iff hbefore hs hr).2.mpr (hnone requests r [] rfl)

/-- **Every request of a sequence is answered as is due and leaves keys unique exactly if none of
them is an update to a slug that another row has.** -/
theorem keyed_iff_none_usurps (h : s.Keyed rows) (hs : s.Declares schema idAttr slugAttr)
    {requests : List ChangeRequest} (htype : ∀ r ∈ requests, r.entity.type = s.type) :
    (∀ before r after, requests = before ++ r :: after →
      (s.serve schema (s.rowsAfter schema rows before) r).1
          = s.due (s.rowsAfter schema rows before) r.entity r.kind ∧
        s.Keyed (s.rowsAfter schema rows (before ++ [r]))) ↔
      ∀ before r after, requests = before ++ r :: after →
        ¬ Usurps (s.rowsAfter schema rows before) r := by
  have hmem : ∀ {before r after}, requests = before ++ r :: after → r.entity.type = s.type :=
    fun {before r after} hsplit => htype r (hsplit ▸ List.mem_append_right _ List.mem_cons_self)
  constructor
  · intro hall before r after hsplit
    -- what has been served before the request has left keys unique
    have hbefore : s.Keyed (s.rowsAfter schema rows before) := by
      rcases List.eq_nil_or_concat before with rfl | ⟨front, last, rfl⟩
      · exact h
      · rw [List.concat_eq_append]
        refine (hall front last (r :: after) ?_).2
        rw [hsplit, List.concat_eq_append, List.append_assoc]
        rfl
    exact (serve_iff hbefore hs (hmem hsplit)).1.mp (hall before r after hsplit).1
  · intro hnone before r after hsplit
    have hbefore : s.Keyed (s.rowsAfter schema rows before) := by
      refine keyed_rowsAfter h hs (fun r' hr' => htype r' ?_) fun front r' back hfront => ?_
      · exact hsplit ▸ List.mem_append_left _ hr'
      · exact hnone front r' (back ++ r :: after) (by rw [hsplit, hfront, List.append_assoc]; rfl)
    have hserve := serve_iff hbefore hs (hmem hsplit)
    have hspared := hnone before r after hsplit
    exact ⟨hserve.1.mpr hspared, by rw [rowsAfter_concat]; exact hserve.2.mpr hspared⟩

open Samples

/-- The first of the ids from zero on that no row has. -/
def firstUnused (rows : List Entity) : Option EntityId :=
  ((List.range (rows.length + 1)).map Int64.ofNat).find? fun id => rows.all fun e => e.id != some id

/-- Tags as rows with a column for each field. -/
def tagTable : PlainTable where
  type := tag
  row e := ["id", "name", "weight"].map fun name =>
    (name, match e.stored? name with | some (.value v) => v | _ => .null)
  read _ := blank tag
  others _ := []
  unused? := firstUnused
  fresh h := by
    have hall := List.find?_some h
    simpa using hall

/-- A request for a change with a tag. -/
def ask (kind : ChangeKind) (e : Entity) : ChangeRequest :=
  ⟨.all, (Pool.empty.alloc e).2, kind, 0⟩

/-- A red tag and a blue one. -/
def redBlue : List Entity := [tagNamed (some 1) "red", tagNamed (some 2) "blue"]

theorem declares_tagTable :
    tagTable.Declares (Schema.ofList [tag]) (terminal "id" .int) (terminal "name" .string) where
  registered := rfl
  idPath := rfl
  idKind := ⟨some .int, rfl, by rintro k ⟨⟩ id; rfl⟩
  slugAttribute := rfl
  slugPath := rfl
  slugKind := ⟨some .string, rfl, by rintro k ⟨⟩ slug; rfl⟩
  slugFixed := Run.slugFixed_tag
  idCell e _ := by cases e; rfl
  slugCell := by
    rintro ⟨type, id, fields⟩ rfl
    show (match Entity.stored? ⟨tag, id, fields⟩ "name" with
      | some (.value v) => v
      | _ => .null).text? = storedText? (Entity.stored? ⟨tag, id, fields⟩) "name"
    rw [storedText?]
    rcases Entity.stored? ⟨tag, id, fields⟩ "name" with _ | _ | _ | _ <;> rfl

theorem keyed_redBlue : tagTable.Keyed redBlue where
  typed := List.forall_mem_cons.mpr ⟨rfl, List.forall_mem_singleton.mpr rfl⟩
  numbered := List.forall_mem_cons.mpr ⟨nofun, List.forall_mem_singleton.mpr nofun⟩
  apart := List.pairwise_pair.mpr
    ⟨by decide +kernel, fun _ hred hblue => absurd (hred.trans hblue.symm) (by decide +kernel)⟩

/-- A green tag is added, a second red one refused, and the first one removed before the blue one
is made red. -/
def recolouring : List ChangeRequest :=
  [ ask .add (tagNamed none "green"), ask .add (tagNamed none "red"),
    ask .remove (tagNamed (some 1) "red"), ask .update (tagNamed (some 2) "red") ]

/-- All of them are answered as is due, and keys are unique after each. -/
theorem keyed_recolouring :
    tagTable.Keyed redBlue ∧
      tagTable.Declares (Schema.ofList [tag]) (terminal "id" .int) (terminal "name" .string) ∧
      (∀ r ∈ recolouring, r.entity.type = tagTable.type) ∧
      ∀ before r after, recolouring = before ++ r :: after →
        (tagTable.serve (Schema.ofList [tag])
            (tagTable.rowsAfter (Schema.ofList [tag]) redBlue before) r).1
          = tagTable.due (tagTable.rowsAfter (Schema.ofList [tag]) redBlue before) r.entity r.kind ∧
        tagTable.Keyed (tagTable.rowsAfter (Schema.ofList [tag]) redBlue (before ++ [r])) := by
  have htype : ∀ r ∈ recolouring, r.entity.type = tagTable.type := by
    simp only [recolouring, List.forall_mem_cons]
    exact ⟨rfl, rfl, rfl, rfl, nofun⟩
  refine ⟨keyed_redBlue, declares_tagTable, htype,
    (keyed_iff_none_usurps keyed_redBlue declares_tagTable htype).mpr ?_⟩
  intro before r after hsplit husurps
  match before, hsplit with
  | [], hsplit =>
    cases hsplit
    cases husurps.update
  | [_], hsplit =>
    cases hsplit
    cases husurps.update
  | [_, _], hsplit =>
    cases hsplit
    cases husurps.update
  | [_, _, _], hsplit =>
    cases hsplit
    have hfree : tagTable.dueSlug (tagTable.rowsAfter (Schema.ofList [tag]) redBlue
        (recolouring.take 3)) (tagNamed (some 2) "red") = .ok () := by
      decide +kernel
    exact dueSlug_eq_ok_iff.mp hfree husurps.rival
  | _ :: _ :: _ :: _ :: _, hsplit =>
    have hlength := congrArg List.length hsplit
    simp [recolouring] at hlength

/-- The blue tag is made red although there is a red one: a session refuses that, the table then
has two red tags. -/
theorem not_keyed_blueAsRed :
    tagTable.Keyed redBlue ∧
      (tagTable.serve (Schema.ofList [tag]) redBlue (ask .update (tagNamed (some 2) "red"))).1
        = .ok () ∧
      tagTable.due redBlue (tagNamed (some 2) "red") .update = .error (.duplicateSlug "tag" "red") ∧
      (tagTable.serve (Schema.ofList [tag]) redBlue
        (ask .update (tagNamed (some 2) "red"))).2.map Entity.slug = [some "red", some "red"] ∧
      ¬ tagTable.Keyed (tagTable.serve (Schema.ofList [tag]) redBlue
        (ask .update (tagNamed (some 2) "red"))).2 := by
  refine ⟨keyed_redBlue, by decide +kernel, by decide +kernel, by decide +kernel, fun hkeyed => ?_⟩
  have hrival : HasRival redBlue (tagNamed (some 2) "red") :=
    ⟨tagNamed (some 1) "red", .head _, by decide, "red", rfl, rfl⟩
  exact (serve_iff keyed_redBlue declares_tagTable rfl).2.mp hkeyed
    ⟨rfl, ⟨tagNamed (some 2) "blue", .tail _ (.head _), rfl⟩, hrival⟩

end PlainTable

end EntityStore
