import EntityStore.Proofs.Select.Orders
import EntityStore.Samples.Types

/-!
# The two backends select the same

A filter and an order that compile can be evaluated in two ways: on entities, by filtering and
sorting them in process, and on tables that are an image of them, by the query made of the same
filter and order. Both give the same entities in the same order, for every window.
-/

namespace EntityStore

/-- The entities of a type that pass a filter, in the order of a comparator, as far as a window
shows them. -/
def Dataset.select (d : Dataset) (root : String) (p : Predicate) (c : Comparator)
    (window : Option Window) : List Handle :=
  Window.sliceIn (c.sort d.pool ((d.members root).filter fun h => p.holds d.pool h)) window

namespace Select

/-- The offset and limit of a query are a window on the sorted rows. -/
theorem run_eq_sliceIn {q : Select} {window : Option Window}
    (hoffset : q.offset = window.map (·.offset)) (hlimit : q.limit = window.map (·.limit))
    (tables : Tables) :
    q.run tables = (Window.sliceIn
      (Sorting.sort (fun a b => compareBy a.2 b.2 q.orderBy) (q.matching tables)) window).map
        Prod.fst := by
  rw [run, hoffset, hlimit]
  cases window with
  | none => rfl
  | some w => rfl

theorem sliceIn_map {α β : Type} (f : α → β) (items : List α) (window : Option Window) :
    Window.sliceIn (items.map f) window = (Window.sliceIn items window).map f := by
  cases window with
  | none => rfl
  | some w => simp [Window.sliceIn, Window.slice]

variable {schema : Schema} {d : Dataset} {root : EntityType}

/-- The rows that pass the condition are those of the entities that pass the filter. -/
theorem matching_eq_map (hd : d.Image schema) (hroot : schema.Registered root) {q : Select}
    {cond : Condition} {p : Predicate} {joins : PathJoins} (htable : q.table = root.table)
    (hlabel : q.label = rootLabel) (hfilter : q.filter = some cond)
    (hjoins : q.joins = joins.map (·.2))
    (hmirrors : cond.Mirrors d root rootLabel fun h => p.holds d.pool h) :
    q.matching d.tables
      = ((d.members root.name).filter fun h => p.holds d.pool h).map fun h =>
          (d.row h, d.joined joins h) := by
  rw [matching, htable, hlabel, hfilter, hjoins, hd.rows root hroot, List.filter_map, List.map_map]
  have hpass : (d.members root.name).filter
        ((fun row => cond.isTrue d.tables [(rootLabel, row)]) ∘ d.row)
      = (d.members root.name).filter fun h => p.holds d.pool h := by
    refine List.filter_congr fun h hh => ?_
    rw [Function.comp_apply, Bool.eq_iff_iff, Condition.isTrue, beq_iff_eq]
    exact hmirrors h hh _ (RowEnv.shows_cons_self [] rootLabel (d.row h))
  rw [hpass]
  rfl

/-- **The relational backend selects what the process selects, in the same order.** -/
theorem run_ofSpecs (hs : schema.Closed) (hd : d.Image schema) {name : String}
    (hroot : schema.find? name = some root) {filter : FilterSpec} {order : OrderSpec}
    (hw : filter.WellPosed) {p : Predicate} (hp : filter.compile schema name = .ok p)
    {c : Comparator} (hc : order.compile schema name = .ok c) (window : Option Window) :
    ∃ q, ofSpecs schema name (some filter) (some order) window = .ok q ∧
      q.run d.tables = (d.select name p c window).map d.row := by
  obtain rfl := Schema.find?_name hroot
  have hreg : schema.Registered root := hroot
  obtain ⟨cond, used, hcond, hmirrors⟩ := Condition.ofFilter_mirrors hs hd hroot 0 filter hw p hp
  obtain ⟨terms, joins, hterms, hj, hserve⟩ :=
    SortTerm.ofOrder_serves hroot order c hc [] .none
  rw [List.nil_append] at hterms hj hserve
  let q : Select :=
    { table := root.table, label := rootLabel, joins := joins.map (·.2), filter := some cond,
      orderBy := terms, offset := window.map (·.offset), limit := window.map (·.limit) }
  -- the rows that pass are those of the handles that pass, each with its joined rows
  have hmatching : q.matching d.tables = _ :=
    matching_eq_map hd hreg rfl rfl rfl rfl hmirrors
  have hsort : Sorting.sort (fun a b : Row × RowEnv => compareBy a.2 b.2 q.orderBy)
        (((d.members root.name).filter fun h => p.holds d.pool h).map fun h =>
          (d.row h, d.joined joins h))
      = (c.sort d.pool ((d.members root.name).filter fun h => p.holds d.pool h)).map fun h =>
          (d.row h, d.joined joins h) := by
    refine Sorting.sort_map fun a ha b hb => ?_
    rw [Comparator.compare_eq_compareByKeys]
    exact compareBy_eq_compareByKeys hd hreg hj hserve (List.mem_of_mem_filter ha)
      (List.mem_of_mem_filter hb)
  refine ⟨q, ?_, ?_⟩
  · rw [ofSpecs, Schema.require, hroot]
    dsimp only
    rw [Condition.ofFilter?, hcond, SortTerm.ofOrder?, hterms]
  · rw [run_eq_sliceIn rfl rfl, hmatching, hsort, sliceIn_map, List.map_map, Dataset.select]
    rfl

end Select

/-! ## A small family -/

namespace Samples

/-- The rows of Ann, her son Bob, and a note of his. -/
def familyRow (h : Handle) : Row :=
  match h with
  | 0 => [ ("id", .int 1), ("name", .string "Ann"), ("age", .int 61), ("nickname", .null),
      ("parent_id", .null) ]
  | 1 => [ ("id", .int 2), ("name", .string "Bob"), ("age", .int 30),
      ("nickname", .string "bo_b"), ("parent_id", .int 1) ]
  | _ => [("id", .int 10), ("text", .string "likes tea"), ("author_id", .int 2)]

/-- Ann, Bob and the note, with their rows. -/
def family : Dataset where
  pool :=
    { entity := fun h =>
        match h with
        | 0 => ⟨person, some 1,
            [ ("name", .value (.string "Ann")), ("age", .value (.int 61)),
              ("nickname", .value .null), ("parent", .one none), ("notes", .many []) ]⟩
        | 1 => ⟨person, some 2,
            [ ("name", .value (.string "Bob")), ("age", .value (.int 30)),
              ("nickname", .value (.string "bo_b")), ("parent", .one (some 0)),
              ("notes", .many [2]) ]⟩
        | _ => ⟨note, some 10, [("text", .value (.string "likes tea")), ("author", .one (some 1))]⟩
      next := 3 }
  members := fun name => if name = "person" then [0, 1] else if name = "note" then [2] else []
  row := familyRow
  tables := fun table =>
    if table = "people" then [familyRow 0, familyRow 1]
    else if table = "notes" then [familyRow 2]
    else []

/-- People and notes. -/
def familySchema : Schema := ⟨[person, note]⟩

theorem registered_family {t : EntityType} (ht : familySchema.Registered t) : t = person ∨ t = note := by
  have hmem := List.mem_of_find?_eq_some ht
  simpa [familySchema] using hmem

theorem family_closed : familySchema.Closed := by
  intro t ht a ha hrel
  have ht' : t = person ∨ t = note := by simpa [familySchema] using ht
  rcases ht' with rfl | rfl
  · simp [person] at ha
    rcases ha with rfl | rfl | rfl | rfl | rfl | rfl
    · cases hrel
    · cases hrel
    · cases hrel
    · cases hrel
    · exact ⟨person, rfl⟩
    · exact ⟨note, rfl⟩
  · simp [note] at ha
    rcases ha with rfl | rfl | rfl
    · cases hrel
    · cases hrel
    · exact ⟨person, rfl⟩

theorem family_target_person {a : Attribute} {u : EntityType} (ha : a.target? = some "person")
    (hu : familySchema.targetOf a = .ok u) : u = person := by
  rw [Schema.targetOf, ha] at hu
  exact (Except.ok.inj hu).symm

theorem family_target_note {a : Attribute} {u : EntityType} (ha : a.target? = some "note")
    (hu : familySchema.targetOf a = .ok u) : u = note := by
  rw [Schema.targetOf, ha] at hu
  exact (Except.ok.inj hu).symm

/-- Every attribute of Ann and Bob is shown by their rows. -/
theorem family_person_shown : ∀ h ∈ family.members "person", ∀ a ∈ person.attributes,
    family.Shows familySchema person h a := by
  intro h hh a ha
  have hh' : h = 0 ∨ h = 1 := by simpa [family] using hh
  simp only [person, List.mem_cons, List.not_mem_nil, or_false] at ha
  rcases hh' with rfl | rfl
  · rcases ha with rfl | rfl | rfl | rfl | rfl | rfl
    · exact .terminal .int (.int 1) rfl rfl (by rintro _ ⟨⟩; rfl) rfl rfl
    · exact .terminal .string (.string "Ann") rfl rfl (by rintro _ ⟨⟩; rfl) rfl rfl
    · exact .terminal .int (.int 61) rfl rfl (by rintro _ ⟨⟩; rfl) rfl rfl
    · exact .terminal .string .null rfl rfl (by rintro _ ⟨⟩) rfl rfl
    · exact .toOne _ none rfl rfl (by rintro _ ⟨⟩) rfl
    · refine .toMany _ _ [] rfl rfl fun u hu r => ?_
      obtain rfl := family_target_note rfl hu
      have hnote : r ∈ family.members note.name ↔ r = 2 := by simp [family, note]
      rw [hnote]
      constructor
      · rintro ⟨⟩
      · rintro ⟨rfl, hcell⟩
        exact absurd hcell (by decide)
  · rcases ha with rfl | rfl | rfl | rfl | rfl | rfl
    · exact .terminal .int (.int 2) rfl rfl (by rintro _ ⟨⟩; rfl) rfl rfl
    · exact .terminal .string (.string "Bob") rfl rfl (by rintro _ ⟨⟩; rfl) rfl rfl
    · exact .terminal .int (.int 30) rfl rfl (by rintro _ ⟨⟩; rfl) rfl rfl
    · exact .terminal .string (.string "bo_b") rfl rfl (by rintro _ ⟨⟩; rfl) rfl rfl
    · refine .toOne _ (some 0) rfl rfl (fun r hr u hu => ?_) rfl
      obtain rfl := family_target_person rfl hu
      obtain rfl := Option.some.inj hr
      decide
    · refine .toMany _ _ [2] rfl rfl fun u hu r => ?_
      obtain rfl := family_target_note rfl hu
      have hnote : r ∈ family.members note.name ↔ r = 2 := by simp [family, note]
      rw [hnote, List.mem_singleton]
      constructor
      · rintro rfl
        exact ⟨rfl, by decide⟩
      · exact And.left

/-- Every attribute of the note is shown by its row. -/
theorem family_note_shown : ∀ h ∈ family.members "note", ∀ a ∈ note.attributes,
    family.Shows familySchema note h a := by
  intro h hh a ha
  obtain rfl : h = 2 := by simpa [family] using hh
  simp only [note, List.mem_cons, List.not_mem_nil, or_false] at ha
  rcases ha with rfl | rfl | rfl
  · exact .terminal .int (.int 10) rfl rfl (by rintro _ ⟨⟩; rfl) rfl rfl
  · exact .terminal .string (.string "likes tea") rfl rfl (by rintro _ ⟨⟩; rfl) rfl rfl
  · refine .toOne _ (some 1) rfl rfl (fun r hr u hu => ?_) rfl
    obtain rfl := family_target_person rfl hu
    obtain rfl := Option.some.inj hr
    decide

/-- The family's tables are an image of it. -/
theorem family_image : family.Image familySchema where
  rows := by
    intro t ht
    rcases registered_family ht with rfl | rfl <;> rfl
  ids := by
    intro t ht h hh
    rcases registered_family ht with rfl | rfl
    · have hh' : h = 0 ∨ h = 1 := by simpa [family, person] using hh
      rcases hh' with rfl | rfl
      · exact ⟨1, rfl⟩
      · exact ⟨2, rfl⟩
    · obtain rfl : h = 2 := by simpa [family, note] using hh
      exact ⟨10, rfl⟩
  unique := by
    intro t ht
    rcases registered_family ht with rfl | rfl <;> decide
  idCell := by
    intro t ht h hh
    rcases registered_family ht with rfl | rfl
    · have hh' : h = 0 ∨ h = 1 := by simpa [family, person] using hh
      rcases hh' with rfl | rfl <;> rfl
    · obtain rfl : h = 2 := by simpa [family, note] using hh
      rfl
  shown := by
    intro t ht h hh a ha
    have hmem := List.mem_of_find?_eq_some ha
    rcases registered_family ht with rfl | rfl
    · exact family_person_shown h hh a hmem
    · exact family_note_shown h hh a hmem

/-- People with a note about tea, or whose nickname holds an underscore, unless they have a parent
who is not Ann. -/
def familyFilter : FilterSpec :=
  .conjunction
    [ .disjunction
        [ .criterion ⟨"notes.text", .endsWith, .single (.string "tea")⟩,
          .criterion ⟨"nickname", .contains, .single (.string "_")⟩ ],
      .negation (.criterion ⟨"parent.name", .notEqualTo, .single (.string "Ann")⟩) ]

def familyOrder : OrderSpec := .conjunction [.key ⟨"parent.age", .desc⟩, .key ⟨"name", .asc⟩]

theorem familyFilter_wellPosed : familyFilter.WellPosed := by
  intro c hc
  have hc' : c = ⟨"notes.text", .endsWith, .single (.string "tea")⟩ ∨
      c = ⟨"nickname", .contains, .single (.string "_")⟩ ∨
      c = ⟨"parent.name", .notEqualTo, .single (.string "Ann")⟩ := by
    simpa [familyFilter, FilterSpec.criteria, FilterSpec.criteriaOfList] using hc
  rcases hc' with rfl | rfl | rfl
  · exact ⟨by decide, by rintro - _ ⟨⟩; rfl⟩
  · exact ⟨by decide, by rintro - _ ⟨⟩; rfl⟩
  · exact ⟨by decide, by rintro - _ ⟨⟩; rfl⟩

/-- Both backends find Bob. -/
theorem run_ofSpecs_family :
    ∃ p c, familyFilter.compile familySchema "person" = .ok p ∧
      familyOrder.compile familySchema "person" = .ok c ∧
      family.select "person" p c (some ⟨0, 1⟩) = [1] ∧
      ∃ q, Select.ofSpecs familySchema "person" (some familyFilter) (some familyOrder)
          (some ⟨0, 1⟩) = .ok q ∧
        q.run family.tables = (family.select "person" p c (some ⟨0, 1⟩)).map family.row :=
  ⟨_, _, rfl, rfl, by decide, Select.run_ofSpecs family_closed family_image rfl familyFilter_wellPosed
    rfl rfl _⟩

end Samples

end EntityStore
