import EntityStore.Filter.Json
import EntityStore.Proofs.Filter.Criteria
import EntityStore.Proofs.Json.Typed
import EntityStore.Proofs.Timestamp.Relaxed

/-!
# Specifications read back from JSON

A specification is written as a document of objects within objects: each node under the name of its
kind, each operand under that of its shape, each value under that of its kind. A reader that is allowed
as many levels as the document has takes them apart one by one. **A value, a filter and an order are
read back from their documents**, whatever the tree, the texts in it and the shapes of its operands, if
its floats are read back from their digits and its timestamps show years of four digits.
-/

namespace EntityStore

open Json (Written Spells SpellsItems Legible)

/-! ## How deep documents nest -/

namespace Json

mutual

/-- How many arrays and objects lie within one another. -/
def nesting : Json → Nat
  | .array items => nestingOfItems items + 1
  | .object members => nestingOfMembers members + 1
  | _ => 0

@[inherit_doc nesting]
def nestingOfItems : List Json → Nat
  | [] => 0
  | j :: rest => max (nesting j) (nestingOfItems rest)

@[inherit_doc nesting]
def nestingOfMembers : List (String × Json) → Nat
  | [] => 0
  | (_, j) :: rest => max (nesting j) (nestingOfMembers rest)

end

/-- The content of an object of one member, which takes up one level of nesting. -/
theorem Spells.node_of_nesting {kind : String} {content : Json} {w : Written} {depth : Nat}
    (h : Spells w (.object [(kind, content)]))
    (hdepth : (Json.object [(kind, content)]).nesting ≤ depth) :
    ∃ name c below, w = .object [(name, c)] ∧ decodeText? name = some kind ∧ Spells c content ∧
      depth = below + 1 ∧ content.nesting ≤ below := by
  obtain ⟨name, c, rfl, hname, hc⟩ := h.node
  simp only [nesting, nestingOfMembers, Nat.max_zero] at hdepth
  exact ⟨name, c, depth - 1, rfl, hname, hc, by omega, by omega⟩

end Json

/-! ## Values -/

/-- A value that JSON has a text for which it is read back from: a float is read back from its digits,
so it is finite, and a timestamp is that of a clock which shows a year of four digits. -/
def Value.Storable : Value → Prop
  | .float x => Json.ReadsBack x
  | .timestamp t => t.Readable ∧ 0 ≤ t.clock.date.year ∧ t.clock.date.year ≤ 9999
  | _ => True

namespace Value

variable {v : Value} {w : Written} {depth : Nat}

theorem legible_tagged {kind : String} {content : Json} (h : Legible content) :
    Legible (tagged kind content) :=
  .object (List.forall_mem_cons.mpr ⟨.text kind, List.forall_mem_singleton.mpr h⟩)

theorem legible_toJson (hv : v.Storable) : Legible v.toJson := by
  cases v with
  | null => exact .object (List.forall_mem_singleton.mpr (.text "null"))
  | bool b => exact legible_tagged (.bool b)
  | int i =>
    have hlow := i.le_toInt
    have hhigh := i.toInt_lt
    refine legible_tagged (.int ⟨?_, ?_⟩)
    · rw [Text.largestInt64]; omega
    · rw [Json.exactBound]; omega
  | float x => exact legible_tagged (.float hv)
  | string s => exact legible_tagged (.text s)
  | timestamp t => exact legible_tagged (.text _)
  | url s => exact legible_tagged (.text s)

theorem nesting_toJson_pos (v : Value) : 0 < v.toJson.nesting := by
  cases v <;> exact Nat.succ_pos _

/-- A value is read from its tag and what its content is read as. -/
theorem ofWritten?_of_tagged {kind : String} {content : Json} (h : Spells w (tagged kind content))
    (hkind : kind ∈ tags) (hcontent : ∀ c, Spells c content → ofContent? kind (some c) = some v) :
    ofWritten? false (depth + 1) w = some v := by
  obtain ⟨c, hc, htagged⟩ := h.tagged?_eq (by decide) hkind
  rw [ofWritten?, htagged]
  exact hcontent c hc

/-- **A value is read back from a document that spells it.** -/
theorem ofWritten?_of_spells (hv : v.Storable) (h : Spells w v.toJson) (hdepth : 0 < depth) :
    ofWritten? false depth w = some v := by
  obtain ⟨depth, rfl⟩ := Nat.exists_eq_succ_of_ne_zero (Nat.ne_of_gt hdepth)
  cases v with
  | null =>
    have htagged : w.tagged? false depth "type" "value" tags = some ⟨"null", none, false⟩ :=
      h.tagged?_bare (by decide) (by decide)
    rw [ofWritten?, htagged]
    rfl
  | bool b => exact ofWritten?_of_tagged h (by decide) fun c hc => by simp [ofContent?, hc.bool?_eq]
  | int i => exact ofWritten?_of_tagged h (by decide) fun c hc => by simp [ofContent?, hc.int64?_eq]
  | float x => exact ofWritten?_of_tagged h (by decide) fun c hc => by simp [ofContent?, hc.float?_eq]
  | string s => exact ofWritten?_of_tagged h (by decide) fun c hc => by simp [ofContent?, hc.string?_eq]
  | url s => exact ofWritten?_of_tagged h (by decide) fun c hc => by simp [ofContent?, hc.string?_eq]
  | timestamp t =>
    have hread := Timestamp.readRelaxed?_toZuluText hv.1 hv.2
    exact ofWritten?_of_tagged h (by decide) fun c hc => by simp [ofContent?, hc.string?_eq, hread]

end Value

/-! ## Operands -/

namespace Operand

variable {o : Operand} {w : Written} {depth : Nat}

theorem legible_toJson (ho : ∀ v ∈ o.values, v.Storable) : Legible o.toJson := by
  have hvalues : ∀ j ∈ o.values.map Value.toJson, Legible j := by
    intro j hj
    obtain ⟨v, hv, rfl⟩ := List.mem_map.mp hj
    exact Value.legible_toJson (ho v hv)
  have hshape : ∀ (shape : String) (content : Json), Legible content →
      Legible (.object [("shape", .text shape), ("values", content)]) := fun shape content h =>
    .object (List.forall_mem_cons.mpr ⟨.text shape, List.forall_mem_singleton.mpr h⟩)
  cases o with
  | single v => exact hshape _ _ (Value.legible_toJson (ho v (List.mem_singleton_self v)))
  | range low high => exact hshape _ _ (.array hvalues)
  | list vs => exact hshape _ _ (.array hvalues)

/-- The values of an operand are read back one by one. -/
theorem mapM_ofWritten? {vs : List Value} {ws : List Written}
    (h : SpellsItems ws (vs.map Value.toJson)) (hvs : ∀ v ∈ vs, v.Storable)
    (hdepth : Json.nestingOfItems (vs.map Value.toJson) ≤ depth) :
    ws.mapM (Value.ofWritten? false depth) = some vs := by
  induction vs generalizing ws with
  | nil =>
    cases h
    rfl
  | cons v vs ih =>
    obtain ⟨hv, hrest⟩ := List.forall_mem_cons.mp hvs
    rw [List.map_cons, Json.nestingOfItems, Nat.max_le] at hdepth
    cases h with
    | cons hw hws =>
      have hpos : 0 < depth := Nat.lt_of_lt_of_le v.nesting_toJson_pos hdepth.1
      simp [Value.ofWritten?_of_spells hv hw hpos, ih hws hrest hdepth.2]

/-- An operand is read from its shape and what its content is read as. -/
theorem ofWritten?_of_shape {shape : String} {content : Json}
    (h : Spells w (.object [("shape", .text shape), ("values", content)])) (hshape : shape ∈ shapes)
    (hcontent : ∀ c, Spells c content → ofContent? false depth shape c = some o) :
    ofWritten? (depth + 1) w = some o := by
  obtain ⟨c, hc, htagged⟩ := h.tagged?_eq (by decide) hshape
  rw [ofWritten?, htagged]
  exact hcontent c hc

/-- **An operand is read back from a document that spells it.** -/
theorem ofWritten?_of_spells (ho : ∀ v ∈ o.values, v.Storable) (h : Spells w o.toJson)
    (hdepth : o.toJson.nesting ≤ depth) : ofWritten? depth w = some o := by
  cases depth with
  | zero => cases o <;> simp [toJson, Json.nesting] at hdepth
  | succ depth =>
    cases o with
    | single v =>
      have hpos : 0 < depth := by
        have hv := v.nesting_toJson_pos
        simp only [toJson, Json.nesting, Json.nestingOfMembers] at hdepth
        omega
      refine ofWritten?_of_shape h (by decide) fun c hc => ?_
      rw [ofContent?, Value.ofWritten?_of_spells (ho v (List.mem_singleton_self v)) hc hpos]
      rfl
    | range low high =>
      refine ofWritten?_of_shape h (by decide) fun c hc => ?_
      cases depth with
      | zero => simp [toJson, Json.nesting, Json.nestingOfMembers] at hdepth
      | succ depth =>
        have hpos : 0 < depth := by
          have hlow := low.nesting_toJson_pos
          simp only [toJson, Json.nesting, Json.nestingOfMembers, Json.nestingOfItems] at hdepth
          omega
        cases hc with | array hc =>
        cases hc with | cons hl hc =>
        cases hc with | cons hh hc =>
        cases hc
        rw [ofContent?, Value.ofWritten?_of_spells (ho low List.mem_cons_self) hl hpos,
          Value.ofWritten?_of_spells (ho high (List.mem_cons_of_mem _ List.mem_cons_self)) hh hpos]
        rfl
    | list vs =>
      refine ofWritten?_of_shape h (by decide) fun c hc => ?_
      cases depth with
      | zero => simp [toJson, Json.nesting, Json.nestingOfMembers] at hdepth
      | succ depth =>
        have hitems : Json.nestingOfItems (vs.map Value.toJson) ≤ depth := by
          simp only [toJson, Json.nesting, Json.nestingOfMembers] at hdepth
          omega
        cases hc with
        | array hws =>
          rw [ofContent?, mapM_ofWritten? hws ho hitems]
          rfl

end Operand

/-! ## Criteria and sort keys -/

theorem Criterion.legible_toJson {c : Criterion} (hc : ∀ v ∈ c.operand.values, v.Storable) :
    Legible c.toJson :=
  .object (List.forall_mem_cons.mpr ⟨.text _, List.forall_mem_cons.mpr ⟨.text _,
    List.forall_mem_singleton.mpr (Operand.legible_toJson hc)⟩⟩)

/-- **A criterion is read back from a document that spells it.** -/
theorem Criterion.ofWritten?_of_spells {c : Criterion} {w : Written} {depth : Nat}
    (hc : ∀ v ∈ c.operand.values, v.Storable) (h : Spells w c.toJson)
    (hdepth : c.toJson.nesting ≤ depth) : ofWritten? depth w = some c := by
  obtain ⟨ws, hfields, hspells⟩ := h.fields?_eq (by simp)
  cases hspells with | @cons path _ _ _ hpath hspells =>
  cases hspells with | @cons operator _ _ _ hoperator hspells =>
  cases hspells with | @cons operand _ _ _ hoperand hspells =>
  cases hspells
  simp only [toJson, Json.nesting, Json.nestingOfMembers] at hdepth
  obtain ⟨depth, rfl⟩ := Nat.exists_eq_add_one_of_ne_zero (n := depth) (by omega)
  have hoperator' : FilterOperator.ofWritten? depth operator = some c.operator := by
    have hmem : c.operator.name ∈ FilterOperator.names := by cases c.operator <;> decide
    rw [FilterOperator.ofWritten?, hoperator.choice?_eq hmem]
    exact FilterOperator.ofName?_name c.operator
  have hoperand' : Operand.ofWritten? depth operand = some c.operand :=
    Operand.ofWritten?_of_spells hc hoperand (by omega)
  simp only [List.map_cons, List.map_nil] at hfields
  simp [ofWritten?, hfields, hpath.string?_eq, hoperator', hoperand']

theorem OrderKey.legible_toJson (k : OrderKey) : Legible k.toJson :=
  .object (List.forall_mem_cons.mpr ⟨.text _, List.forall_mem_singleton.mpr (.text _)⟩)

/-- **A sort key is read back from a document that spells it.** -/
theorem OrderKey.ofWritten?_of_spells {k : OrderKey} {w : Written} {depth : Nat}
    (h : Spells w k.toJson) (hdepth : 0 < depth) : ofWritten? depth w = some k := by
  obtain ⟨ws, hfields, hspells⟩ := h.fields?_eq (by simp)
  cases hspells with | @cons path _ _ _ hpath hspells =>
  cases hspells with | @cons direction _ _ _ hdirection hspells =>
  cases hspells
  obtain ⟨depth, rfl⟩ := Nat.exists_eq_add_one_of_ne_zero (Nat.ne_of_gt hdepth)
  have hdirection' : Direction.ofWritten? depth direction = some k.direction := by
    have hmem : k.direction.name ∈ ["asc", "desc"] := by cases k.direction <;> decide
    rw [Direction.ofWritten?, hdirection.choice?_eq hmem]
    cases k.direction <;> rfl
  simp only [List.map_cons, List.map_nil] at hfields
  simp [ofWritten?, hfields, hpath.string?_eq, hdirection']

/-! ## Filters -/

namespace FilterSpec

/-- All literals of a filter are read back from their texts. -/
def Storable (spec : FilterSpec) : Prop := ∀ c ∈ spec.criteria, ∀ v ∈ c.operand.values, v.Storable

variable {spec : FilterSpec} {w : Written} {depth : Nat}

theorem toJsons_eq (specs : List FilterSpec) : toJsons specs = specs.map toJson := by
  induction specs with
  | nil => rfl
  | cons spec rest ih => rw [toJsons, ih, List.map_cons]

theorem Storable.children {children : List FilterSpec}
    (h : ∀ c ∈ criteriaOfList children, ∀ v ∈ c.operand.values, v.Storable) :
    ∀ s ∈ children, s.Storable :=
  fun s hs c hc => h c (mem_criteriaOfList.mpr ⟨s, hs, hc⟩)

theorem legible_toJson : ∀ {spec : FilterSpec}, spec.Storable → Legible spec.toJson := by
  have hnode : ∀ (kind : String) (content : Json), Legible content →
      Legible (.object [(kind, content)]) := fun _ _ h => .object (List.forall_mem_singleton.mpr h)
  have hchildren : ∀ {children : List FilterSpec}, (∀ s ∈ children, s.Storable → Legible s.toJson) →
      (∀ s ∈ children, s.Storable) → Legible (.array (toJsons children)) := by
    intro children ih hstorable
    rw [toJsons_eq]
    refine .array fun j hj => ?_
    obtain ⟨s, hs, rfl⟩ := List.mem_map.mp hj
    exact ih s hs (hstorable s hs)
  intro spec
  induction spec using FilterSpec.ind with
  | criterion c => exact fun h => hnode _ _ (Criterion.legible_toJson (h c (List.mem_singleton_self c)))
  | conjunction children ih => exact fun h => hnode _ _ (hchildren ih (Storable.children h))
  | disjunction children ih => exact fun h => hnode _ _ (hchildren ih (Storable.children h))
  | negation child ih => exact fun h => hnode _ _ (ih h)

/-- A filter is read back from a document that spells it. -/
def ReadBack (spec : FilterSpec) : Prop :=
  ∀ w depth, Spells w spec.toJson → spec.toJson.nesting ≤ depth → ofWritten? depth w = some spec

/-- The children of a composite are read back one by one. -/
theorem listOfWritten?_of_spells {children : List FilterSpec} {ws : List Written}
    (h : SpellsItems ws (toJsons children)) (hdepth : Json.nestingOfItems (toJsons children) ≤ depth)
    (hread : ∀ s ∈ children, s.ReadBack) : listOfWritten? depth ws = some children := by
  induction children generalizing ws with
  | nil =>
    cases h
    rfl
  | cons s rest ih =>
    rw [toJsons, Json.nestingOfItems, Nat.max_le] at hdepth
    obtain ⟨hs, hrest⟩ := List.forall_mem_cons.mp hread
    cases h with
    | cons hw hws => simp [listOfWritten?, hs _ _ hw hdepth.1, ih hws hdepth.2 hrest]

theorem childrenOfWritten?_of_spells {children : List FilterSpec}
    (h : Spells w (.array (toJsons children)))
    (hdepth : Json.nestingOfItems (toJsons children) < depth) (hread : ∀ s ∈ children, s.ReadBack) :
    childrenOfWritten? depth w = some children := by
  cases depth with
  | zero => cases hdepth
  | succ depth =>
    cases h with
    | array h =>
      rw [childrenOfWritten?]
      exact listOfWritten?_of_spells h (Nat.le_of_lt_succ hdepth) hread

/-- **A filter is read back from a document that spells it.** By induction on the filter. -/
theorem readBack {spec : FilterSpec} (hspec : spec.Storable) : spec.ReadBack := by
  induction spec using FilterSpec.ind with
  | criterion c =>
    intro w depth h hdepth
    obtain ⟨name, content, below, rfl, hname, hc, rfl, hbelow⟩ := h.node_of_nesting hdepth
    simp [ofWritten?, hname,
      Criterion.ofWritten?_of_spells (hspec c (List.mem_singleton_self c)) hc hbelow]
  | conjunction children ih =>
    intro w depth h hdepth
    obtain ⟨name, content, below, rfl, hname, hc, rfl, hbelow⟩ := h.node_of_nesting hdepth
    have hread := childrenOfWritten?_of_spells hc hbelow fun s hs => ih s hs (Storable.children hspec s hs)
    simp [ofWritten?, hname, hread]
  | disjunction children ih =>
    intro w depth h hdepth
    obtain ⟨name, content, below, rfl, hname, hc, rfl, hbelow⟩ := h.node_of_nesting hdepth
    have hread := childrenOfWritten?_of_spells hc hbelow fun s hs => ih s hs (Storable.children hspec s hs)
    simp [ofWritten?, hname, hread]
  | negation child ih =>
    intro w depth h hdepth
    obtain ⟨name, content, below, rfl, hname, hc, rfl, hbelow⟩ := h.node_of_nesting hdepth
    simp [ofWritten?, hname, ih hspec content below hc hbelow]

end FilterSpec

/-! ## Orders -/

namespace OrderSpec

variable {w : Written} {depth : Nat}

theorem toJsons_eq (specs : List OrderSpec) : toJsons specs = specs.map toJson := by
  induction specs with
  | nil => rfl
  | cons spec rest ih => rw [toJsons, ih, List.map_cons]

mutual

theorem legible_toJson : ∀ spec : OrderSpec, Legible spec.toJson
  | .key k => .object (List.forall_mem_singleton.mpr k.legible_toJson)
  | .conjunction children =>
    .object (List.forall_mem_singleton.mpr (.array (legible_toJsons children)))

theorem legible_toJsons : ∀ specs : List OrderSpec, ∀ j ∈ toJsons specs, Legible j
  | [] => nofun
  | spec :: rest => List.forall_mem_cons.mpr ⟨legible_toJson spec, legible_toJsons rest⟩

end

mutual

/-- **An order is read back from a document that spells it.** By recursion on the order. -/
theorem ofWritten?_of_spells : ∀ (spec : OrderSpec) {w : Written} {depth : Nat},
    Spells w spec.toJson → spec.toJson.nesting ≤ depth → ofWritten? depth w = some spec
  | .key k, w, depth, h, hdepth => by
    obtain ⟨name, content, below, rfl, hname, hc, rfl, hbelow⟩ := h.node_of_nesting hdepth
    have hpos : 0 < below := Nat.lt_of_lt_of_le (Nat.succ_pos _) hbelow
    simp [ofWritten?, hname, OrderKey.ofWritten?_of_spells hc hpos]
  | .conjunction children, w, depth, h, hdepth => by
    obtain ⟨name, content, below, rfl, hname, hc, rfl, hbelow⟩ := h.node_of_nesting hdepth
    cases below with
    | zero => cases hbelow
    | succ below =>
      cases hc with
      | array hc =>
        simp [ofWritten?, childrenOfWritten?, hname,
          listOfWritten?_of_spells children hc (Nat.le_of_succ_le_succ hbelow)]

@[inherit_doc ofWritten?_of_spells]
theorem listOfWritten?_of_spells : ∀ (specs : List OrderSpec) {ws : List Written} {depth : Nat},
    SpellsItems ws (toJsons specs) → Json.nestingOfItems (toJsons specs) ≤ depth →
      listOfWritten? depth ws = some specs
  | [], ws, depth, h, hdepth => by
    cases h
    rfl
  | spec :: rest, ws, depth, h, hdepth => by
    rw [toJsons, Json.nestingOfItems, Nat.max_le] at hdepth
    cases h with
    | cons hw hws =>
      simp [listOfWritten?, ofWritten?_of_spells spec hw hdepth.1,
        listOfWritten?_of_spells rest hws hdepth.2]

end

end OrderSpec

/-! ## Whole documents -/

/-- What a typed reader makes of every document that spells a legible value it makes of its text. -/
theorem Json.decode?_write {α : Type} {read : Nat → Written → Option α} {j : Json} {x : α}
    (hj : Legible j) (hread : ∀ w, Spells w j → read depthLimit w = some x) :
    decode? read (write j) = some x := by
  obtain ⟨w, hw, hspells⟩ := hj.ofText?_write
  rw [decode?, hw]
  exact hread w hspells

/-- **Values, filters and orders are read back from their texts.** A value nests no deeper than any
reader goes; a filter and an order are to nest no deeper than the reader of whole documents does. -/
theorem decode?_write_storable :
    (∀ v : Value, v.Storable →
      Json.decode? (Value.ofWritten? false) (Json.write v.toJson) = some v) ∧
    (∀ spec : FilterSpec, spec.Storable → spec.toJson.nesting ≤ Json.depthLimit →
      Json.decode? FilterSpec.ofWritten? (Json.write spec.toJson) = some spec) ∧
    ∀ spec : OrderSpec, spec.toJson.nesting ≤ Json.depthLimit →
      Json.decode? OrderSpec.ofWritten? (Json.write spec.toJson) = some spec := by
  refine ⟨fun v hv => ?_, fun spec hspec hdepth => ?_, fun spec hdepth => ?_⟩
  · exact Json.decode?_write (Value.legible_toJson hv) fun w h =>
      Value.ofWritten?_of_spells hv h (by decide)
  · exact Json.decode?_write (FilterSpec.legible_toJson hspec) fun w h =>
      FilterSpec.readBack hspec w _ h hdepth
  · exact Json.decode?_write (OrderSpec.legible_toJson spec) fun w h =>
      OrderSpec.ofWritten?_of_spells spec h hdepth

/-- The filters and the orders of a query about a party: what costs 1.5 or less, or is not on one of
two days, and the dearest first. -/
theorem decode?_write_party :
    let price : Value := .float ⟨0x3FF8000000000000⟩
    let day : Value := .timestamp ⟨18690, 18367, 0, 60⟩
    let filter : FilterSpec := .disjunction
      [.criterion ⟨"price", .lessThanOrEqualTo, .single price⟩,
        .negation (.criterion ⟨"day", .contained, .list [day, .null]⟩)]
    let order : OrderSpec := .conjunction [.key ⟨"price", .desc⟩, .key ⟨"whole.title", .asc⟩]
    Json.decode? (Value.ofWritten? false) (Json.write day.toJson) = some day ∧
      Json.decode? FilterSpec.ofWritten? (Json.write filter.toJson) = some filter ∧
      Json.decode? OrderSpec.ofWritten? (Json.write order.toJson) = some order := by
  intro price day filter order
  have hprice : price.Storable := by
    show Json.ReadsBack _
    decide +kernel
  have hday : day.Storable := by
    refine ⟨⟨⟨⟨2021, 3, 4⟩, 6, 6, 7, 0⟩, 60, ?_, by decide⟩, ?_⟩ <;> decide +kernel
  have hfilter : filter.Storable :=
    List.forall_mem_cons.mpr ⟨List.forall_mem_singleton.mpr hprice, List.forall_mem_singleton.mpr
      (List.forall_mem_cons.mpr ⟨hday, List.forall_mem_singleton.mpr trivial⟩)⟩
  exact ⟨decode?_write_storable.1 day hday,
    decode?_write_storable.2.1 filter hfilter (by decide),
    decode?_write_storable.2.2 order (by decide)⟩

end EntityStore
