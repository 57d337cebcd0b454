import EntityStore.Proofs.Filter.Criteria
import EntityStore.Proofs.Schema.Walk
import EntityStore.Order.Comparing
import EntityStore.Samples.Types
import EntityStore.Select.OfSpec

/-!
# How queries fail

A query is checked before either backend begins, leaf by leaf from left to right, and the first
leaf at fault decides how it fails. In process that check is all there is. The relational backend
asks the schema for more where a path ends in a to-many relation: a criterion there compares the ids
of the related rows, so their table has to be known, and a schema that does not hold the target
has none to offer. Such a criterion is stranded: it passes the check and fails all the same.

Orders cross no to-many relation, and what they cross has been walked to by the check, so they
fail alike.
-/

namespace EntityStore

/-- How something came out, as far as it failed. -/
def verdict {ε α : Type} : Except ε α → Option ε
  | .error e => some e
  | .ok _ => none

theorem verdict_eq_some_iff {ε α : Type} {x : Except ε α} {e : ε} :
    verdict x = some e ↔ x = .error e := by
  cases x with
  | error e' => rw [verdict, Option.some.injEq, Except.error.injEq]
  | ok a => exact iff_of_false nofun nofun

theorem verdict_eq_none_iff {ε α : Type} {x : Except ε α} :
    verdict x = none ↔ ∃ a, x = .ok a := by
  cases x with
  | error e => exact iff_of_false nofun nofun
  | ok a => exact iff_of_true rfl ⟨a, rfl⟩

/-- What keeps the rows of a to-many relation from being found. -/
def Schema.stranding? (schema : Schema) (a : Attribute) : Option SchemaError :=
  match a.kind with
  | .toMany _ _ => verdict (schema.targetOf a)
  | _ => none

/-- What is wrong with a criterion that resolves, and ends in a to-many relation whose rows the
schema cannot name. -/
def Criterion.stranded? (schema : Schema) (root : String) (c : Criterion) : Option SchemaError :=
  match c.resolve schema root with
  | .error _ => none
  | .ok steps => steps.getLast?.bind fun s => schema.stranding? s.attr

/-- The first fault of a criterion in process. -/
def Criterion.fault? (schema : Schema) (root : String) (c : Criterion) : Option QueryError :=
  verdict (c.resolve schema root)

/-- The first fault of a criterion over tables. -/
def Criterion.tableFault? (schema : Schema) (root : String) (c : Criterion) : Option QueryError :=
  (c.fault? schema root).or ((c.stranded? schema root).map .schema)

variable {schema : Schema} {root : String}

/-! ## Filters -/

/-- A filter in process fails as its first faulty leaf does. -/
theorem FilterSpec.verdict_compile (spec : FilterSpec) :
    verdict (spec.compile schema root) =
      spec.criteria.findSome? fun c => c.fault? schema root := by
  have hlist : ∀ children : List FilterSpec,
      (∀ s ∈ children, verdict (s.compile schema root) =
        s.criteria.findSome? fun c => c.fault? schema root) →
      verdict (compileAll schema root children) =
        (criteriaOfList children).findSome? fun c => c.fault? schema root := by
    intro children
    induction children with
    | nil => exact fun _ => rfl
    | cons s rest ih =>
      intro h
      obtain ⟨hs, hrest⟩ := List.forall_mem_cons.mp h
      rw [criteriaOfList, List.findSome?_append, ← hs, ← ih hrest, compileAll]
      cases s.compile schema root with
      | error e => rfl
      | ok p => cases compileAll schema root rest <;> rfl
  induction spec using ind with
  | criterion c =>
    rw [compile, criteria, List.findSome?_singleton, Criterion.fault?]
    cases c.resolve schema root <;> rfl
  | conjunction children ih =>
    rw [compile, criteria, ← hlist children ih]
    cases compileAll schema root children <;> rfl
  | disjunction children ih =>
    rw [compile, criteria, ← hlist children ih]
    cases compileAll schema root children <;> rfl
  | negation child ih =>
    rw [compile, criteria, ← ih]
    cases child.compile schema root <;> rfl

theorem getLast?_cons_of_ne_nil {step : Step} {rest : List Step} (hne : rest ≠ []) :
    (step :: rest).getLast? = rest.getLast? := by
  cases rest with
  | nil => exact absurd rfl hne
  | cons next rest => exact List.getLast?_cons_cons

/-- A path gives a condition, unless it ends in a to-many relation without rows. -/
theorem Condition.verdict_ofSteps {t : EntityType} {steps : List Step}
    (hpath : IsPath schema t steps) (c : Criterion) (owner : String) (used : Nat) :
    verdict (ofSteps schema c owner used steps) =
      (steps.getLast?.bind fun s => schema.stranding? s.attr).map QueryError.schema := by
  induction hpath generalizing owner used with
  | @last t a ha =>
    show _ = (schema.stranding? a).map QueryError.schema
    rw [ofSteps, Schema.stranding?]
    cases a.kind with
    | terminal kind => rfl
    | toOne target => rfl
    | toMany target remote => cases schema.targetOf a <;> rfl
  | @hop t u a rest ha hrel hu hrest ih =>
    have hempty : rest.isEmpty = false := by simpa using hrest.ne_nil
    rw [getLast?_cons_of_ne_nil hrest.ne_nil, ofSteps]
    cases hkind : a.kind with
    | terminal kind =>
      rw [Attribute.isTerminal, hkind] at hrel
      cases hrel
    | toOne target =>
      dsimp only
      rw [← ih (subLabel (used + 1)) (used + 1), hempty, hu]
      dsimp only
      cases ofSteps schema c (subLabel (used + 1)) (used + 1) rest <;> rfl
    | toMany target remote =>
      dsimp only
      rw [← ih (subLabel (used + 1)) (used + 1), hempty, hu]
      dsimp only
      cases ofSteps schema c (subLabel (used + 1)) (used + 1) rest <;> rfl

/-- A criterion over tables fails as it does in process, or because it is stranded. -/
theorem Condition.verdict_ofCriterion (c : Criterion) (used : Nat) :
    verdict (ofFilter schema root used (.criterion c)) = c.tableFault? schema root := by
  rw [ofFilter, Criterion.tableFault?, Criterion.fault?, Criterion.stranded?]
  cases hresolve : c.resolve schema root with
  | error e => rfl
  | ok steps =>
    obtain ⟨t, -, -, hpath⟩ := IsPath.of_resolve (Criterion.resolve_inv hresolve).1
    exact verdict_ofSteps hpath c rootLabel used

/-- A filter over tables fails as its first faulty leaf does. -/
theorem Condition.verdict_ofFilter (spec : FilterSpec) (used : Nat) :
    verdict (ofFilter schema root used spec) =
      spec.criteria.findSome? fun c => c.tableFault? schema root := by
  have hlist : ∀ (children : List FilterSpec) (used : Nat),
      (∀ s ∈ children, ∀ used, verdict (ofFilter schema root used s) =
        s.criteria.findSome? fun c => c.tableFault? schema root) →
      verdict (ofFilters schema root used children) =
        (FilterSpec.criteriaOfList children).findSome? fun c => c.tableFault? schema root := by
    intro children
    induction children with
    | nil => exact fun _ _ => rfl
    | cons s rest ih =>
      intro used h
      obtain ⟨hs, hrest⟩ := List.forall_mem_cons.mp h
      rw [FilterSpec.criteriaOfList, List.findSome?_append, ← hs used, ofFilters]
      cases ofFilter schema root used s with
      | error e => rfl
      | ok made =>
        rw [← ih made.2 hrest]
        obtain ⟨condition, next⟩ := made
        simp only
        cases ofFilters schema root next rest <;> rfl
  induction spec using FilterSpec.ind generalizing used with
  | criterion c =>
    rw [verdict_ofCriterion, FilterSpec.criteria, List.findSome?_singleton]
  | conjunction children ih =>
    rw [ofFilter, FilterSpec.criteria, ← hlist children used ih]
    cases ofFilters schema root used children <;> rfl
  | disjunction children ih =>
    rw [ofFilter, FilterSpec.criteria, ← hlist children used ih]
    cases ofFilters schema root used children <;> rfl
  | negation child ih =>
    rw [ofFilter, FilterSpec.criteria, ← ih used]
    cases ofFilter schema root used child <;> rfl

/-! ## Orders -/

theorem PathJoins.exists_reach {u : EntityType} {a : Attribute} (hu : schema.targetOf a = .ok u)
    (joins : PathJoins) (path : List String) (owner : String) :
    ∃ reached, joins.reach schema path owner a = .ok reached := by
  rw [reach, hu]
  cases joins.find? fun j => j.1 == path with
  | none => exact ⟨_, rfl⟩
  | some found => exact ⟨_, rfl⟩

/-- What the check has walked to can be joined. -/
theorem exists_sortColumn {t : EntityType} {steps : List Step} (hpath : IsPath schema t steps)
    (joins : PathJoins) (path : List String) (owner : String) :
    ∃ made, sortColumn schema joins path owner steps = .ok made := by
  induction hpath generalizing joins path owner with
  | last => exact ⟨_, rfl⟩
  | @hop t u a rest ha hrel hu hrest ih =>
    have hempty : rest.isEmpty = false := by simpa using hrest.ne_nil
    obtain ⟨⟨label, joins'⟩, hreach⟩ := PathJoins.exists_reach hu joins (path ++ [a.name]) owner
    obtain ⟨made, hmade⟩ := ih joins' (path ++ [a.name]) label
    refine ⟨made, ?_⟩
    rw [sortColumn, hempty, hreach]
    exact hmade

mutual

/-- Both backends check an order alike. -/
theorem SortTerm.verdict_ofOrder :
    ∀ (spec : OrderSpec) (joins : PathJoins),
      verdict (ofOrder schema root joins spec) = verdict (spec.compile schema root)
  | .key k, joins => by
    rw [ofOrder, OrderSpec.compile]
    cases hresolve : k.resolve schema root with
    | error e => rfl
    | ok steps =>
      obtain ⟨t, -, -, hpath⟩ := IsPath.of_resolve (OrderKey.resolve_inv hresolve).1
      obtain ⟨made, hmade⟩ := exists_sortColumn hpath joins [] rootLabel
      dsimp only
      rw [hmade]
      rfl
  | .conjunction children, joins => by
    rw [ofOrder, OrderSpec.compile, SortTerm.verdict_ofOrders children joins]
    cases OrderSpec.compileAll schema root children <;> rfl

@[inherit_doc SortTerm.verdict_ofOrder]
theorem SortTerm.verdict_ofOrders :
    ∀ (specs : List OrderSpec) (joins : PathJoins),
      verdict (ofOrders schema root joins specs) = verdict (OrderSpec.compileAll schema root specs)
  | [], _ => rfl
  | spec :: rest, joins => by
    have hspec := SortTerm.verdict_ofOrder spec joins
    rw [ofOrders, OrderSpec.compileAll]
    cases hmade : ofOrder schema root joins spec with
    | error e =>
      rw [hmade] at hspec
      cases hcompiled : spec.compile schema root with
      | error e' =>
        rw [hcompiled] at hspec
        exact hspec
      | ok c =>
        rw [hcompiled] at hspec
        cases hspec
    | ok made =>
      rw [hmade] at hspec
      cases hcompiled : spec.compile schema root with
      | error e' =>
        rw [hcompiled] at hspec
        cases hspec
      | ok c =>
        have hrest := SortTerm.verdict_ofOrders rest made.2
        dsimp only
        cases hothers : ofOrders schema root made.2 rest <;>
          cases hcs : OrderSpec.compileAll schema root rest <;>
          rw [hothers, hcs] at hrest <;> exact hrest

end

/-! ## Whole queries -/

theorem Select.verdict_ofSpecs_filter (hroot : schema.contains root = true) (spec : FilterSpec)
    (window : Option Window) :
    verdict (ofSpecs schema root (some spec) none window) =
      verdict (Condition.ofFilter schema root 0 spec) := by
  obtain ⟨t, ht⟩ := Option.isSome_iff_exists.mp hroot
  rw [ofSpecs, Schema.require, ht]
  dsimp only
  rw [Condition.ofFilter?]
  cases Condition.ofFilter schema root 0 spec <;> rfl

theorem Select.verdict_ofSpecs_order (hroot : schema.contains root = true) (spec : OrderSpec)
    (window : Option Window) :
    verdict (ofSpecs schema root none (some spec) window) =
      verdict (SortTerm.ofOrder schema root [] spec) := by
  obtain ⟨t, ht⟩ := Option.isSome_iff_exists.mp hroot
  rw [ofSpecs, Schema.require, ht]
  dsimp only
  rw [Condition.ofFilter?]
  dsimp only
  rw [SortTerm.ofOrder?]
  cases SortTerm.ofOrder schema root [] spec <;> rfl

/-- Criteria that the check does not fail as the tables do: one of them is stranded, none before it
is at fault, and the first fault after it, if there is one, is another. -/
inductive Overlooked (schema : Schema) (root : String) : List Criterion → Prop
  | here {c : Criterion} {rest : List Criterion} {e : SchemaError}
      (hc : c.stranded? schema root = some e)
      (hrest : (rest.findSome? fun d => d.fault? schema root) ≠ some (.schema e)) :
      Overlooked schema root (c :: rest)
  | later {c : Criterion} {rest : List Criterion} (hc : c.tableFault? schema root = none)
      (hrest : Overlooked schema root rest) : Overlooked schema root (c :: rest)

/-- A stranded criterion passes the check. -/
theorem Criterion.fault?_of_stranded {c : Criterion} {e : SchemaError}
    (h : c.stranded? schema root = some e) : c.fault? schema root = none := by
  unfold stranded? at h
  unfold fault?
  cases hresolve : c.resolve schema root with
  | error e =>
    rw [hresolve] at h
    cases h
  | ok steps => rfl

/-- The first faults are the same unless they are overlooked. By cases on how the first criterion
fares: it fails the check, it is stranded, or neither. -/
theorem findSome?_tableFault_eq_iff (cs : List Criterion) :
    (cs.findSome? fun c => c.tableFault? schema root) =
        (cs.findSome? fun c => c.fault? schema root) ↔ ¬ Overlooked schema root cs := by
  induction cs with
  | nil => exact iff_of_true rfl fun h => nomatch h
  | cons c rest ih =>
    rw [List.findSome?_cons, List.findSome?_cons]
    cases hstranded : c.stranded? schema root with
    | some e =>
      have hfault := Criterion.fault?_of_stranded hstranded
      have htable : c.tableFault? schema root = some (.schema e) := by
        rw [Criterion.tableFault?, hfault, hstranded]
        rfl
      rw [htable, hfault]
      refine ⟨fun heq h => ?_, fun h => ?_⟩
      · cases h with
        | here hc hrest =>
          obtain rfl := Option.some.inj (hstranded.symm.trans hc)
          exact hrest heq.symm
        | later hc => exact nomatch htable.symm.trans hc
      · exact (not_not.mp fun hne => h (.here hstranded fun heq => hne heq.symm))
    | none =>
      have htable : c.tableFault? schema root = c.fault? schema root := by
        rw [Criterion.tableFault?, hstranded, Option.map_none, Option.or_none]
      rw [htable]
      cases hfault : c.fault? schema root with
      | some q =>
        refine iff_of_true rfl fun h => ?_
        cases h with
        | here hc => exact nomatch hstranded.symm.trans hc
        | later hc => exact nomatch hfault.symm.trans (htable.symm.trans hc)
      | none =>
        refine ih.trans (not_congr ⟨fun h => .later (htable.trans hfault) h, fun h => ?_⟩)
        cases h with
        | here hc => exact nomatch hstranded.symm.trans hc
        | later _ hrest => exact hrest

/-- The last step of a path from a registered type is an attribute of a registered type. -/
theorem IsPath.last_registered {t : EntityType} {steps : List Step} (hpath : IsPath schema t steps)
    (ht : schema.Registered t) {last : Step} (hlast : steps.getLast? = some last) :
    schema.Registered last.owner ∧ last.owner.attribute? last.attr.name = some last.attr := by
  induction hpath with
  | last ha =>
    obtain rfl := Option.some.inj hlast
    exact ⟨ht, ha⟩
  | hop ha hrel hu hrest ih =>
    rw [getLast?_cons_of_ne_nil hrest.ne_nil] at hlast
    exact ih (Schema.registered_of_targetOf hu) hlast

/-- Every to-many relation of a registered type leads to a registered type. -/
def Schema.HoldsMany (schema : Schema) : Prop :=
  ∀ t ∈ schema.types, ∀ a ∈ t.attributes, a.isToMany = true → ∃ u, schema.targetOf a = .ok u

theorem Attribute.isRelation_of_isToMany {a : Attribute} (h : a.isToMany = true) :
    a.isRelation = true := by
  rw [isToMany] at h
  rw [isRelation, isTerminal]
  cases hkind : a.kind with
  | terminal kind =>
    rw [hkind] at h
    cases h
  | toOne target => rfl
  | toMany target remote => rfl

theorem Schema.Closed.holdsMany (hclosed : schema.Closed) : schema.HoldsMany := by
  intro t ht a ha hmany
  exact hclosed t ht a ha (Attribute.isRelation_of_isToMany hmany)

/-- Nothing is stranded where the schema holds what to-many relations lead to. -/
theorem Criterion.not_stranded_of_holdsMany (hmany : schema.HoldsMany) (c : Criterion) :
    c.stranded? schema root = none := by
  unfold stranded?
  cases hresolve : c.resolve schema root with
  | error e => rfl
  | ok steps =>
    obtain ⟨hpath, last, hlast, -⟩ := Criterion.resolve_inv hresolve
    obtain ⟨t, -, ht, hpath⟩ := IsPath.of_resolve hpath
    obtain ⟨howner, hattr⟩ := hpath.last_registered ht hlast
    dsimp only
    rw [hlast, Option.bind_some, Schema.stranding?]
    cases hkind : last.attr.kind with
    | terminal kind => rfl
    | toOne target => rfl
    | toMany target remote =>
      obtain ⟨u, hu⟩ := hmany last.owner (List.mem_of_find?_eq_some howner) last.attr
        (List.mem_of_find?_eq_some hattr) (by rw [Attribute.isToMany, hkind])
      dsimp only
      rw [hu]
      rfl

theorem not_overlooked_of_holdsMany (hmany : schema.HoldsMany) (cs : List Criterion) :
    ¬ Overlooked schema root cs := by
  intro h
  induction h with
  | here hc => exact nomatch (Criterion.not_stranded_of_holdsMany hmany _).symm.trans hc
  | later _ _ ih => exact ih

theorem not_overlooked_of_closed (hclosed : schema.Closed) (cs : List Criterion) :
    ¬ Overlooked schema root cs :=
  not_overlooked_of_holdsMany hclosed.holdsMany cs

/-- Where the schema holds what to-many relations lead to, both backends check a filter alike. -/
theorem Condition.verdict_ofFilter_of_holdsMany (hmany : schema.HoldsMany) (spec : FilterSpec)
    (used : Nat) : verdict (ofFilter schema root used spec) = verdict (spec.compile schema root) := by
  rw [verdict_ofFilter, FilterSpec.verdict_compile]
  exact (findSome?_tableFault_eq_iff spec.criteria).mpr (not_overlooked_of_holdsMany hmany _)

/-- **Queries fail alike.** On a registered type, an order fails over tables just as it fails in
process, with the same error, and a filter does so exactly when no stranded leaf of it is
overlooked; in a schema that holds what its relations lead to, every filter does. -/
theorem Select.fails_alike (hroot : schema.contains root = true) (window : Option Window) :
    (∀ order : OrderSpec, verdict (ofSpecs schema root none (some order) window) =
        verdict (order.compile schema root)) ∧
      (∀ filter : FilterSpec, verdict (ofSpecs schema root (some filter) none window) =
          verdict (filter.compile schema root) ↔ ¬ Overlooked schema root filter.criteria) ∧
      (schema.Closed → ∀ filter : FilterSpec,
        verdict (ofSpecs schema root (some filter) none window) =
          verdict (filter.compile schema root)) := by
  have hfilters : ∀ filter : FilterSpec, verdict (ofSpecs schema root (some filter) none window) =
      verdict (filter.compile schema root) ↔ ¬ Overlooked schema root filter.criteria := by
    intro filter
    rw [verdict_ofSpecs_filter hroot, Condition.verdict_ofFilter, FilterSpec.verdict_compile]
    exact findSome?_tableFault_eq_iff filter.criteria
  refine ⟨fun order => ?_, hfilters, fun hclosed filter => ?_⟩
  · rw [verdict_ofSpecs_order hroot, SortTerm.verdict_ofOrder]
  · exact (hfilters filter).mpr (not_overlooked_of_closed hclosed filter.criteria)

open Samples

/-- People by a parent and by a note, which is not asked for by its id. -/
def byParentAndText : FilterSpec :=
  .conjunction [.equalTo "parent" (.int 1), .equalTo "notes" (.string "tea")]

/-- Without a table of notes, the filter still fails alike: the literal is at fault. -/
theorem Select.fails_alike_byParentAndText :
    (Schema.ofList [person]).contains "person" = true ∧
      verdict (ofSpecs (Schema.ofList [person]) "person" (some byParentAndText) none none) =
        verdict (byParentAndText.compile (Schema.ofList [person]) "person") ∧
      verdict (byParentAndText.compile (Schema.ofList [person]) "person") =
        some (.invalidOperand (.relationLiteral "notes" (.string "tea"))) := by
  have hroot : (Schema.ofList [person]).contains "person" = true := by decide +kernel
  have hstranded : ∀ c ∈ byParentAndText.criteria,
      c.stranded? (Schema.ofList [person]) "person" = none := by decide +kernel
  refine ⟨hroot, ((Select.fails_alike hroot none).2.1 byParentAndText).mpr ?_, by decide +kernel⟩
  intro h
  cases h with
  | here hc => exact nomatch (hstranded _ (.head _)).symm.trans hc
  | later _ h =>
    cases h with
    | here hc => exact nomatch (hstranded _ (.tail _ (.head _))).symm.trans hc
    | later _ h => cases h

/-- People by a note. -/
def byNote : FilterSpec := .equalTo "notes" (.int 1)

/-- Without a table of notes, the filter is accepted in process and fails over tables. -/
theorem Select.not_fails_alike_byNote :
    (Schema.ofList [person]).contains "person" = true ∧
      verdict (byNote.compile (Schema.ofList [person]) "person") = none ∧
      verdict (ofSpecs (Schema.ofList [person]) "person" (some byNote) none none) =
        some (.schema (.unregistered "note")) := by
  decide +kernel

end EntityStore
