import EntityStore.Proofs.Collection.KeyLookups
import EntityStore.Proofs.Select.Failures
import EntityStore.Proofs.Session.Finding

/-!
# Reads that are refused

A view is checked against the type before anything is read, by every way of reading it and on either
kind of collection. So where its filter does not fit the type, nothing comes of a read but the error:
no state of the session or of the connection makes a difference, not even one in which they would
fail themselves, and the state is left as it was. Both kinds of collection give the same error, since
the key that a look-up asks for is put behind the filter and the order is checked after it.
-/

namespace EntityStore

/-- A step that fails with an error and does nothing else, whatever the state. -/
def Refuses {ε σ α : Type} (m : ExceptT ε (StateM σ) α) (e : ε) : Prop :=
  ∀ s, exec m s = (.error e, s)

/-- Every way of reading a collection fails with an error and does nothing else. -/
structure Collection.RefusesReads {ε σ : Type} (c : Collection (ExceptT ε (StateM σ))) (e : ε) :
    Prop where
  count : Refuses c.count e
  items : Refuses c.items e
  getById : ∀ id, Refuses (c.getById id) e
  getBySlug : ∀ slug, Refuses (c.getBySlug slug) e

section Steps

variable {ε σ α β : Type} {m : ExceptT ε (StateM σ) α} {e : ε}

/-- What comes after a refusal is not done. -/
theorem Refuses.bind (h : Refuses m e) (f : α → ExceptT ε (StateM σ) β) : Refuses (m >>= f) e := by
  intro s
  rw [exec_bind, h s]

theorem Refuses.bind_of_ok {f : α → ExceptT ε (StateM σ) β} {a : α}
    (hm : ∀ s, exec m s = (.ok a, s)) (h : Refuses (f a) e) : Refuses (m >>= f) e := by
  intro s
  rw [exec_bind, hm s]
  exact h s

end Steps

/-- What is wrong with the filter of a view of a type. -/
def View.filterFault? (view : View) (schema : Schema) (root : String) : Option QueryError :=
  view.filter.bind fun filter => verdict (filter.compile schema root)

/-- What is wrong with the order of a view of a type. -/
def View.orderFault? (view : View) (schema : Schema) (root : String) : Option QueryError :=
  view.order.bind fun order => verdict (order.compile schema root)

theorem verdict_mapM {ε α β : Type} (f : α → Except ε β) (o : Option α) :
    verdict (o.mapM f) = o.bind fun a => verdict (f a) := by
  cases o with
  | none => rfl
  | some a =>
    show verdict (Except.map some (f a)) = verdict (f a)
    cases f a <;> rfl

/-! ## In a session -/

namespace SessionCollection

variable {c : SessionCollection} {e : QueryError}

theorem refuses_check {α : Type} {r : Except QueryError α} (h : verdict r = some e) :
    Refuses (check r) (.store (.query e)) := by
  intro w
  rw [exec_check, verdict_eq_some_iff.mp h]
  rfl

/-- Every read starts with the check of the filter. -/
theorem refusesReads_of_filterFault (sorter : Sorter Handle)
    (h : c.view.filterFault? c.schema c.type = some e) :
    (c.toCollection sorter).RefusesReads (.store (.query e)) := by
  have hpredicate : Refuses c.predicate (.store (.query e)) :=
    refuses_check ((verdict_mapM _ _).trans h)
  exact ⟨hpredicate.bind _, hpredicate.bind _, fun _ => hpredicate.bind _,
    fun _ => hpredicate.bind _⟩

/-- Listing goes on with the check of the order. -/
theorem refuses_items_of_orderFault (sorter : Sorter Handle)
    (hfilter : c.view.filterFault? c.schema c.type = none)
    (horder : c.view.orderFault? c.schema c.type = some e) :
    Refuses (c.items sorter) (.store (.query e)) := by
  have hcomparator : Refuses c.comparator (.store (.query e)) :=
    refuses_check ((verdict_mapM _ _).trans horder)
  obtain ⟨p, hp⟩ := verdict_eq_none_iff.mp ((verdict_mapM _ _).trans hfilter)
  have hpredicate : ∀ w, exec c.predicate w = (.ok p, w) := by
    intro w
    rw [show exec c.predicate w = _ from exec_check _ w, hp]
    rfl
  exact .bind_of_ok hpredicate (hcomparator.bind _)

end SessionCollection

/-! ## Over a table -/

namespace FilterSpec

theorem criteriaOfList_conjuncts (s : FilterSpec) : criteriaOfList s.conjuncts = s.criteria := by
  cases s with
  | conjunction children => rfl
  | criterion _ | disjunction _ | negation _ => exact List.append_nil _

theorem criteria_collapse (specs : List FilterSpec) :
    (collapse .conjunction specs).criteria = criteriaOfList specs := by
  match specs with
  | [] | _ :: _ :: _ => rfl
  | [only] => exact (List.append_nil _).symm

/-- The leaves of the first filter come before those of the second. -/
theorem criteria_and (f g : FilterSpec) : (f.and g).criteria = f.criteria ++ g.criteria := by
  rw [and, all, criteria_collapse, criteriaOfList_eq, List.flatMap_cons, List.flatMap_singleton,
    List.flatMap_append, ← criteriaOfList_eq, ← criteriaOfList_eq, criteriaOfList_conjuncts,
    criteriaOfList_conjuncts]

end FilterSpec

/-- Of two filters that have to hold, it is the first that fails, and otherwise the second. -/
theorem FilterSpec.verdict_compile_and {schema : Schema} {root : String} (f g : FilterSpec) :
    verdict ((f.and g).compile schema root) =
      (verdict (f.compile schema root)).or (verdict (g.compile schema root)) := by
  rw [verdict_compile, verdict_compile, verdict_compile, criteria_and, List.findSome?_append]

namespace Select

variable {schema : Schema} {root : String}

/-- A query fails as its filter does in process, and if it is not the filter then as its order. -/
theorem verdict_ofSpecs (hroot : schema.contains root = true) (hmany : schema.HoldsMany)
    (filter : Option FilterSpec) (order : Option OrderSpec) (window : Option Window) :
    verdict (ofSpecs schema root filter order window) =
      (filter.bind fun f => verdict (f.compile schema root)).or
        (order.bind fun o => verdict (o.compile schema root)) := by
  obtain ⟨t, ht⟩ := Option.isSome_iff_exists.mp hroot
  have hfilter : verdict (Condition.ofFilter? schema root filter) =
      filter.bind fun f => verdict (f.compile schema root) := by
    cases filter with
    | none => rfl
    | some f =>
      rw [Option.bind_some, ← Condition.verdict_ofFilter_of_holdsMany hmany f 0,
        Condition.ofFilter?]
      cases Condition.ofFilter schema root 0 f <;> rfl
  have horder : verdict (SortTerm.ofOrder? schema root order) =
      order.bind fun o => verdict (o.compile schema root) := by
    cases order with
    | none => rfl
    | some o =>
      rw [Option.bind_some, ← SortTerm.verdict_ofOrder o [], SortTerm.ofOrder?]
      cases SortTerm.ofOrder schema root [] o <;> rfl
  rw [← hfilter, ← horder, ofSpecs, Schema.require, ht]
  dsimp only
  cases Condition.ofFilter? schema root filter with
  | error e => rfl
  | ok condition => cases SortTerm.ofOrder? schema root order <;> rfl

end Select

namespace TableCollection

variable {σ : Type} {c : TableCollection σ} {e : QueryError}

theorem refuses_query {filter : Option FilterSpec} {order : Option OrderSpec}
    {window : Option Window}
    (h : verdict (Select.ofSpecs c.schema c.type.name filter order window) = some e) :
    Refuses (c.query filter order window) (.query e) := by
  intro l
  rw [query, exec_ofExcept, verdict_eq_some_iff.mp h]
  rfl

/-- Every read starts with a query that is made of the filter, or of the filter and a key. -/
theorem refusesReads_of_filterFault (hroot : c.schema.contains c.type.name = true)
    (hmany : c.schema.HoldsMany) (h : c.view.filterFault? c.schema c.type.name = some e) :
    c.toCollection.RefusesReads (.query e) := by
  obtain ⟨filter, hview, hfilter⟩ := Option.bind_eq_some_iff.mp h
  have hquery : ∀ order window, Refuses (c.query c.view.filter order window) (.query e) := by
    intro order window
    refine refuses_query ?_
    rw [hview, Select.verdict_ofSpecs hroot hmany, Option.bind_some, hfilter, Option.some_or]
  have hkey : ∀ name value key,
      Refuses (c.findByAttribute c.view.filter name value key) (.query e) := by
    intro name value key
    rw [hview]
    -- the key stands behind the filter, so it is the filter that fails first
    refine Refuses.bind (refuses_query ?_) _
    rw [Select.verdict_ofSpecs hroot hmany, Option.bind_some, narrow,
      FilterSpec.verdict_compile_and, hfilter, Option.some_or, Option.some_or]
  refine ⟨(hquery _ _).bind _, (hquery _ _).bind _, fun id => hkey _ _ _, fun slug => ?_⟩
  show Refuses (c.findBySlug c.view.filter slug) (.query e)
  rw [findBySlug]
  cases c.type.slugAttribute with
  | some name => exact hkey _ _ _
  | none => exact (hquery _ _).bind _

theorem refuses_items_of_orderFault (hroot : c.schema.contains c.type.name = true)
    (hmany : c.schema.HoldsMany) (hfilter : c.view.filterFault? c.schema c.type.name = none)
    (horder : c.view.orderFault? c.schema c.type.name = some e) : Refuses c.items (.query e) := by
  refine Refuses.bind (refuses_query ?_) _
  rw [Select.verdict_ofSpecs hroot hmany]
  show (c.view.filterFault? c.schema c.type.name).or (c.view.orderFault? c.schema c.type.name) = _
  rw [hfilter, horder, Option.none_or]

end TableCollection

/-! ## Both kinds of collection -/

/-- **Views that do not fit are refused.** Where the schema holds the type and what to-many relations
lead to, take any view of the entities of the type in a session, be they all of them or the children
of a parent, and of the rows of its table. If its filter does not compile, counting, listing and both
look-ups fail with the error of the filter, on either collection and whatever the order; and if it is
only the order that does not compile, listing fails with the error of the order. In each case nothing
else is done. -/
theorem Collection.refuses_unfit_views {σ : Type} {schema : Schema} {t : EntityType}
    (hroot : schema.contains t.name = true) (hmany : schema.HoldsMany)
    (scope : Option Relationship) (sorter : Sorter Handle) (connection : Connection σ) (view : View) :
    (∀ e, view.filterFault? schema t.name = some e →
      (SessionCollection.toCollection ⟨t.name, schema, scope, view⟩ sorter).RefusesReads
          (.store (.query e)) ∧
        (TableCollection.toCollection ⟨t, schema, connection, view⟩).RefusesReads (.query e)) ∧
    ∀ e, view.filterFault? schema t.name = none → view.orderFault? schema t.name = some e →
      Refuses (SessionCollection.toCollection ⟨t.name, schema, scope, view⟩ sorter).items
          (.store (.query e)) ∧
        Refuses (TableCollection.toCollection ⟨t, schema, connection, view⟩).items (.query e) := by
  refine ⟨?_, ?_⟩
  · intro e hfilter
    exact ⟨SessionCollection.refusesReads_of_filterFault sorter hfilter,
      TableCollection.refusesReads_of_filterFault hroot hmany hfilter⟩
  · intro e hfilter horder
    exact ⟨SessionCollection.refuses_items_of_orderFault sorter hfilter horder,
      TableCollection.refuses_items_of_orderFault hroot hmany hfilter horder⟩


open Samples

/-- People whose ages are texts with a one in them, by what their names lead to; in search mode. -/
def unfitPeople : View where
  filter := some (.criterion ⟨"age", .contains, .single (.string "1")⟩)
  order := some (.key ⟨"name.first", .asc⟩)
  window := none
  searchMode := true

/-- In search mode too, the view is refused for its filter, by every read of the people a session or
a logged connection has, and nothing is logged. Once the filter is gone it is refused for its order,
when the people are listed. -/
theorem Collection.refuses_unfit_views_people :
    (Schema.ofList Samples.all).contains "person" = true ∧ (Schema.ofList Samples.all).HoldsMany ∧
      (SessionCollection.toCollection
          ⟨"person", .ofList Samples.all, none, unfitPeople⟩).RefusesReads
        (.store (.query (.operatorMismatch "age" .contains (some .int)))) ∧
      (TableCollection.toCollection ⟨person, .ofList Samples.all,
          TableCollection.logged (fun _ => []) fun _ => blank person, unfitPeople⟩).RefusesReads
        (.query (.operatorMismatch "age" .contains (some .int))) ∧
      Refuses (TableCollection.toCollection ⟨person, .ofList Samples.all,
          TableCollection.logged (fun _ => []) fun _ => blank person,
          { unfitPeople with filter := none }⟩).items
        (.query (.schema (.invalidPath "person" "name.first" (.notTraversable "name")))) := by
  have hroot : (Schema.ofList Samples.all).contains "person" = true := by decide +kernel
  have hmany : (Schema.ofList Samples.all).HoldsMany := by
    intro t ht a ha hmany
    have htargets : ∀ t ∈ (Schema.ofList Samples.all).types, ∀ a ∈ t.attributes,
        a.isToMany = true → verdict ((Schema.ofList Samples.all).targetOf a) = none := by
      decide +kernel
    exact verdict_eq_none_iff.mp (htargets t ht a ha hmany)
  have hfilter : unfitPeople.filterFault? (.ofList Samples.all) "person" =
      some (.operatorMismatch "age" .contains (some .int)) := by decide +kernel
  have horder : unfitPeople.orderFault? (.ofList Samples.all) "person" =
      some (.schema (.invalidPath "person" "name.first" (.notTraversable "name"))) := by
    decide +kernel
  have hrefused := Collection.refuses_unfit_views (t := person) hroot hmany none .cautious
    (TableCollection.logged (fun _ => []) fun _ => blank person)
  obtain ⟨hsession, htable⟩ := (hrefused unfitPeople).1 _ hfilter
  exact ⟨hroot, hmany, hsession, htable,
    ((hrefused { unfitPeople with filter := none }).2 _ rfl horder).2⟩

end EntityStore
