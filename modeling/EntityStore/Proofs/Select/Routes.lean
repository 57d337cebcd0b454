import EntityStore.Proofs.Select.Failures
import EntityStore.Proofs.Select.Orders
import EntityStore.Proofs.Select.Scopes
import EntityStore.Samples.Types

/-!
# The labels of a compiled query

A query reads columns of the queried row, of rows joined to it for sorting, and of the rows its
filter looks for. Each of these rows has a label of its own. A condition of a join reads the label
of that join and labels from before it, a sort term reads the label of the join its path needs, and
a filter reads under its sub-selects what they give a label to.

Which joins there are is decided by the paths of the sort keys alone: there is one for every
relation path that one of them goes on from, however many do.
-/

namespace EntityStore

/-! ## Paths that are joined -/

/-- A sort key goes through the rows a path leads to: its own path starts with it and goes on. -/
def OrderKey.Crosses (k : OrderKey) (path : List String) : Prop :=
  path ≠ [] ∧ ∃ rest, rest ≠ [] ∧ path ++ rest = Path.segments k.path

namespace PathJoins

/-- The paths that have been joined. -/
def paths (joins : PathJoins) : List (List String) := joins.map (·.1)

/-- Joins have been added for the paths that needed one and had none. -/
structure Grown (joins joins' : PathJoins) (needed : List String → Prop) : Prop where
  nodup : joins.paths.Nodup → joins'.paths.Nodup
  mem : ∀ path, path ∈ joins'.paths ↔ path ∈ joins.paths ∨ needed path

variable {joins joins' joins'' : PathJoins} {needed needed' : List String → Prop}

theorem Grown.refl (h : ∀ path, ¬ needed path) : Grown joins joins needed :=
  ⟨id, fun path => by simp [h path]⟩

theorem Grown.trans (h : Grown joins joins' needed) (h' : Grown joins' joins'' needed')
    {both : List String → Prop} (hboth : ∀ path, both path ↔ needed path ∨ needed' path) :
    Grown joins joins'' both :=
  ⟨h'.nodup ∘ h.nodup, fun path => by rw [h'.mem, h.mem, hboth, or_assoc]⟩

/-- A path is joined at most once. -/
theorem grown_reach {schema : Schema} {path : List String} {owner label : String} {a : Attribute}
    (h : joins.reach schema path owner a = .ok (label, joins')) :
    Grown joins joins' (· = path) := by
  rw [reach] at h
  split at h
  case h_1 path' j hfind =>
    cases h
    have heq : path' = path := by simpa using List.find?_some hfind
    have hmem : path ∈ joins.paths :=
      List.mem_map.mpr ⟨(path', j), List.mem_of_find?_eq_some hfind, heq⟩
    exact ⟨id, fun p => (or_iff_left_of_imp fun hp => hp ▸ hmem).symm⟩
  case h_2 hfind =>
    split at h
    · cases h
    · cases h
      have hnew : path ∉ joins.paths := by
        intro hmem
        obtain ⟨entry, hentry, hpath⟩ := List.mem_map.mp hmem
        exact List.find?_eq_none.mp hfind entry hentry (by simpa using hpath)
      refine ⟨fun hnodup => ?_, fun p => ?_⟩
      · rw [paths, List.map_append]
        exact hnodup.append (List.nodup_singleton _) (List.disjoint_singleton.mpr hnew)
      · rw [paths, List.map_append, List.mem_append, List.map_singleton, List.mem_singleton, paths]

/-- On the way to its last step a path needs what goes through it. By induction on the steps. -/
theorem grown_sortColumn {schema : Schema} {steps : List Step} {path : List String}
    {owner : String} {column : Column}
    (h : sortColumn schema joins path owner steps = .ok (column, joins')) :
    Grown joins joins' fun p => ∃ front rest, front ≠ [] ∧ rest ≠ [] ∧
      front ++ rest = steps.map (fun s => s.attr.name) ∧ p = path ++ front := by
  induction steps generalizing joins path owner with
  | nil => cases h
  | cons step rest ih =>
    rw [sortColumn] at h
    split at h
    case isTrue hlast =>
      cases h
      refine .refl ?_
      rintro p ⟨front, back, hfront, hback, happend, -⟩
      have hlength := congrArg List.length happend
      rw [List.isEmpty_iff.mp hlast, List.length_append] at hlength
      have := List.length_pos_iff.mpr hfront
      have := List.length_pos_iff.mpr hback
      simp at hlength
      omega
    case isFalse hmore =>
      have hne : rest.map (fun s => s.attr.name) ≠ [] := by simpa using hmore
      split at h
      · cases h
      case h_2 label joins₁ hreach =>
        refine (grown_reach hreach).trans (ih h) fun p => ?_
        constructor
        · rintro ⟨front, back, hfront, hback, happend, rfl⟩
          obtain ⟨name, front, rfl⟩ := List.exists_cons_of_ne_nil hfront
          obtain ⟨rfl, htail⟩ := List.cons.inj happend
          by_cases hnil : front = []
          · exact .inl (by rw [hnil])
          · exact .inr ⟨front, back, hnil, hback, htail, (List.append_assoc _ [_] _).symm⟩
        · rintro (rfl | ⟨front, back, -, hback, happend, rfl⟩)
          · exact ⟨[step.attr.name], _, List.cons_ne_nil _ _, hne, rfl, rfl⟩
          · exact ⟨step.attr.name :: front, back, List.cons_ne_nil _ _, hback,
              congrArg _ happend, List.append_assoc _ [_] _⟩

mutual

/-- Joins are made for the paths that a sort key goes through. By recursion on the order. -/
theorem grown_ofOrder {schema : Schema} {root : String} :
    ∀ (spec : OrderSpec) {joins joins' : PathJoins} {terms : List SortTerm},
      SortTerm.ofOrder schema root joins spec = .ok (terms, joins') →
        Grown joins joins' fun path => ∃ k ∈ spec.keys, k.Crosses path
  | .key k, joins, joins', terms, h => by
    rw [SortTerm.ofOrder] at h
    split at h
    · cases h
    case h_2 steps hsteps =>
      split at h
      · cases h
      case h_2 column made hcolumn =>
        cases h
        have hgrown := grown_sortColumn hcolumn
        rw [Schema.names_of_resolve (OrderKey.resolve_inv hsteps).1] at hgrown
        refine ⟨hgrown.nodup, fun path => (hgrown.mem path).trans (or_congr_right ?_)⟩
        simp only [OrderSpec.keys, List.mem_singleton, exists_eq_left]
        constructor
        · rintro ⟨front, rest, hfront, hrest, happend, rfl⟩
          exact ⟨hfront, rest, hrest, happend⟩
        · rintro ⟨hpath, rest, hrest, happend⟩
          exact ⟨path, rest, hpath, hrest, happend, rfl⟩
  | .conjunction children, joins, joins', terms, h => by
    rw [SortTerm.ofOrder] at h
    exact grown_ofOrders children h

@[inherit_doc grown_ofOrder]
theorem grown_ofOrders {schema : Schema} {root : String} :
    ∀ (specs : List OrderSpec) {joins joins' : PathJoins} {terms : List SortTerm},
      SortTerm.ofOrders schema root joins specs = .ok (terms, joins') →
        Grown joins joins' fun path => ∃ k ∈ OrderSpec.keysOfList specs, k.Crosses path
  | [], joins, joins', terms, h => by
    cases h
    exact .refl fun path ⟨k, hk, _⟩ => absurd hk List.not_mem_nil
  | spec :: rest, joins, joins', terms, h => by
    rw [SortTerm.ofOrders] at h
    split at h
    · cases h
    case h_2 hspec =>
      split at h
      · cases h
      case h_2 hrest =>
        cases h
        refine (grown_ofOrder spec hspec).trans (grown_ofOrders rest hrest) fun path => ?_
        simp only [OrderSpec.keysOfList, List.mem_append, or_and_right, exists_or]

end

end PathJoins

/-! ## What joins read -/

section Joins

variable {schema : Schema} {root : EntityType} {routes : PathJoins}

theorem Reached.mem_labels {path : List String} {label : String} (h : Reached routes path label) :
    label ∈ rootLabel :: routes.map (·.2.label) := by
  rcases h with ⟨-, rfl⟩ | ⟨j, hj, rfl⟩
  · exact List.mem_cons_self
  · exact List.mem_cons_of_mem _ (List.mem_map.mpr ⟨_, hj, rfl⟩)

theorem Serves.mem_labels {column : Column} {names : List String}
    (h : Serves schema root routes column names) :
    column.label ∈ rootLabel :: routes.map (·.2.label) := by
  cases h with
  | intro _ reached _ _ => exact reached.mem_labels

/-- The labels that joins give are numbered from one. -/
theorem Joined.labels (h : Joined schema root routes) :
    routes.flatMap (fun r => r.2.label :: r.2.on.labels)
      = (List.range' 1 routes.length).map joinLabel := by
  induction h with
  | none => rfl
  | @join joins _ _ _ _ _ _ _ _ _ _ _ _ ih =>
    rw [List.flatMap_append, ih, List.length_append, List.length_singleton, List.range'_1_concat,
      List.map_append, Nat.add_comm 1]
    rfl

/-- The condition of a join reads its own label and labels from before it. By induction on how the
joins came about: the split is at the last one or before it. -/
theorem Joined.sound (h : Joined schema root routes) {earlier later : List Join} {j : Join}
    (hsplit : routes.map (·.2) = earlier ++ j :: later) :
    j.on.Sound (j.label :: rootLabel :: earlier.map (·.label)) := by
  induction h generalizing later with
  | none => exact absurd hsplit (List.append_ne_nil_of_right_ne_nil _ (List.cons_ne_nil _ _)).symm
  | @join joins path owner t u a target _ _ reached _ _ _ ih =>
    rw [List.map_append, List.map_singleton] at hsplit
    rcases List.eq_nil_or_concat later with rfl | ⟨before, last, rfl⟩
    · obtain ⟨rfl, hj⟩ := List.append_inj' hsplit rfl
      obtain rfl := (List.cons.inj hj).1
      have howner := reached.mem_labels
      rw [← Function.comp_def, ← List.map_map] at howner
      refine Condition.sound_of_isAtom rfl ⟨?_, trivial⟩
      exact List.forall_mem_cons.mpr ⟨List.mem_cons_self,
        List.forall_mem_singleton.mpr (List.mem_cons_of_mem _ howner)⟩
    · rw [List.concat_eq_append, ← List.cons_append, ← List.append_assoc] at hsplit
      exact ih (List.append_inj' hsplit rfl).1

theorem subLabel_ne_joinLabel (m n : Nat) : subLabel m ≠ joinLabel n := by
  intro h
  have hlist := congrArg String.toList h
  simp [subLabel, joinLabel] at hlist

end Joins

/-! ## Whole queries -/

mutual

/-- The keys of a checked order read what the keys it is made from lead to. -/
theorem OrderSpec.keys_of_compile {schema : Schema} {root : String} :
    ∀ (spec : OrderSpec) {c : Comparator}, spec.compile schema root = .ok c →
      c.keys = spec.keys.map fun k => ⟨Path.segments k.path, k.direction⟩
  | .key k, c, h => by
    obtain rfl := OrderSpec.compile_key h
    rfl
  | .conjunction children, c, h => by
    rw [compile] at h
    split at h
    · cases h
    case h_2 cs hcs =>
      obtain rfl := Except.ok.inj h
      exact OrderSpec.keys_of_compileAll children hcs

@[inherit_doc OrderSpec.keys_of_compile]
theorem OrderSpec.keys_of_compileAll {schema : Schema} {root : String} :
    ∀ (specs : List OrderSpec) {cs : List Comparator}, compileAll schema root specs = .ok cs →
      Comparator.keysOfList cs
        = (keysOfList specs).map fun k => ⟨Path.segments k.path, k.direction⟩
  | [], cs, h => by
    cases h
    rfl
  | spec :: rest, cs, h => by
    rw [compileAll] at h
    split at h
    · cases h
    case h_2 c hc =>
      split at h
      · cases h
      case h_2 others hothers =>
        obtain rfl := Except.ok.inj h
        rw [Comparator.keysOfList, keysOfList, List.map_append, OrderSpec.keys_of_compile spec hc,
          OrderSpec.keys_of_compileAll rest hothers]

end

namespace Select

/-- The labels a query gives to rows beside the queried one: those of its joins, then those of the
sub-selects in its filter. -/
def given (q : Select) : List String :=
  q.joins.flatMap (fun j => j.label :: j.on.labels) ++ (q.filter.map Condition.labels).getD []

/-- Rows have labels of their own, columns are read where their label stands for a row, and null is
neither compared with for equality nor listed. -/
structure WellScoped (q : Select) : Prop where
  distinct : (q.label :: q.given).Nodup
  filter : ∀ c, q.filter = some c → c.Sound [q.label]
  joins : ∀ earlier j later, q.joins = earlier ++ j :: later →
    j.on.Sound (j.label :: q.label :: earlier.map (·.label))
  terms : ∀ t ∈ q.orderBy, t.column.label ∈ q.label :: q.joins.map (·.label)

/-- The joins of a query are those its sort keys need, each made once and going on from the one its
path goes on from; and each sort term reads, in its key's direction, the end of its key's path. -/
structure Routed (q : Select) (schema : Schema) (root : EntityType) (keys : List OrderKey)
    (routes : PathJoins) : Prop where
  joins : q.joins = routes.map (·.2)
  nodup : routes.paths.Nodup
  mem : ∀ path, path ∈ routes.paths ↔ ∃ k ∈ keys, k.Crosses path
  joined : Joined schema root routes
  serves : List.Forall₂
    (fun term key => term.direction = key.direction ∧
      Serves schema root routes term.column (Path.segments key.path)) q.orderBy keys

/-- A filter reads rows where they stand, and its labels are numbered from one. -/
theorem sound_ofFilter? {schema : Schema} {root : String} {filter : Option FilterSpec}
    {condition : Option Condition}
    (h : Condition.ofFilter? schema root filter = .ok condition) :
    (∀ c, condition = some c → c.Sound [rootLabel]) ∧
      ∃ n, (condition.map Condition.labels).getD [] = (List.range' 1 n).map subLabel := by
  cases filter with
  | none =>
    cases h
    exact ⟨fun c hc => (Option.some_ne_none c hc.symm).elim, 0, rfl⟩
  | some spec =>
    rw [Condition.ofFilter?] at h
    split at h
    · cases h
    case h_2 c used hmade =>
      cases h
      obtain ⟨hsound, n, -, hlabels⟩ := Condition.made_ofFilter spec _ _ _ hmade
      refine ⟨fun c' hc => Option.some.inj hc ▸ hsound, n, ?_⟩
      rw [Option.map_some, Option.getD_some, hlabels, Nat.zero_add]

/-- What an order compiles to is routed as its keys go. -/
theorem routed_ofOrder? {schema : Schema} {root : EntityType} (hroot : schema.Registered root)
    {order : Option OrderSpec} {q : Select}
    (h : SortTerm.ofOrder? schema root.name order = .ok (q.orderBy, q.joins)) :
    ∃ routes, q.Routed schema root ((order.map OrderSpec.keys).getD []) routes := by
  cases order with
  | none =>
    obtain ⟨hterms, hjoins⟩ := Prod.mk.inj (Except.ok.inj h)
    refine ⟨[], hjoins.symm, List.nodup_nil, fun path => ?_, .none, hterms ▸ .nil⟩
    exact ⟨fun hp => absurd hp List.not_mem_nil, fun ⟨k, hk, _⟩ => absurd hk List.not_mem_nil⟩
  | some spec =>
    rw [SortTerm.ofOrder?] at h
    split at h
    · cases h
    case h_2 terms routes hmade =>
      obtain ⟨hterms, hjoins⟩ := Prod.mk.inj (Except.ok.inj h)
      -- an order that can be made is one that the other backend compiles, so its terms serve keys
      obtain ⟨c, hc⟩ : ∃ c, spec.compile schema root.name = .ok c := by
        have hverdict : verdict (SortTerm.ofOrder schema root.name [] spec)
            = verdict (spec.compile schema root.name) := SortTerm.verdict_ofOrder spec []
        rw [hmade] at hverdict
        cases hcompile : spec.compile schema root.name with
        | error e => rw [hcompile] at hverdict; cases hverdict
        | ok c => exact ⟨c, rfl⟩
      obtain ⟨terms', more, hmade', hjoined, hserve⟩ :=
        SortTerm.ofOrder_serves hroot spec c hc [] .none
      obtain ⟨rfl, rfl⟩ := Prod.mk.inj (Except.ok.inj (hmade.symm.trans hmade'))
      have hgrown := PathJoins.grown_ofOrder spec hmade
      refine ⟨_, hjoins.symm, hgrown.nodup List.nodup_nil, fun path => ?_, hjoined, ?_⟩
      · rw [hgrown.mem]
        exact or_iff_right List.not_mem_nil
      · rw [ServeAll, OrderSpec.keys_of_compile spec hc, List.forall₂_map_right_iff] at hserve
        rw [← hterms]
        exact hserve

/-- The labels of the queried row, of numbered joins and of numbered sub-selects all differ. -/
theorem nodup_labels (m n : Nat) :
    (rootLabel :: ((List.range' 1 m).map joinLabel ++ (List.range' 1 n).map subLabel)).Nodup := by
  have hjoins : ((List.range' 1 m).map joinLabel).Nodup :=
    List.Nodup.map (fun _ _ => joinLabel_injective) (List.nodup_range' 1)
  have hsubs : ((List.range' 1 n).map subLabel).Nodup :=
    List.Nodup.map (fun _ _ => subLabel_injective) (List.nodup_range' 1)
  refine List.nodup_cons.mpr ⟨fun hroot => ?_, hjoins.append hsubs fun label hjoin hsub => ?_⟩
  · rcases List.mem_append.mp hroot with hjoin | hsub
    · obtain ⟨k, -, hk⟩ := List.mem_map.mp hjoin
      exact joinLabel_ne_rootLabel k hk
    · obtain ⟨k, -, hk⟩ := List.mem_map.mp hsub
      exact subLabel_ne_rootLabel k hk
  · obtain ⟨k, -, rfl⟩ := List.mem_map.mp hjoin
    obtain ⟨l, -, hl⟩ := List.mem_map.mp hsub
    exact subLabel_ne_joinLabel l k hl

/-- A sort term reads the row of its path, which is the queried one or a joined one. -/
theorem Routed.terms_mem {q : Select} {schema : Schema} {root : EntityType} {keys : List OrderKey}
    {routes : PathJoins} (h : q.Routed schema root keys routes) :
    ∀ t ∈ q.orderBy, t.column.label ∈ rootLabel :: q.joins.map (·.label) := by
  intro t ht
  obtain ⟨hlength, hget⟩ := List.forall₂_iff_get.mp h.serves
  obtain ⟨i, rfl⟩ := List.mem_iff_get.mp ht
  rw [h.joins, List.map_map]
  exact (hget i i.isLt (hlength ▸ i.isLt)).2.mem_labels

/-- What a query is compiled from: a filter, and an order for its sort terms and joins. -/
theorem ofSpecs_inv {schema : Schema} {root : String} {filter : Option FilterSpec}
    {order : Option OrderSpec} {window : Option Window} {q : Select}
    (h : ofSpecs schema root filter order window = .ok q) :
    ∃ type, schema.find? root = some type ∧ q.label = rootLabel ∧
      Condition.ofFilter? schema root filter = .ok q.filter ∧
      SortTerm.ofOrder? schema root order = .ok (q.orderBy, q.joins) := by
  unfold ofSpecs Schema.require at h
  cases hfind : schema.find? root with
  | none =>
    rw [hfind] at h
    cases h
  | some type =>
    rw [hfind] at h
    dsimp only at h
    split at h
    · cases h
    case h_2 condition hfilter =>
      split at h
      · cases h
      case h_2 terms joins horder =>
        cases h
        exact ⟨type, rfl, rfl, hfilter, horder⟩

/-- A query is routed as the keys of its order go. -/
theorem exists_routed {schema : Schema} {root : String} {filter : Option FilterSpec}
    {order : Option OrderSpec} {window : Option Window} {q : Select}
    (h : ofSpecs schema root filter order window = .ok q) :
    ∃ type routes, schema.find? root = some type ∧
      q.Routed schema type ((order.map OrderSpec.keys).getD []) routes := by
  obtain ⟨type, hfind, -, -, horder⟩ := ofSpecs_inv h
  rw [← Schema.find?_name hfind] at horder
  obtain ⟨routes, hrouted⟩ := routed_ofOrder? (Schema.registered_of_find? hfind) horder
  exact ⟨type, routes, hfind, hrouted⟩

/-- **A compiled query reads rows where they stand, over one join for each path it crosses.** -/
theorem wellScoped_ofSpecs {schema : Schema} {root : String} {filter : Option FilterSpec}
    {order : Option OrderSpec} {window : Option Window} {q : Select}
    (h : ofSpecs schema root filter order window = .ok q) :
    q.WellScoped ∧ ∃ type routes, schema.find? root = some type ∧
      q.Routed schema type ((order.map OrderSpec.keys).getD []) routes := by
  obtain ⟨_, -, hlabel, hfilter, -⟩ := ofSpecs_inv h
  obtain ⟨type, routes, hfind, hrouted⟩ := exists_routed h
  obtain ⟨hsound, n, hsubs⟩ := sound_ofFilter? hfilter
  refine ⟨⟨?_, ?_, ?_, ?_⟩, type, routes, hfind, hrouted⟩
  · have hjoins : q.joins.flatMap (fun j => j.label :: j.on.labels)
        = (List.range' 1 routes.length).map joinLabel := by
      rw [hrouted.joins, List.flatMap_map, hrouted.joined.labels]
    rw [given, hjoins, hsubs, hlabel]
    exact nodup_labels _ _
  · rw [hlabel]
    exact hsound
  · intro earlier j later hsplit
    rw [hlabel]
    exact hrouted.joined.sound (hrouted.joins.symm.trans hsplit)
  · rw [hlabel]
    exact hrouted.terms_mem

open Samples

/-- People whose grandparent wrote something, or who wrote nothing of what is listed. -/
def byKinAndNotes : FilterSpec :=
  .disjunction
    [ .equalTo "parent.parent.notes" (.int 4),
      .negation (.membership .contained "notes.text" [.null, .string "tea", .string "milk"]) ]

/-- Grandparents first, then parents, then the people themselves. -/
def byForebears : OrderSpec :=
  .conjunction
    [.key ⟨"parent.parent.name", .desc⟩, .key ⟨"parent.age", .asc⟩, .key ⟨"parent.parent.id", .asc⟩,
      .key ⟨"name", .asc⟩]

/-- Four keys cross two paths, and two criteria go through four sub-selects. -/
theorem wellScoped_byKinAndNotes :
    ∃ q, ofSpecs (Schema.ofList [person, note]) "person" (some byKinAndNotes) (some byForebears)
        none = .ok q ∧
      q.given = ["j1", "j2", "s1", "s2", "s3", "s4"] ∧
      q.orderBy.map (·.column.label) = ["j2", "j1", "j2", "t0"] ∧
      q.WellScoped ∧ ∃ type routes, (Schema.ofList [person, note]).find? "person" = some type ∧
        q.Routed (Schema.ofList [person, note]) type byForebears.keys routes := by
  have hlabels : (ofSpecs (Schema.ofList [person, note]) "person" (some byKinAndNotes)
      (some byForebears) none).toOption.map (fun q => (q.given, q.orderBy.map (·.column.label)))
        = some (["j1", "j2", "s1", "s2", "s3", "s4"], ["j2", "j1", "j2", "t0"]) := by
    decide +kernel
  cases hmade : ofSpecs (Schema.ofList [person, note]) "person" (some byKinAndNotes)
      (some byForebears) none with
  | error e =>
    rw [hmade] at hlabels
    cases hlabels
  | ok q =>
    rw [hmade] at hlabels
    obtain ⟨hgiven, hterms⟩ := Prod.mk.inj (Option.some.inj hlabels)
    exact ⟨q, rfl, hgiven, hterms, wellScoped_ofSpecs hmade⟩

end Select

end EntityStore
