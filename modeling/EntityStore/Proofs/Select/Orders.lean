import EntityStore.Proofs.Select.Joins
import EntityStore.Sorting

/-!
# Orders over entities and over rows

A sort term reads, under the label of the right join, the value that the sort key reads at the
end of its path. Terms are made key by key, and joins made for later keys leave the labels of
earlier ones alone, so in the end all terms can be read in one environment and compare two rows
as the keys compare the two entities. Sorting by the same comparison puts both in the same order,
ties included.
-/

namespace EntityStore

/-! ## Sorting through a map -/

namespace Sorting

variable {α β : Type}

theorem insertDescending_map {cmp : α → α → Ordering} {cmp' : β → β → Ordering} {f : α → β} {x : α}
    {ys : List α} (h : ∀ y ∈ ys, cmp' (f x) (f y) = cmp x y) :
    insertDescending cmp' (f x) (ys.map f) = (insertDescending cmp x ys).map f := by
  induction ys with
  | nil => rfl
  | cons y rest ih =>
      rw [List.map_cons, insertDescending, insertDescending, h y List.mem_cons_self]
      split
      · rw [List.map_cons, ih fun z hz => h z (List.mem_cons_of_mem _ hz)]
      · rw [List.map_cons, List.map_cons]

theorem foldl_insertDescending_map {cmp : α → α → Ordering} {cmp' : β → β → Ordering} {f : α → β}
    {xs : List α} (sorted : List α) (h : ∀ x ∈ xs, ∀ y ∈ sorted ++ xs, cmp' (f x) (f y) = cmp x y) :
    (xs.map f).foldl (fun sorted x => insertDescending cmp' x sorted) (sorted.map f)
      = (xs.foldl (fun sorted x => insertDescending cmp x sorted) sorted).map f := by
  induction xs generalizing sorted with
  | nil => rfl
  | cons x rest ih =>
      rw [List.map_cons, List.foldl_cons, List.foldl_cons, insertDescending_map]
      · refine ih _ fun y hy z hz => h y (List.mem_cons_of_mem _ hy) z ?_
        rcases List.mem_append.mp hz with hz | hz
        · rcases List.mem_cons.mp ((insertDescending_perm cmp x sorted).mem_iff.mp hz) with rfl | hz
          · exact List.mem_append_right _ List.mem_cons_self
          · exact List.mem_append_left _ hz
        · exact List.mem_append_right _ (List.mem_cons_of_mem _ hz)
      · intro y hy
        exact h x List.mem_cons_self y (List.mem_append_left _ hy)

/-- Items that compare alike are sorted alike. -/
theorem sort_map {cmp : α → α → Ordering} {cmp' : β → β → Ordering} {f : α → β} {xs : List α}
    (h : ∀ x ∈ xs, ∀ y ∈ xs, cmp' (f x) (f y) = cmp x y) :
    sort cmp' (xs.map f) = (sort cmp xs).map f := by
  have hfold := foldl_insertDescending_map [] (by simpa using h)
  rw [sort, sort, descending, descending, List.map_reverse]
  exact congrArg List.reverse hfold

end Sorting

/-! ## The keys of an order -/

namespace Comparator

mutual

/-- The sort keys of a checked order, from left to right. -/
def keys : Comparator → List SortKey
  | .key k => [k]
  | .chain children => keysOfList children

@[inherit_doc keys]
def keysOfList : List Comparator → List SortKey
  | [] => []
  | c :: rest => keys c ++ keysOfList rest

end

/-- The first key that tells two entities apart decides. -/
def compareByKeys (pool : Pool) (a b : Handle) : List SortKey → Ordering
  | [] => .eq
  | k :: rest => (k.compare pool a b).then (compareByKeys pool a b rest)

theorem compareByKeys_append (pool : Pool) (a b : Handle) (ks ls : List SortKey) :
    compareByKeys pool a b (ks ++ ls)
      = (compareByKeys pool a b ks).then (compareByKeys pool a b ls) := by
  induction ks with
  | nil => rfl
  | cons k rest ih => rw [List.cons_append, compareByKeys, compareByKeys, ih, Ordering.then_assoc]

mutual

/-- A checked order compares by its keys. -/
theorem compare_eq_compareByKeys (pool : Pool) (a b : Handle) :
    ∀ c : Comparator, c.compare pool a b = compareByKeys pool a b c.keys
  | .key k => by rw [compare, keys, compareByKeys, compareByKeys, Ordering.then_eq]
  | .chain children => by
      rw [compare, keys]
      exact compareAll_eq_compareByKeys pool a b children

theorem compareAll_eq_compareByKeys (pool : Pool) (a b : Handle) :
    ∀ cs : List Comparator, compareAll pool a b cs = compareByKeys pool a b (keysOfList cs)
  | [] => rfl
  | c :: rest => by
      rw [compareAll, keysOfList, compareByKeys_append, compare_eq_compareByKeys pool a b c,
        compareAll_eq_compareByKeys pool a b rest]

end

end Comparator

/-! ## Sort terms -/

/-- A column holds what a sort key reads at the end of its path. -/
inductive Serves (schema : Schema) (root : EntityType) (joins : PathJoins) :
    Column → List String → Prop
  | intro {path : List String} {owner : String} {t : EntityType} {a : Attribute}
      (leads : LeadsTo schema root path t) (reached : Reached joins path owner)
      (attr : t.attribute? a.name = some a) (single : a.isToMany = false) :
      Serves schema root joins ⟨owner, a.column⟩ (path ++ [a.name])

theorem Serves.append {schema : Schema} {root : EntityType} {joins : PathJoins} {column : Column}
    {names : List String} (h : Serves schema root joins column names) (more : PathJoins) :
    Serves schema root (joins ++ more) column names := by
  cases h with
  | intro leads reached attr single => exact .intro leads reached.append attr single

variable {schema : Schema} {d : Dataset} {root t : EntityType} {joins : PathJoins}

/-- The row with its joined rows, in which the sort terms are read. -/
def Dataset.joined (d : Dataset) (joins : PathJoins) (h : Handle) : RowEnv :=
  Select.withJoins d.tables [(rootLabel, d.row h)] (joins.map (·.2))

/-- **A sort term reads what its key reads.** -/
theorem Serves.value_eq {column : Column} {names : List String}
    (hserves : Serves schema root joins column names) (hd : d.Image schema)
    (hroot : schema.Registered root) (hj : Joined schema root joins) {h : Handle}
    (hh : h ∈ d.members root.name) :
    (d.joined joins h).value column = d.pool.sortKey names h := by
  cases hserves with
  | @intro path owner t a leads reached attr single =>
      have hstands := (Select.stands_withJoins hd hroot hj hh).1 path owner reached
      rw [Pool.sortKey_append, Dataset.joined]
      cases hf : d.pool.follow path h with
      | none =>
          rw [hf] at hstands
          exact hstands _
      | some r =>
          rw [hf] at hstands
          dsimp only
          rw [hstands, Pool.sortKey]
          cases hd.shown t (leads.registered hroot) r (hd.follow_mem hroot leads hh hf) a attr with
          | terminal _ v _ field _ _ cell => rw [cell, field]; rfl
          | toOne _ related _ field _ cell =>
              rw [cell, field]
              cases related <;> rfl
          | toMany _ _ _ declared => rw [Attribute.isToMany, declared] at single; cases single

/-- Going on over a to-one relation: the join that exists already, or a new one. -/
theorem Joined.reach (hj : Joined schema root joins) {path : List String} {owner : String}
    {a : Attribute} {u : EntityType} {target : Option String} (leads : LeadsTo schema root path t)
    (reached : Reached joins path owner) (attr : t.attribute? a.name = some a)
    (one : a.kind = .toOne target) (next : schema.targetOf a = .ok u) :
    ∃ label more, joins.reach schema (path ++ [a.name]) owner a = .ok (label, joins ++ more) ∧
      Joined schema root (joins ++ more) ∧ Reached (joins ++ more) (path ++ [a.name]) label := by
  rw [PathJoins.reach]
  split
  case h_1 path' j hfind =>
    have hpath : path' = path ++ [a.name] := by simpa using List.find?_some hfind
    refine ⟨j.label, [], by rw [List.append_nil], by rw [List.append_nil]; exact hj, ?_⟩
    rw [List.append_nil, ← hpath]
    exact .inr ⟨j, List.mem_of_find?_eq_some hfind, rfl⟩
  case h_2 =>
    rw [next]
    refine ⟨_, _, rfl, .join hj leads reached attr one next, ?_⟩
    exact .inr ⟨_, List.mem_append_right _ (List.mem_singleton_self _), rfl⟩

/-- The column of a path serves its key. By induction on the path. -/
theorem sortColumn_serves {steps : List Step} (hpath : IsPath schema t steps)
    (hmany : ∀ s ∈ steps, s.attr.isToMany = false) {path : List String} {owner : String}
    (hj : Joined schema root joins) (leads : LeadsTo schema root path t)
    (reached : Reached joins path owner) :
    ∃ column more, sortColumn schema joins path owner steps = .ok (column, joins ++ more) ∧
      Joined schema root (joins ++ more) ∧
      Serves schema root (joins ++ more) column (path ++ steps.map fun s => s.attr.name) := by
  induction hpath generalizing joins path owner with
  | @last t a ha =>
      refine ⟨⟨owner, a.column⟩, [], ?_, ?_, ?_⟩
      · rw [sortColumn, List.append_nil]
        rfl
      · rw [List.append_nil]
        exact hj
      · rw [List.append_nil]
        exact .intro leads reached ha (hmany _ List.mem_cons_self)
  | @hop t u a rest ha hrel hu hrest ih =>
      -- a step that is crossed is a relation, and orders cross no to-many relation
      obtain ⟨target, one⟩ : ∃ target, a.kind = .toOne target := by
        have hone := hmany _ List.mem_cons_self
        cases hkind : a.kind with
        | terminal _ => rw [Attribute.isTerminal, hkind] at hrel; cases hrel
        | toOne target => exact ⟨target, rfl⟩
        | toMany _ _ => rw [Attribute.isToMany, hkind] at hone; cases hone
      obtain ⟨label, more₁, hreach, hj₁, hreached₁⟩ := hj.reach leads reached ha one hu
      obtain ⟨column, more₂, hcolumn, hj₂, hserves⟩ := ih
        (fun s hs => hmany s (List.mem_cons_of_mem _ hs)) hj₁ (.step leads ha one hu) hreached₁
      have hempty : rest.isEmpty = false := by simpa using hrest.ne_nil
      refine ⟨column, more₁ ++ more₂, ?_, ?_, ?_⟩
      · rw [sortColumn, hempty, ← List.append_assoc, ← hcolumn, hreach]
        rfl
      · rw [← List.append_assoc]
        exact hj₂
      · rw [← List.append_assoc, List.map_cons]
        simpa using hserves

/-- Terms that serve the keys of an order, one by one. -/
def ServeAll (schema : Schema) (root : EntityType) (joins : PathJoins) (terms : List SortTerm)
    (keys : List SortKey) : Prop :=
  List.Forall₂
    (fun term key => term.direction = key.direction ∧ Serves schema root joins term.column key.path)
    terms keys

theorem ServeAll.append {terms : List SortTerm} {keys : List SortKey}
    (h : ServeAll schema root joins terms keys) (more : PathJoins) :
    ServeAll schema root (joins ++ more) terms keys :=
  List.Forall₂.imp (fun _ _ hs => ⟨hs.1, hs.2.append more⟩) h

mutual

/-- **The sort terms of an order serve its keys.** By recursion on the order. -/
theorem SortTerm.ofOrder_serves (hroot : schema.find? root.name = some root) :
    ∀ (spec : OrderSpec) (c : Comparator), spec.compile schema root.name = .ok c →
      ∀ joins, Joined schema root joins →
      ∃ terms more, SortTerm.ofOrder schema root.name joins spec = .ok (terms, joins ++ more) ∧
        Joined schema root (joins ++ more) ∧ ServeAll schema root (joins ++ more) terms c.keys
  | .key k, c, hc, joins, hj => by
      rw [OrderSpec.compile] at hc
      split at hc
      · cases hc
      case h_2 steps hsteps =>
        obtain rfl := Except.ok.inj hc
        obtain ⟨hresolve, hmany⟩ := OrderKey.resolve_inv hsteps
        obtain ⟨u, hu, _, hpath⟩ := IsPath.of_resolve hresolve
        obtain rfl : u = root := Option.some.inj (hu.symm.trans hroot)
        obtain ⟨column, more, hcolumn, hj', hserves⟩ :=
          sortColumn_serves hpath hmany hj .here (.inl ⟨rfl, rfl⟩)
        refine ⟨[⟨column, k.direction⟩], more, ?_, hj', .cons ⟨rfl, hserves⟩ .nil⟩
        rw [SortTerm.ofOrder, hsteps]
        dsimp only
        rw [hcolumn]
  | .conjunction children, c, hc, joins, hj => by
      rw [OrderSpec.compile] at hc
      split at hc
      · cases hc
      case h_2 cs hcs =>
        obtain rfl := Except.ok.inj hc
        rw [SortTerm.ofOrder, Comparator.keys]
        exact SortTerm.ofOrders_serve hroot children cs hcs joins hj

theorem SortTerm.ofOrders_serve (hroot : schema.find? root.name = some root) :
    ∀ (specs : List OrderSpec) (cs : List Comparator),
      OrderSpec.compileAll schema root.name specs = .ok cs → ∀ joins, Joined schema root joins →
      ∃ terms more, SortTerm.ofOrders schema root.name joins specs = .ok (terms, joins ++ more) ∧
        Joined schema root (joins ++ more) ∧
        ServeAll schema root (joins ++ more) terms (Comparator.keysOfList cs)
  | [], cs, hcs, joins, hj => by
      rw [OrderSpec.compileAll] at hcs
      obtain rfl := Except.ok.inj hcs
      refine ⟨[], [], by rw [List.append_nil]; rfl, ?_, .nil⟩
      rw [List.append_nil]
      exact hj
  | spec :: rest, cs, hcs, joins, hj => by
      rw [OrderSpec.compileAll] at hcs
      split at hcs
      · cases hcs
      case h_2 c hc =>
        split at hcs
        · cases hcs
        case h_2 others hothers =>
          obtain rfl := Except.ok.inj hcs
          obtain ⟨terms₁, more₁, hok₁, hj₁, hs₁⟩ := SortTerm.ofOrder_serves hroot spec c hc joins hj
          obtain ⟨terms₂, more₂, hok₂, hj₂, hs₂⟩ :=
            SortTerm.ofOrders_serve hroot rest others hothers (joins ++ more₁) hj₁
          refine ⟨terms₁ ++ terms₂, more₁ ++ more₂, ?_, ?_, ?_⟩
          · rw [SortTerm.ofOrders, hok₁]
            dsimp only
            rw [hok₂, List.append_assoc]
          · rw [← List.append_assoc]
            exact hj₂
          · rw [← List.append_assoc, Comparator.keysOfList]
            exact List.rel_append (hs₁.append more₂) hs₂

end

/-- Terms compare two rows as the keys they serve compare the two entities. -/
theorem compareBy_eq_compareByKeys (hd : d.Image schema) (hroot : schema.Registered root)
    (hj : Joined schema root joins) {terms : List SortTerm} {keys : List SortKey}
    (hs : ServeAll schema root joins terms keys) {a b : Handle} (ha : a ∈ d.members root.name)
    (hb : b ∈ d.members root.name) :
    Select.compareBy (d.joined joins a) (d.joined joins b) terms
      = Comparator.compareByKeys d.pool a b keys := by
  induction hs with
  | nil => rfl
  | cons hterm _ ih =>
      obtain ⟨hdirection, hserves⟩ := hterm
      rw [Select.compareBy, Comparator.compareByKeys, ih, SortKey.compare, hdirection,
        hserves.value_eq hd hroot hj ha, hserves.value_eq hd hroot hj hb]

end EntityStore
