import EntityStore.Proofs.Filter.Criteria

/-!
# Filters as they are built

Filters are built from leaves by joining and negating them. A join takes the children of a filter
of its own kind in the place of the filter, one level deep, and leaves a single child bare. One
level is enough: **a filter can be built exactly when none of its composites has a child of its own
kind or exactly one child**. On such filters joining two is associative, the join of none is
neutral, and the join of a list folds the join of two over it.

Conjunctions and disjunctions are built alike, so everything is said once of a joint.
-/

namespace EntityStore

namespace FilterSpec

/-! ## Joints -/

/-- The two ways to join filters. -/
inductive Joint
  | all
  | any

namespace Joint

/-- The composite of some children. -/
def wrap : Joint → List FilterSpec → FilterSpec
  | .all => .conjunction
  | .any => .disjunction

/-- The children a filter contributes to a composite around it. -/
def parts : Joint → FilterSpec → List FilterSpec
  | .all => conjuncts
  | .any => disjuncts

/-- The filters joined. -/
def join (j : Joint) (specs : List FilterSpec) : FilterSpec :=
  collapse j.wrap (specs.flatMap j.parts)

/-- Two filters joined. -/
def both (j : Joint) (a b : FilterSpec) : FilterSpec := j.join [a, b]

@[simp] theorem parts_wrap (j : Joint) (children : List FilterSpec) :
    j.parts (j.wrap children) = children := by
  cases j <;> rfl

/-- A filter of another kind is one part. -/
theorem parts_of_ne {j : Joint} {s : FilterSpec} (h : ∀ nested, s ≠ j.wrap nested) :
    j.parts s = [s] := by
  cases j with
  | all =>
      cases s with
      | conjunction children => exact absurd rfl (h children)
      | _ => rfl
  | any =>
      cases s with
      | disjunction children => exact absurd rfl (h children)
      | _ => rfl

end Joint

/-! ## Tidy filters -/

/-- No composite has a child of its own kind, or exactly one child. -/
inductive Tidy : FilterSpec → Prop
  | criterion (c : Criterion) : Tidy (.criterion c)
  | conjunction {children : List FilterSpec} (notOne : children.length ≠ 1)
      (apart : ∀ s ∈ children, ∀ nested, s ≠ .conjunction nested)
      (tidy : ∀ s ∈ children, Tidy s) : Tidy (.conjunction children)
  | disjunction {children : List FilterSpec} (notOne : children.length ≠ 1)
      (apart : ∀ s ∈ children, ∀ nested, s ≠ .disjunction nested)
      (tidy : ∀ s ∈ children, Tidy s) : Tidy (.disjunction children)
  | negation {child : FilterSpec} (tidy : Tidy child) : Tidy (.negation child)

section Joining

variable {j : Joint} {s : FilterSpec} {children specs : List FilterSpec}

theorem tidy_wrap_iff : Tidy (j.wrap children) ↔ children.length ≠ 1 ∧
    (∀ s ∈ children, ∀ nested, s ≠ j.wrap nested) ∧ ∀ s ∈ children, Tidy s := by
  cases j with
  | all =>
      constructor
      · intro h
        cases h with
        | conjunction notOne apart tidy => exact ⟨notOne, apart, tidy⟩
      · exact fun ⟨notOne, apart, tidy⟩ => .conjunction notOne apart tidy
  | any =>
      constructor
      · intro h
        cases h with
        | disjunction notOne apart tidy => exact ⟨notOne, apart, tidy⟩
      · exact fun ⟨notOne, apart, tidy⟩ => .disjunction notOne apart tidy

/-- The parts of a tidy filter are tidy and of another kind. -/
theorem Tidy.parts (h : Tidy s) : ∀ t ∈ j.parts s, Tidy t ∧ ∀ nested, t ≠ j.wrap nested := by
  by_cases hs : ∃ nested, s = j.wrap nested
  · obtain ⟨nested, rfl⟩ := hs
    obtain ⟨-, apart, tidy⟩ := tidy_wrap_iff.mp h
    rw [Joint.parts_wrap]
    exact fun t ht => ⟨tidy t ht, apart t ht⟩
  · have hne := not_exists.mp hs
    intro t ht
    rw [Joint.parts_of_ne hne] at ht
    rw [List.mem_singleton.mp ht]
    exact ⟨h, hne⟩

/-- A tidy filter is made of its parts again. -/
theorem Tidy.collapse_parts (h : Tidy s) : collapse j.wrap (j.parts s) = s := by
  by_cases hs : ∃ nested, s = j.wrap nested
  · obtain ⟨nested, rfl⟩ := hs
    obtain ⟨notOne, -, -⟩ := tidy_wrap_iff.mp h
    rw [Joint.parts_wrap, collapse.eq_def]
    split
    · exact absurd rfl notOne
    · rfl
  · rw [Joint.parts_of_ne (not_exists.mp hs)]
    rfl

/-- Parts of other kinds are the parts of what they are made into. -/
theorem parts_collapse (apart : ∀ t ∈ children, ∀ nested, t ≠ j.wrap nested) :
    j.parts (collapse j.wrap children) = children := by
  match children with
  | [] => exact Joint.parts_wrap j []
  | [only] => exact Joint.parts_of_ne (apart only (List.mem_singleton_self only))
  | first :: second :: rest => exact Joint.parts_wrap j _

theorem tidy_collapse (h : ∀ t ∈ children, Tidy t ∧ ∀ nested, t ≠ j.wrap nested) :
    Tidy (collapse j.wrap children) := by
  match children with
  | [] => exact tidy_wrap_iff.mpr ⟨by simp, by simp, by simp⟩
  | [only] => exact (h only (List.mem_singleton_self only)).1
  | first :: second :: rest =>
      exact tidy_wrap_iff.mpr ⟨by simp, fun t ht => (h t ht).2, fun t ht => (h t ht).1⟩

theorem forall_mem_parts (h : ∀ s ∈ specs, Tidy s) :
    ∀ t ∈ specs.flatMap j.parts, Tidy t ∧ ∀ nested, t ≠ j.wrap nested := by
  intro t ht
  obtain ⟨s, hs, ht⟩ := List.mem_flatMap.mp ht
  exact (h s hs).parts t ht

/-- **Tidy filters are joined to a tidy filter.** -/
theorem tidy_join (h : ∀ s ∈ specs, Tidy s) : Tidy (j.join specs) :=
  tidy_collapse (forall_mem_parts h)

/-- **The parts of a join are those of what is joined.** This is what one level of flattening comes
to on tidy filters. -/
theorem parts_join (h : ∀ s ∈ specs, Tidy s) : j.parts (j.join specs) = specs.flatMap j.parts :=
  parts_collapse fun t ht => (forall_mem_parts h t ht).2

theorem join_singleton (h : Tidy s) : j.join [s] = s := by
  rw [Joint.join, List.flatMap_singleton]
  exact h.collapse_parts

/-- **A join among the filters to be joined may be taken apart.** -/
theorem join_nested (h : ∀ s ∈ specs, Tidy s) (before after : List FilterSpec) :
    j.join (before ++ j.join specs :: after) = j.join (before ++ specs ++ after) := by
  have hparts : (before ++ j.join specs :: after).flatMap j.parts
      = (before ++ specs ++ after).flatMap j.parts := by
    simp only [List.flatMap_append, List.flatMap_cons, parts_join h, List.append_assoc]
  rw [Joint.join, hparts, ← Joint.join]

/-! ## Built filters -/

/-- A filter that is built from leaves by joining and negating. -/
inductive Built : FilterSpec → Prop
  | criterion (c : Criterion) : Built (.criterion c)
  | and {a b : FilterSpec} (ha : Built a) (hb : Built b) : Built (a.and b)
  | or {a b : FilterSpec} (ha : Built a) (hb : Built b) : Built (a.or b)
  | not {a : FilterSpec} (ha : Built a) : Built a.not
  | all {specs : List FilterSpec} (h : ∀ s ∈ specs, Built s) : Built (FilterSpec.all specs)
  | any {specs : List FilterSpec} (h : ∀ s ∈ specs, Built s) : Built (FilterSpec.any specs)

/-- **What is built is tidy.** By induction on how it is built. -/
theorem Built.tidy (h : Built s) : Tidy s := by
  induction h with
  | criterion c => exact .criterion c
  | and _ _ iha ihb => exact tidy_join (j := .all) (by simp [iha, ihb])
  | or _ _ iha ihb => exact tidy_join (j := .any) (by simp [iha, ihb])
  | not _ ih => exact .negation ih
  | all _ ih => exact tidy_join (j := .all) ih
  | any _ ih => exact tidy_join (j := .any) ih

/-- The parts of other kinds that a composite is made of are its children. -/
theorem join_children (notOne : children.length ≠ 1)
    (apart : ∀ s ∈ children, ∀ nested, s ≠ j.wrap nested) : j.join children = j.wrap children := by
  have hparts : children.flatMap j.parts = children := by
    calc children.flatMap j.parts = children.flatMap fun s => [s] :=
          List.flatMap_congr fun s hs => Joint.parts_of_ne (apart s hs)
      _ = children := List.flatMap_singleton' children
  rw [Joint.join, hparts, collapse.eq_def]
  split
  · exact absurd rfl notOne
  · rfl

/-- **What is tidy can be built**, from its leaves upwards. -/
theorem Tidy.built (h : Tidy s) : Built s := by
  induction h with
  | criterion c => exact .criterion c
  | conjunction notOne apart _ ih =>
      have hjoin : FilterSpec.all _ = _ := join_children (j := .all) notOne apart
      have hbuilt := Built.all ih
      rwa [hjoin] at hbuilt
  | disjunction notOne apart _ ih =>
      have hjoin : FilterSpec.any _ = _ := join_children (j := .any) notOne apart
      have hbuilt := Built.any ih
      rwa [hjoin] at hbuilt
  | negation _ ih => exact .not ih

/-! ## Joining as an operation -/

/-- The operation is associative on the filters that can be built, the join of none is neutral to it,
and the join of a list folds it over the list, from either end and with or without the neutral
filter. -/
structure Folds (op : FilterSpec → FilterSpec → FilterSpec) (unit : FilterSpec)
    (join : List FilterSpec → FilterSpec) : Prop where
  assoc : ∀ a b c, Built a → Built b → Built c → op (op a b) c = op a (op b c)
  neutral_left : ∀ a, Built a → op unit a = a
  neutral_right : ∀ a, Built a → op a unit = a
  foldl : ∀ specs, (∀ s ∈ specs, Built s) → join specs = specs.foldl op unit
  foldr : ∀ specs, (∀ s ∈ specs, Built s) → join specs = specs.foldr op unit
  foldl_cons : ∀ s rest, (∀ t ∈ s :: rest, Built t) → join (s :: rest) = rest.foldl op s

/-- Joining one filter after the other to what is joined already. -/
theorem foldl_both {done : List FilterSpec} (hdone : ∀ s ∈ done, Tidy s)
    (h : ∀ s ∈ specs, Tidy s) : specs.foldl j.both (j.join done) = j.join (done ++ specs) := by
  induction specs generalizing done with
  | nil => rw [List.foldl_nil, List.append_nil]
  | cons s rest ih =>
      have hnext : j.both (j.join done) s = j.join (done ++ [s]) := join_nested hdone [] [s]
      have hdone' : ∀ t ∈ done ++ [s], Tidy t := by
        intro t ht
        rcases List.mem_append.mp ht with ht | ht
        · exact hdone t ht
        · rw [List.mem_singleton.mp ht]
          exact h s List.mem_cons_self
      rw [List.foldl_cons, hnext, ih hdone' fun t ht => h t (List.mem_cons_of_mem _ ht),
        List.append_assoc, List.singleton_append]

theorem foldr_both (h : ∀ s ∈ specs, Tidy s) : specs.foldr j.both (j.join []) = j.join specs := by
  induction specs with
  | nil => rfl
  | cons s rest ih =>
      have hrest := fun t ht => h t (List.mem_cons_of_mem s ht)
      have hnext : j.both s (j.join rest) = j.join ([s] ++ rest ++ []) := join_nested hrest [s] []
      rw [List.foldr_cons, ih hrest, hnext, List.append_nil, List.singleton_append]

/-- **Joining is associative, has a neutral filter, and is folded by the join of a list.** -/
theorem folds_both (j : Joint) : Folds j.both (j.wrap []) j.join where
  assoc := by
    intro a b c ha hb hc
    have hab : ∀ s ∈ [a, b], Tidy s := by simp [ha.tidy, hb.tidy]
    have hbc : ∀ s ∈ [b, c], Tidy s := by simp [hb.tidy, hc.tidy]
    calc j.both (j.both a b) c = j.join [a, b, c] := join_nested hab [] [c]
      _ = j.both a (j.both b c) := (join_nested hbc [a] []).symm
  neutral_left := by
    intro a ha
    have hnone : j.both (j.wrap []) a = j.join [a] :=
      join_nested (List.forall_mem_nil Tidy) [] [a]
    rw [hnone, join_singleton ha.tidy]
  neutral_right := by
    intro a ha
    have hnone : j.both a (j.wrap []) = j.join [a] :=
      join_nested (List.forall_mem_nil Tidy) [a] []
    rw [hnone, join_singleton ha.tidy]
  foldl := by
    intro specs h
    exact (foldl_both (List.forall_mem_nil Tidy) fun s hs => (h s hs).tidy).symm
  foldr := by
    intro specs h
    exact (foldr_both fun s hs => (h s hs).tidy).symm
  foldl_cons := by
    intro s rest h
    have hs : Tidy s := (h s List.mem_cons_self).tidy
    have hfold := foldl_both (j := j) (List.forall_mem_singleton.mpr hs)
      fun t ht => (h t (List.mem_cons_of_mem s ht)).tidy
    rw [join_singleton hs] at hfold
    exact hfold.symm

end Joining

/-- **The filters that can be built are the tidy ones, and both ways to join them fold.** -/
theorem built_iff_tidy_and_folds :
    (∀ s, Built s ↔ Tidy s) ∧ Folds and (.conjunction []) all ∧ Folds or (.disjunction []) any :=
  ⟨fun _ => ⟨Built.tidy, Tidy.built⟩, folds_both .all, folds_both .any⟩

end FilterSpec

end EntityStore
