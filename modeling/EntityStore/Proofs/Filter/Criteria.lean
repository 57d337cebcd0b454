import EntityStore.Filter.Matching
import Mathlib.Data.List.Basic
import Mathlib.Data.List.Forall2

/-!
# The criteria of a filter

What is asked of a filter's leaves is asked of a list: its criteria from left to right. What a filter
is checked into has its shape, with a test for every criterion.
-/

namespace EntityStore

namespace FilterSpec

mutual

/-- The leaves of a filter, from left to right. -/
def criteria : FilterSpec → List Criterion
  | .criterion c => [c]
  | .conjunction children => criteriaOfList children
  | .disjunction children => criteriaOfList children
  | .negation child => criteria child

@[inherit_doc criteria]
def criteriaOfList : List FilterSpec → List Criterion
  | [] => []
  | spec :: rest => criteria spec ++ criteriaOfList rest

end

theorem criteriaOfList_eq (specs : List FilterSpec) : criteriaOfList specs = specs.flatMap criteria := by
  induction specs with
  | nil => rfl
  | cons spec rest ih => rw [criteriaOfList, ih, List.flatMap_cons]

theorem mem_criteriaOfList {c : Criterion} {specs : List FilterSpec} :
    c ∈ criteriaOfList specs ↔ ∃ spec ∈ specs, c ∈ criteria spec := by
  induction specs with
  | nil => simp [criteriaOfList]
  | cons spec rest ih => simp [criteriaOfList, ih]

/-- Induction on a filter, with what is known of the children of a composite. -/
@[elab_as_elim]
theorem ind {P : FilterSpec → Prop} (criterion : ∀ c, P (.criterion c))
    (conjunction : ∀ children, (∀ s ∈ children, P s) → P (.conjunction children))
    (disjunction : ∀ children, (∀ s ∈ children, P s) → P (.disjunction children))
    (negation : ∀ child, P child → P (.negation child)) (s : FilterSpec) : P s :=
  @FilterSpec.rec P (fun children => ∀ s ∈ children, P s) criterion conjunction disjunction negation
    (fun _ hs => by cases hs)
    (fun _ _ hhead htail s hs => (List.mem_cons.mp hs).elim (fun heq => heq ▸ hhead) (htail s)) s

/-! ## Checked filters -/

/-- What a filter is checked into, kind by kind. -/
inductive Compiled (schema : Schema) (root : String) : FilterSpec → Predicate → Prop
  | criterion {c : Criterion} {steps : List Step} (resolves : c.resolve schema root = .ok steps) :
      Compiled schema root (.criterion c)
        (.test (steps.map fun s => s.attr.name) c.operator c.operand)
  | conjunction {children : List FilterSpec} {ps : List Predicate}
      (each : List.Forall₂ (fun s p => s.compile schema root = .ok p) children ps) :
      Compiled schema root (.conjunction children) (.all ps)
  | disjunction {children : List FilterSpec} {ps : List Predicate}
      (each : List.Forall₂ (fun s p => s.compile schema root = .ok p) children ps) :
      Compiled schema root (.disjunction children) (.any ps)
  | negation {child : FilterSpec} {p : Predicate} (inner : child.compile schema root = .ok p) :
      Compiled schema root (.negation child) (.not p)

section Checked

variable {schema : Schema} {root : String}

theorem forall₂_of_compileAll {children : List FilterSpec} {ps : List Predicate}
    (h : compileAll schema root children = .ok ps) :
    List.Forall₂ (fun s p => s.compile schema root = .ok p) children ps := by
  induction children generalizing ps with
  | nil =>
      obtain rfl := Except.ok.inj h
      exact .nil
  | cons s rest ih =>
      rw [compileAll] at h
      split at h
      · cases h
      case h_2 p hp =>
        split at h
        · cases h
        case h_2 ps' hps =>
          obtain rfl := Except.ok.inj h
          exact .cons hp (ih hps)

theorem compiled_of_compile {s : FilterSpec} {p : Predicate} (h : s.compile schema root = .ok p) :
    Compiled schema root s p := by
  cases s with
  | criterion c =>
      rw [compile] at h
      split at h
      · cases h
      case h_2 steps hsteps =>
        obtain rfl := Except.ok.inj h
        exact .criterion hsteps
  | conjunction children =>
      rw [compile] at h
      split at h
      · cases h
      case h_2 ps hps =>
        obtain rfl := Except.ok.inj h
        exact .conjunction (forall₂_of_compileAll hps)
  | disjunction children =>
      rw [compile] at h
      split at h
      · cases h
      case h_2 ps hps =>
        obtain rfl := Except.ok.inj h
        exact .disjunction (forall₂_of_compileAll hps)
  | negation child =>
      rw [compile] at h
      split at h
      · cases h
      case h_2 q hq =>
        obtain rfl := Except.ok.inj h
        exact .negation hq

end Checked

/-! ## Filters leaf by leaf -/

mutual

/-- The filter with other leaves. -/
def mapCriteria (f : Criterion → Criterion) : FilterSpec → FilterSpec
  | .criterion c => .criterion (f c)
  | .conjunction children => .conjunction (mapCriteriaOfList f children)
  | .disjunction children => .disjunction (mapCriteriaOfList f children)
  | .negation child => .negation (mapCriteria f child)

@[inherit_doc mapCriteria]
def mapCriteriaOfList (f : Criterion → Criterion) : List FilterSpec → List FilterSpec
  | [] => []
  | spec :: rest => mapCriteria f spec :: mapCriteriaOfList f rest

end

section Map

variable {f : Criterion → Criterion}

theorem mapCriteriaOfList_eq (specs : List FilterSpec) :
    mapCriteriaOfList f specs = specs.map (mapCriteria f) := by
  induction specs with
  | nil => rfl
  | cons spec rest ih => rw [mapCriteriaOfList, ih, List.map_cons]

theorem criteria_mapCriteria (s : FilterSpec) : (s.mapCriteria f).criteria = s.criteria.map f := by
  have hlist : ∀ children : List FilterSpec, (∀ s ∈ children, (s.mapCriteria f).criteria = s.criteria.map f) →
      criteriaOfList (mapCriteriaOfList f children) = (criteriaOfList children).map f := by
    intro children h
    rw [mapCriteriaOfList_eq, criteriaOfList_eq, criteriaOfList_eq, List.flatMap_map, List.map_flatMap]
    exact List.flatMap_congr h
  induction s using ind with
  | criterion c => rfl
  | conjunction children ih => exact hlist children ih
  | disjunction children ih => exact hlist children ih
  | negation child ih => exact ih

/-- A filter whose leaves stay is the same filter. -/
theorem mapCriteria_eq_self {s : FilterSpec} (h : ∀ c ∈ s.criteria, f c = c) : s.mapCriteria f = s := by
  have hlist : ∀ children : List FilterSpec,
      (∀ s ∈ children, (∀ c ∈ s.criteria, f c = c) → s.mapCriteria f = s) →
      (∀ c ∈ criteriaOfList children, f c = c) → mapCriteriaOfList f children = children := by
    intro children ih h
    rw [mapCriteriaOfList_eq]
    have hsame : ∀ s ∈ children, s.mapCriteria f = id s := fun s hs =>
      ih s hs fun c hc => h c (mem_criteriaOfList.mpr ⟨s, hs, hc⟩)
    rw [List.map_congr_left hsame, List.map_id]
  induction s using ind with
  | criterion c => rw [mapCriteria, h c (List.mem_singleton_self c)]
  | conjunction children ih => rw [mapCriteria, hlist children ih h]
  | disjunction children ih => rw [mapCriteria, hlist children ih h]
  | negation child ih => rw [mapCriteria, ih h]

end Map

end FilterSpec

namespace Predicate

theorem allHold_eq (pool : Pool) (h : Handle) (ps : List Predicate) :
    allHold pool h ps = ps.all fun p => p.holds pool h := by
  induction ps with
  | nil => rfl
  | cons p rest ih => rw [allHold, List.all_cons, ih]

theorem anyHolds_eq (pool : Pool) (h : Handle) (ps : List Predicate) :
    anyHolds pool h ps = ps.any fun p => p.holds pool h := by
  induction ps with
  | nil => rfl
  | cons p rest ih => rw [anyHolds, List.any_cons, ih]

end Predicate

end EntityStore
