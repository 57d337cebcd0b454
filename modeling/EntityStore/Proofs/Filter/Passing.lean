import EntityStore.Proofs.Filter.Criteria
import EntityStore.Proofs.Schema.Walk

/-!
# Filters as tests of a value

The criteria of a filter may all be on one path. What such a filter says of an entity it says of the
value the path leads to: **whatever schema it is checked against, it holds of an entity just when the
value passes.** So two filters on one path mean the same when the same values pass both.
-/

namespace EntityStore

/-- The path leads from the entity to this one value. -/
def Pool.LeadsTo (pool : Pool) (path : List String) (h : Handle) (x : Value) : Prop :=
  ∀ test, pool.anyValue test path h = test x

namespace FilterOperator

/-- `equal-to` a literal that may be null. -/
theorem test_equalTo (v x : Value) :
    FilterOperator.equalTo.test (.single v) x = if v = .null then x.isNull else x.agrees v := by
  cases v <;> rfl

theorem test_notEqualTo (v x : Value) :
    FilterOperator.notEqualTo.test (.single v) x
      = if v = .null then !x.isNull else (!x.isNull && !x.agrees v) := by
  cases v <;> rfl

end FilterOperator

namespace FilterSpec

mutual

/-- Whether the filter lets a value pass that stands at the end of all its paths. -/
def passes (x : Value) : FilterSpec → Bool
  | .criterion c => c.operator.test c.operand x
  | .conjunction children => allPass x children
  | .disjunction children => anyPasses x children
  | .negation child => !passes x child

@[inherit_doc passes]
def allPass (x : Value) : List FilterSpec → Bool
  | [] => true
  | s :: rest => passes x s && allPass x rest

@[inherit_doc passes]
def anyPasses (x : Value) : List FilterSpec → Bool
  | [] => false
  | s :: rest => passes x s || anyPasses x rest

end

theorem allPass_eq (x : Value) (children : List FilterSpec) :
    allPass x children = children.all (passes x) := by
  induction children with
  | nil => rfl
  | cons s rest ih => rw [allPass, List.all_cons, ih]

theorem anyPasses_eq (x : Value) (children : List FilterSpec) :
    anyPasses x children = children.any (passes x) := by
  induction children with
  | nil => rfl
  | cons s rest ih => rw [anyPasses, List.any_cons, ih]

section Holds

variable {schema : Schema} {root path : String} {steps : List Step} {pool : Pool} {h : Handle}
  {x : Value}

/-- Children that hold just when the value passes them do so together. -/
theorem all_and_any_holds_eq {children : List FilterSpec} {ps : List Predicate}
    (heach : List.Forall₂ (fun s p => s.compile schema root = .ok p) children ps)
    (hsame : ∀ s ∈ children, ∀ p, s.compile schema root = .ok p → p.holds pool h = s.passes x) :
    (ps.all fun p => p.holds pool h) = children.all (passes x) ∧
      (ps.any fun p => p.holds pool h) = children.any (passes x) := by
  induction heach with
  | nil => exact ⟨rfl, rfl⟩
  | cons hp _ ih =>
      have hhead := hsame _ List.mem_cons_self _ hp
      obtain ⟨hall, hany⟩ := ih fun s hs => hsame s (List.mem_cons_of_mem _ hs)
      rw [List.all_cons, List.all_cons, List.any_cons, List.any_cons, hhead, hall, hany]
      exact ⟨rfl, rfl⟩

/-- **A filter on one path holds of an entity just when the value there passes.** -/
theorem holds_of_compile {s : FilterSpec} {p : Predicate} (hcompile : s.compile schema root = .ok p)
    (hresolve : schema.resolve root path = .ok steps) (hpaths : ∀ c ∈ s.criteria, c.path = path)
    (hleads : pool.LeadsTo (steps.map fun s => s.attr.name) h x) :
    p.holds pool h = s.passes x := by
  induction s using ind generalizing p with
  | criterion c =>
      cases compiled_of_compile hcompile with
      | criterion hsteps =>
          have hpath := (Criterion.resolve_inv hsteps).1
          rw [hpaths c (List.mem_singleton_self c), hresolve] at hpath
          rw [← Except.ok.inj hpath]
          exact hleads _
  | conjunction children ih =>
      cases compiled_of_compile hcompile with
      | conjunction heach =>
          rw [Predicate.holds, Predicate.allHold_eq, passes, allPass_eq]
          exact (all_and_any_holds_eq heach fun s hs p hp =>
            ih s hs hp fun c hc => hpaths c (mem_criteriaOfList.mpr ⟨s, hs, hc⟩)).1
  | disjunction children ih =>
      cases compiled_of_compile hcompile with
      | disjunction heach =>
          rw [Predicate.holds, Predicate.anyHolds_eq, passes, anyPasses_eq]
          exact (all_and_any_holds_eq heach fun s hs p hp =>
            ih s hs hp fun c hc => hpaths c (mem_criteriaOfList.mpr ⟨s, hs, hc⟩)).2
  | negation child ih =>
      cases compiled_of_compile hcompile with
      | negation hp => rw [Predicate.holds, passes, ih hp hpaths]

/-- The filter says of the values on a path what the criterion says of them. -/
structure Restates (s : FilterSpec) (c : Criterion) : Prop where
  paths : ∀ c' ∈ s.criteria, c'.path = c.path
  passes : ∀ x, s.passes x = c.operator.test c.operand x

/-- **A filter that restates a criterion holds of the entities the criterion holds of.** -/
theorem Restates.holds_eq {s : FilterSpec} {c : Criterion} (hs : s.Restates c) {p q : Predicate}
    (hp : s.compile schema root = .ok p) (hq : (criterion c).compile schema root = .ok q)
    (hresolve : schema.resolve root c.path = .ok steps)
    (hleads : pool.LeadsTo (steps.map fun s => s.attr.name) h x) :
    p.holds pool h = q.holds pool h := by
  have hcriterion : ∀ c' ∈ (criterion c).criteria, c'.path = c.path := by
    intro c' hc'
    rw [List.mem_singleton.mp hc']
  rw [holds_of_compile hp hresolve hs.paths hleads, holds_of_compile hq hresolve hcriterion hleads]
  exact hs.passes x

end Holds

end FilterSpec

end EntityStore
