import EntityStore.Proofs.Entity.Agreeing
import EntityStore.Proofs.Filter.Criteria

/-!
# What a filter answers

Asked about an entity, a filter that compiles answers yes or no, and one that does not compile has
no answer. The answer of a composite comes from the answers of its children alone, and a composite
without an answer has a child without one, so filters that differ in how their composites are
nested, or in how often a child stands in a disjunction, have the same answers. And so have criteria
whose literals stand for one another.
-/

namespace EntityStore

/-- What a filter is asked about: an entity of a pool, on a type of a schema. -/
structure Question where
  schema : Schema
  root : String
  pool : Pool
  handle : Handle

/-! ## Answers of several filters -/

namespace Answer

/-- Both answers are needed. -/
def and : Option Bool → Option Bool → Option Bool
  | some a, some b => some (a && b)
  | _, _ => none

@[inherit_doc and]
def or : Option Bool → Option Bool → Option Bool
  | some a, some b => some (a || b)
  | _, _ => none

def conjoin (xs : List (Option Bool)) : Option Bool := xs.foldr and (some true)

def disjoin (xs : List (Option Bool)) : Option Bool := xs.foldr or (some false)

theorem and_assoc (a b c : Option Bool) : and (and a b) c = and a (and b c) := by
  cases a <;> cases b <;> cases c <;> simp [and, Bool.and_assoc]

theorem or_assoc (a b c : Option Bool) : or (or a b) c = or a (or b c) := by
  cases a <;> cases b <;> cases c <;> simp [or, Bool.or_assoc]

theorem or_comm (a b : Option Bool) : or a b = or b a := by
  cases a <;> cases b <;> simp [or, Bool.or_comm]

theorem or_self (a : Option Bool) : or a a = a := by cases a <;> simp [or]

theorem true_and (a : Option Bool) : and (some true) a = a := by cases a <;> rfl

theorem and_true (a : Option Bool) : and a (some true) = a := by cases a <;> simp [and]

theorem false_or (a : Option Bool) : or (some false) a = a := by cases a <;> rfl

theorem or_false (a : Option Bool) : or a (some false) = a := by cases a <;> simp [or]

theorem conjoin_append (xs ys : List (Option Bool)) :
    conjoin (xs ++ ys) = and (conjoin xs) (conjoin ys) := by
  induction xs with
  | nil => exact (true_and _).symm
  | cons x xs ih => exact (congrArg (and x) ih).trans (and_assoc _ _ _).symm

theorem disjoin_append (xs ys : List (Option Bool)) :
    disjoin (xs ++ ys) = or (disjoin xs) (disjoin ys) := by
  induction xs with
  | nil => exact (false_or _).symm
  | cons x xs ih => exact (congrArg (or x) ih).trans (or_assoc _ _ _).symm

theorem conjoin_singleton (x : Option Bool) : conjoin [x] = x := and_true x

theorem disjoin_singleton (x : Option Bool) : disjoin [x] = x := or_false x

/-- An answer that is there already adds nothing. -/
theorem or_disjoin_of_mem {x : Option Bool} {xs : List (Option Bool)} (h : x ∈ xs) :
    or x (disjoin xs) = disjoin xs := by
  induction xs with
  | nil => cases h
  | cons y xs ih =>
      change or x (or y (disjoin xs)) = or y (disjoin xs)
      rcases List.mem_cons.mp h with rfl | h
      · rw [← or_assoc, or_self]
      · rw [← or_assoc, or_comm x y, or_assoc, ih h]

theorem or_disjoin_of_subset {xs ys : List (Option Bool)} (h : ∀ x ∈ xs, x ∈ ys) :
    or (disjoin xs) (disjoin ys) = disjoin ys := by
  induction xs with
  | nil => exact false_or _
  | cons x xs ih =>
      change or (or x (disjoin xs)) (disjoin ys) = disjoin ys
      rw [or_assoc, ih fun y hy => h y (List.mem_cons_of_mem _ hy),
        or_disjoin_of_mem (h x List.mem_cons_self)]

/-- In a disjunction it only matters which answers there are. -/
theorem disjoin_congr {xs ys : List (Option Bool)} (h : ∀ x, x ∈ xs ↔ x ∈ ys) :
    disjoin xs = disjoin ys := by
  rw [← or_disjoin_of_subset fun x hx => (h x).mpr hx, or_comm,
    or_disjoin_of_subset fun x hx => (h x).mp hx]

/-- Nesting does not matter. -/
theorem conjoin_flatten (xss : List (List (Option Bool))) :
    conjoin xss.flatten = conjoin (xss.map conjoin) := by
  induction xss with
  | nil => rfl
  | cons xs xss ih => rw [List.flatten_cons, conjoin_append, ih]; rfl

@[inherit_doc conjoin_flatten]
theorem disjoin_flatten (xss : List (List (Option Bool))) :
    disjoin xss.flatten = disjoin (xss.map disjoin) := by
  induction xss with
  | nil => rfl
  | cons xs xss ih => rw [List.flatten_cons, disjoin_append, ih]; rfl

theorem conjoin_eq_none {xs : List (Option Bool)} (h : none ∈ xs) : conjoin xs = none := by
  induction xs with
  | nil => cases h
  | cons x xs ih =>
      change and x (conjoin xs) = none
      rcases List.mem_cons.mp h with rfl | h
      · rfl
      · rw [ih h]
        cases x <;> rfl

theorem disjoin_eq_none {xs : List (Option Bool)} (h : none ∈ xs) : disjoin xs = none := by
  induction xs with
  | nil => cases h
  | cons x xs ih =>
      change or x (disjoin xs) = none
      rcases List.mem_cons.mp h with rfl | h
      · rfl
      · rw [ih h]
        cases x <;> rfl

theorem conjoin_map_some (bs : List Bool) : conjoin (bs.map some) = some (bs.all id) := by
  induction bs with
  | nil => rfl
  | cons b bs ih => exact (congrArg (and (some b)) ih).trans rfl

theorem disjoin_map_some (bs : List Bool) : disjoin (bs.map some) = some (bs.any id) := by
  induction bs with
  | nil => rfl
  | cons b bs ih => exact (congrArg (or (some b)) ih).trans rfl

end Answer

/-! ## Answers of a filter -/

namespace FilterSpec

open Answer

variable {q : Question}

/-- What the filter answers, if it compiles. -/
def answer (q : Question) (s : FilterSpec) : Option Bool :=
  match s.compile q.schema q.root with
  | .ok p => some (p.holds q.pool q.handle)
  | .error _ => none

theorem answer_of_compile {s : FilterSpec} {p : Predicate} (h : s.compile q.schema q.root = .ok p) :
    s.answer q = some (p.holds q.pool q.handle) := by
  rw [answer, h]

/-- The answers of children, when they all compile. -/
theorem map_answer_of_compileAll {children : List FilterSpec} {ps : List Predicate}
    (h : compileAll q.schema q.root children = .ok ps) :
    children.map (answer q) = ps.map fun p => some (p.holds q.pool q.handle) := by
  have heach := forall₂_of_compileAll h
  clear h
  induction heach with
  | nil => rfl
  | cons hp _ ih => rw [List.map_cons, List.map_cons, answer_of_compile hp, ih]

/-- A child without an answer, when they do not all compile. -/
theorem none_mem_of_compileAll {children : List FilterSpec} {e : QueryError}
    (h : compileAll q.schema q.root children = .error e) : none ∈ children.map (answer q) := by
  induction children generalizing e with
  | nil => cases h
  | cons s rest ih =>
      rw [compileAll] at h
      rw [List.map_cons]
      split at h
      case h_1 _ hs => simp [answer, hs]
      case h_2 p hp =>
        split at h
        case h_1 _ hrest => exact List.mem_cons_of_mem _ (ih hrest)
        case h_2 => cases h

/-- **A conjunction answers what its children answer together.** -/
theorem answer_conjunction (children : List FilterSpec) :
    (conjunction children).answer q = conjoin (children.map (answer q)) := by
  rw [answer, compile]
  cases h : compileAll q.schema q.root children with
  | error e => exact (conjoin_eq_none (none_mem_of_compileAll h)).symm
  | ok ps =>
      have hps := conjoin_map_some (ps.map fun p => p.holds q.pool q.handle)
      rw [List.map_map] at hps
      rw [map_answer_of_compileAll h]
      refine Eq.trans ?_ hps.symm
      dsimp only
      rw [Predicate.holds, Predicate.allHold_eq, List.all_map]
      rfl

/-- **A disjunction answers what one of its children answers.** -/
theorem answer_disjunction (children : List FilterSpec) :
    (disjunction children).answer q = disjoin (children.map (answer q)) := by
  rw [answer, compile]
  cases h : compileAll q.schema q.root children with
  | error e => exact (disjoin_eq_none (none_mem_of_compileAll h)).symm
  | ok ps =>
      have hps := disjoin_map_some (ps.map fun p => p.holds q.pool q.handle)
      rw [List.map_map] at hps
      rw [map_answer_of_compileAll h]
      refine Eq.trans ?_ hps.symm
      dsimp only
      rw [Predicate.holds, Predicate.anyHolds_eq, List.any_map]
      rfl

/-- A negation answers the opposite of its child. -/
theorem answer_negation (child : FilterSpec) :
    (negation child).answer q = (child.answer q).map (!·) := by
  rw [answer, answer, compile]
  cases child.compile q.schema q.root <;> rfl

/-! ### Composites as they are built -/

theorem conjoin_conjuncts (s : FilterSpec) : conjoin (s.conjuncts.map (answer q)) = s.answer q := by
  cases s with
  | conjunction children => exact (answer_conjunction children).symm
  | criterion c => exact conjoin_singleton _
  | disjunction children => exact conjoin_singleton _
  | negation child => exact conjoin_singleton _

theorem disjoin_disjuncts (s : FilterSpec) : disjoin (s.disjuncts.map (answer q)) = s.answer q := by
  cases s with
  | disjunction children => exact (answer_disjunction children).symm
  | criterion c => exact disjoin_singleton _
  | conjunction children => exact disjoin_singleton _
  | negation child => exact disjoin_singleton _

/-- All of some filters answer together what each of them answers. -/
theorem answer_all (specs : List FilterSpec) :
    (all specs).answer q = conjoin (specs.map (answer q)) := by
  have hflat : conjoin ((specs.flatMap conjuncts).map (answer q)) = conjoin (specs.map (answer q)) := by
    rw [List.flatMap_def, List.map_flatten, List.map_map, conjoin_flatten, List.map_map]
    exact congrArg conjoin (List.map_congr_left fun s _ => conjoin_conjuncts s)
  rw [all, collapse.eq_def, ← hflat]
  split
  case h_1 only heq => rw [heq]; exact (conjoin_singleton _).symm
  case h_2 => exact answer_conjunction _

/-- Any of some filters answers what one of them answers. -/
theorem answer_any (specs : List FilterSpec) :
    (any specs).answer q = disjoin (specs.map (answer q)) := by
  have hflat : disjoin ((specs.flatMap disjuncts).map (answer q)) = disjoin (specs.map (answer q)) := by
    rw [List.flatMap_def, List.map_flatten, List.map_map, disjoin_flatten, List.map_map]
    exact congrArg disjoin (List.map_congr_left fun s _ => disjoin_disjuncts s)
  rw [any, collapse.eq_def, ← hflat]
  split
  case h_1 only heq => rw [heq]; exact (disjoin_singleton _).symm
  case h_2 => exact answer_disjunction _

end FilterSpec

/-! ## Operands that stand for one another -/

namespace Value.Akin

variable {v w : Value}

theorem isIdLiteral_eq (h : v.Akin w) : Criterion.isIdLiteral v = Criterion.isIdLiteral w := by
  rcases h with rfl | ⟨_, _⟩ | _ <;> rfl

theorem comparesAs_eq (h : v.Akin w) (outcomes : List Ordering) (x : Value) :
    x.comparesAs outcomes v = x.comparesAs outcomes w := by
  rw [comparesAs, comparesAs, h.compare?_eq]

theorem textTest_eq (h : v.Akin w) (test : List Char → List Char → Bool) (x : Value) :
    x.textTest test v = x.textTest test w := by
  rw [textTest, textTest, h.text?_eq]

end Value.Akin

/-- Operands of one shape whose literals stand for one another. In lists each has to have one in the
other. -/
inductive Operand.Akin : Operand → Operand → Prop
  | single {v w : Value} (h : v.Akin w) : Akin (.single v) (.single w)
  | range {a b c d : Value} (hlow : a.Akin c) (hhigh : b.Akin d) : Akin (.range a b) (.range c d)
  | list {vs ws : List Value} (h : ∀ v ∈ vs, ∃ w ∈ ws, v.Akin w) (h' : ∀ w ∈ ws, ∃ v ∈ vs, w.Akin v) :
    Akin (.list vs) (.list ws)

/-- What cannot tell them apart finds some among the ones just when it does among the others. -/
theorem any_eq_of_akin {p : Value → Bool} {vs ws : List Value} (hp : ∀ v w, v.Akin w → p v = p w)
    (h : ∀ v ∈ vs, ∃ w ∈ ws, v.Akin w) (h' : ∀ w ∈ ws, ∃ v ∈ vs, w.Akin v) : vs.any p = ws.any p := by
  have hforth : ∀ {vs ws : List Value}, (∀ v ∈ vs, ∃ w ∈ ws, v.Akin w) → vs.any p = true →
      ws.any p = true := by
    intro vs ws h hany
    obtain ⟨v, hv, hpv⟩ := List.any_eq_true.mp hany
    obtain ⟨w, hw, hakin⟩ := h v hv
    exact List.any_eq_true.mpr ⟨w, hw, hp v w hakin ▸ hpv⟩
  exact Bool.eq_iff_iff.mpr ⟨hforth h, hforth h'⟩

namespace Operand.Akin

variable {o o' : Operand}

theorem arity_eq (h : o.Akin o') : o.arity = o'.arity := by
  cases h <;> rfl

/-- Among the literals of the one there is a faulty one just when there is among those of the other. -/
theorem find?_isSome_eq (h : o.Akin o') {p : Value → Bool} (hp : ∀ v w, v.Akin w → p v = p w) :
    (o.values.find? p).isSome = (o'.values.find? p).isSome := by
  rw [List.isSome_find?, List.isSome_find?]
  cases h with
  | single h => simp only [values, List.any_cons, List.any_nil, hp _ _ h]
  | range hlow hhigh => simp only [values, List.any_cons, List.any_nil, hp _ _ hlow, hp _ _ hhigh]
  | list h h' => exact any_eq_of_akin hp h h'

/-- No value passes with the one operand and not with the other. -/
theorem test_eq (h : o.Akin o') (operator : FilterOperator) (x : Value) :
    operator.test o x = operator.test o' x := by
  cases h with
  | range hlow hhigh =>
      cases operator <;>
        simp only [FilterOperator.test, hlow.comparesAs_eq, hhigh.comparesAs_eq]
  | list h h' =>
      have hany := any_eq_of_akin (p := fun v => x.agrees v) (fun _ _ hakin => hakin.agrees_eq x) h h'
      cases operator <;> simp only [FilterOperator.test, hany]
  | @single v w h =>
      -- null has no twin, so that the tests for null are the same for both
      rcases h with rfl | htwins
      · rfl
      · have hakin : v.Akin w := .inr htwins
        cases operator <;> cases htwins <;>
          simp only [FilterOperator.test, hakin.agrees_eq, hakin.comparesAs_eq, hakin.textTest_eq]

end Operand.Akin

/-! ## Criteria -/

namespace FilterSpec

variable {o o' : Operand}

/-- A criterion suits an attribute or does not, whichever of two such operands it has. -/
theorem checkLast_isOk_of_akin (h : o.Akin o') (path : String) (operator : FilterOperator)
    (last : Attribute) :
    ((Criterion.mk path operator o).checkLast last).isOk
      = ((Criterion.mk path operator o').checkLast last).isOk := by
  have hliterals : ∀ kind, ((Criterion.mk path operator o).checkLiterals kind).isOk
      = ((Criterion.mk path operator o').checkLiterals kind).isOk := by
    intro kind
    have hfind := h.find?_isSome_eq (p := fun v => !kind.accepts v) fun v w hakin => by
      simp only [ValueKind.accepts, hakin.kind?_eq]
    simp only [Criterion.checkLiterals]
    cases hone : o.values.find? fun v => !kind.accepts v <;>
      cases hother : o'.values.find? fun v => !kind.accepts v <;>
      simp_all [Except.isOk, Except.toBool]
  have hrelation : ((Criterion.mk path operator o).checkRelation).isOk
      = ((Criterion.mk path operator o').checkRelation).isOk := by
    have hfind := h.find?_isSome_eq (p := fun v => !Criterion.isIdLiteral v) fun v w hakin => by
      simp only [hakin.isIdLiteral_eq]
    simp only [Criterion.checkRelation]
    cases operator.isIdentity
    · rfl
    · cases hone : o.values.find? fun v => !Criterion.isIdLiteral v <;>
        cases hother : o'.values.find? fun v => !Criterion.isIdLiteral v <;>
        simp_all [Except.isOk, Except.toBool]
  rw [Criterion.checkLast, Criterion.checkLast]
  split
  · rfl
  case h_2 kind _ =>
    have hkind : (Criterion.mk path operator o).checkKind kind
        = (Criterion.mk path operator o').checkKind kind := rfl
    rw [hkind]
    cases (Criterion.mk path operator o').checkKind kind with
    | error e => rfl
    | ok u => exact hliterals kind
  · exact hrelation

/-- **A criterion answers the same whichever of two such operands it has.** -/
theorem answer_of_akin (h : o.Akin o') (q : Question) (path : String) (operator : FilterOperator) :
    (criterion ⟨path, operator, o⟩).answer q = (criterion ⟨path, operator, o'⟩).answer q := by
  have htest : operator.test o = operator.test o' := funext (h.test_eq operator)
  rw [answer, answer, compile, compile, Criterion.resolve, Criterion.resolve]
  cases hsteps : q.schema.resolve q.root path with
  | error e => rfl
  | ok steps =>
      dsimp only
      cases steps.getLast? with
      | none => rfl
      | some last =>
          have hlast := checkLast_isOk_of_akin h path operator last.attr
          dsimp only
          cases hone : (Criterion.mk path operator o).checkLast last.attr with
          | error e =>
              cases hother : (Criterion.mk path operator o').checkLast last.attr with
              | error e' => rfl
              | ok u => rw [hone, hother] at hlast; cases hlast
          | ok u =>
              cases hother : (Criterion.mk path operator o').checkLast last.attr with
              | error e => rw [hone, hother] at hlast; cases hlast
              | ok u' =>
                  dsimp only
                  rw [Predicate.holds, Predicate.holds, htest]

end FilterSpec

end EntityStore
