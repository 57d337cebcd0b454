import EntityStore.QueryError

/-!
# Filter specifications

A specification is a tree of criteria joined by conjunction, disjunction and negation. It knows
nothing of backends. The composite constructors flatten one level of their own kind and leave a
single child bare, so the trees built with them never nest a composite in one of its kind.
-/

namespace EntityStore

/-- The operand of a criterion. -/
inductive Operand
  | single (v : Value)
  /-- A closed interval. -/
  | range (low high : Value)
  | list (values : List Value)
  deriving DecidableEq, Inhabited

namespace Operand

def arity : Operand → Arity
  | .single _ => .single
  | .range _ _ => .pair
  | .list _ => .list

/-- The literals of an operand. -/
def values : Operand → List Value
  | .single v => [v]
  | .range low high => [low, high]
  | .list vs => vs

def same : Operand → Operand → Bool
  | .single a, .single b => a.same b
  | .range a b, .range c d => a.same c && b.same d
  | .list as, .list bs => Value.sameList as bs
  | _, _ => false

end Operand

/-- A leaf of a filter: what a path leads to, compared with an operand. -/
structure Criterion where
  path : String
  operator : FilterOperator
  operand : Operand
  deriving DecidableEq, Inhabited

namespace Criterion

/-- A criterion whose path is not empty and whose operand has the shape its operator takes. -/
def build (path : String) (operator : FilterOperator) (operand : Operand) :
    Except QueryError Criterion :=
  if path = "" then .error (.invalidOperand .emptyPath)
  else if operand.arity ≠ operator.arity then
    .error (.invalidOperand (.arity operator path operand.arity))
  else .ok ⟨path, operator, operand⟩

def same (a b : Criterion) : Bool :=
  a.path == b.path && a.operator == b.operator && a.operand.same b.operand

/-- The path is not empty and the operand has the shape the operator takes. -/
def WellFormed (c : Criterion) : Prop := c.path ≠ "" ∧ c.operand.arity = c.operator.arity

instance (c : Criterion) : Decidable c.WellFormed := inferInstanceAs (Decidable (_ ∧ _))

end Criterion

/-- A filter specification. -/
inductive FilterSpec
  | criterion (c : Criterion)
  | conjunction (children : List FilterSpec)
  | disjunction (children : List FilterSpec)
  | negation (child : FilterSpec)
  deriving Inhabited

namespace FilterSpec

mutual

/-- Equality of specifications with the equality of values. -/
def same : FilterSpec → FilterSpec → Bool
  | .criterion a, .criterion b => a.same b
  | .conjunction as, .conjunction bs => sameList as bs
  | .disjunction as, .disjunction bs => sameList as bs
  | .negation a, .negation b => same a b
  | _, _ => false

@[inherit_doc same]
def sameList : List FilterSpec → List FilterSpec → Bool
  | [], [] => true
  | a :: as, b :: bs => same a b && sameList as bs
  | _, _ => false

end

/-- The children a spec contributes to a conjunction around it. -/
def conjuncts : FilterSpec → List FilterSpec
  | .conjunction children => children
  | spec => [spec]

/-- The children a spec contributes to a disjunction around it. -/
def disjuncts : FilterSpec → List FilterSpec
  | .disjunction children => children
  | spec => [spec]

/-- Wrap children, unless there is only one. -/
def collapse (wrap : List FilterSpec → FilterSpec) : List FilterSpec → FilterSpec
  | [only] => only
  | children => wrap children

/-- All of the specs hold. -/
def all (specs : List FilterSpec) : FilterSpec :=
  collapse .conjunction (specs.flatMap conjuncts)

/-- One of the specs holds. -/
def any (specs : List FilterSpec) : FilterSpec :=
  collapse .disjunction (specs.flatMap disjuncts)

def and (a b : FilterSpec) : FilterSpec := all [a, b]

def or (a b : FilterSpec) : FilterSpec := any [a, b]

def not (a : FilterSpec) : FilterSpec := .negation a

/-- A criterion with one literal, not checked. -/
def single (operator : FilterOperator) (path : String) (value : Value) : FilterSpec :=
  .criterion ⟨path, operator, .single value⟩

/-- A criterion that compares an attribute for equality. -/
def equalTo (path : String) (value : Value) : FilterSpec := single .equalTo path value

/-- A criterion with a list of literals, not checked. -/
def membership (operator : FilterOperator) (path : String) (values : List Value) : FilterSpec :=
  .criterion ⟨path, operator, .list values⟩

def inRange (path : String) (low high : Value) : FilterSpec :=
  .criterion ⟨path, .inRange, .range low high⟩

end FilterSpec

end EntityStore
