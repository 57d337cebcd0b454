/-!
# Filter operators

Thirteen operators, each with a name in query text, a shape of operand and a class: some compare
substrings, some need an order, some compare identity and therefore apply to relations. Six of
them come in pairs of opposites, which differ on null alone: null satisfies neither of a pair.
-/

namespace EntityStore

inductive FilterOperator
  | equalTo
  | notEqualTo
  | lessThan
  | lessThanOrEqualTo
  | greaterThan
  | greaterThanOrEqualTo
  | startsWith
  | endsWith
  | contains
  | notContains
  | contained
  | notContained
  | inRange
  deriving DecidableEq, Repr, Inhabited

/-- The shape of operand an operator takes. -/
inductive Arity
  | single
  | pair
  | list
  deriving DecidableEq, Repr

def Arity.name : Arity → String
  | .single => "Single"
  | .pair => "Pair"
  | .list => "List"

namespace FilterOperator

def all : List FilterOperator :=
  [ .equalTo, .notEqualTo, .lessThan, .lessThanOrEqualTo, .greaterThan, .greaterThanOrEqualTo,
    .startsWith, .endsWith, .contains, .notContains, .contained, .notContained, .inRange ]

/-- The name in query text. -/
def name : FilterOperator → String
  | .equalTo => "equal-to"
  | .notEqualTo => "not-equal-to"
  | .lessThan => "less-than"
  | .lessThanOrEqualTo => "less-than-or-equal-to"
  | .greaterThan => "greater-than"
  | .greaterThanOrEqualTo => "greater-than-or-equal-to"
  | .startsWith => "starts-with"
  | .endsWith => "ends-with"
  | .contains => "contains"
  | .notContains => "not-contains"
  | .contained => "contained"
  | .notContained => "not-contained"
  | .inRange => "in-range"

def ofName? (name : String) : Option FilterOperator := all.find? fun op => op.name == name

def arity : FilterOperator → Arity
  | .inRange => .pair
  | .contained => .list
  | .notContained => .list
  | _ => .single

/-- Operators on substrings. -/
def isTextual : FilterOperator → Bool
  | .startsWith => true
  | .endsWith => true
  | .contains => true
  | .notContains => true
  | _ => false

/-- Operators that need an ordered kind. -/
def isOrdering : FilterOperator → Bool
  | .lessThan => true
  | .lessThanOrEqualTo => true
  | .greaterThan => true
  | .greaterThanOrEqualTo => true
  | .inRange => true
  | _ => false

/-- Operators that compare identity and may be applied to a relation. -/
def isIdentity : FilterOperator → Bool
  | .equalTo => true
  | .notEqualTo => true
  | .contained => true
  | .notContained => true
  | _ => false

/-- The opposite operator, when there is one. -/
def opposite? : FilterOperator → Option FilterOperator
  | .equalTo => some .notEqualTo
  | .notEqualTo => some .equalTo
  | .contains => some .notContains
  | .notContains => some .contains
  | .contained => some .notContained
  | .notContained => some .contained
  | _ => none

theorem ofName?_name (op : FilterOperator) : ofName? op.name = some op := by cases op <;> decide

end FilterOperator

end EntityStore
