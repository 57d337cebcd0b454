import EntityStore.QueryText.Expression

/-!
# From written filters to specifications

An operator name means the operator of that name; failing that, `not-` in front of an operator
negates the criterion. Empty strings and repeated literals are dropped. What is left is one
operand for a membership operator, and one criterion per literal, joined by `or`, for every other
operator. When nothing is left the criterion matches nothing, except that `not-contained` then
matches whatever is not null.
-/

namespace EntityStore.QueryText

/-- Drop `not-` from the front of a name. -/
def stripNot? (name : String) : Option String :=
  if "not-".toList.isPrefixOf name.toList then some (String.ofList (name.toList.drop 4)) else none

/-- The operator a name stands for, and whether it is negated. -/
def operatorOf? (name : String) : Option (FilterOperator × Bool) :=
  match FilterOperator.ofName? name with
  | some op => some (op, false)
  | none => ((stripNot? name).bind FilterOperator.ofName?).map fun op => (op, true)

def isEmptyString : Literal → Bool
  | .value (.string s) => s == ""
  | _ => false

/-- The literals that count: no empty strings, and of equal ones the first. -/
def distinctLiterals (kept : List Literal) : List Literal → List Literal
  | [] => kept
  | l :: rest =>
    if isEmptyString l || kept.any fun k => k.same l then distinctLiterals kept rest
    else distinctLiterals (kept ++ [l]) rest

/-- A literal in the place of a single value. -/
def scalar (operator : FilterOperator) (path : String) : Literal → Except QueryError Value
  | .value v => .ok v
  | .range low high => .error (.invalidOperand (.rangeNotAllowed low high operator path))

/-- A literal in the place of a range. -/
def rangeOperand (operator : FilterOperator) (path : String) : Literal → Except QueryError Operand
  | .range low high => .ok (.range low high)
  | .value v => .error (.invalidOperand (.rangeNeeded operator path v))

/-- A checked criterion, negated if so written. -/
def leaf (negated : Bool) (operator : FilterOperator) (path : String) (operand : Operand) :
    Except QueryError FilterSpec := do
  let c ← Criterion.build path operator operand
  pure (if negated then .negation (.criterion c) else .criterion c)

/-- The spec of a criterion as written. -/
def RawCriterion.toSpec (raw : RawCriterion) : Except QueryError FilterSpec :=
  match operatorOf? raw.operator with
  | none => .error (.malformed ⟨raw.operator, raw.position, .unknownOperator, false⟩)
  | some (operator, negated) =>
    let path := attributePath raw.path
    match distinctLiterals [] raw.values with
    | [] =>
      leaf false (if operator = .notContained ∧ negated = false then .notContained else .contained)
        path (.list [])
    | literals =>
      match operator.arity with
      | .list => do
        let values ← literals.mapM (scalar operator path)
        leaf negated operator path (.list values)
      | .pair => do
        let specs ← literals.mapM fun l => do
          leaf negated operator path (← rangeOperand operator path l)
        pure (.any specs)
      | .single => do
        let specs ← literals.mapM fun l => do
          leaf negated operator path (.single (← scalar operator path l))
        pure (.any specs)

mutual

/-- The spec of a filter as written. -/
def FilterExpr.toSpec : FilterExpr → Except QueryError FilterSpec
  | .criterion raw => raw.toSpec
  | .and terms =>
    match FilterExpr.toSpecs terms with
    | .error e => .error e
    | .ok specs => .ok (.all specs)
  | .or branches =>
    match FilterExpr.toSpecs branches with
    | .error e => .error e
    | .ok specs => .ok (.any specs)

@[inherit_doc FilterExpr.toSpec]
def FilterExpr.toSpecs : List FilterExpr → Except QueryError (List FilterSpec)
  | [] => .ok []
  | expr :: rest =>
    match expr.toSpec with
    | .error e => .error e
    | .ok spec =>
      match FilterExpr.toSpecs rest with
      | .error e => .error e
      | .ok specs => .ok (spec :: specs)

end

/-- The filter a text stands for. -/
def parseFilter (input : String) : Except QueryError FilterSpec :=
  match readFilter input with
  | .error e => .error (.malformed e)
  | .ok expr => expr.toSpec

/-- The order a text stands for. -/
def parseOrder (input : String) : Except QueryError OrderSpec :=
  match readOrder input with
  | .error e => .error (.malformed e)
  | .ok spec => .ok spec

end EntityStore.QueryText
