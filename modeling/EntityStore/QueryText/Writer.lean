import EntityStore.Filter.Basic
import EntityStore.Order.Basic

/-!
# Writing query text

A specification is written so that it reads back as one that means the same. Inside a
disjunction neighbouring criteria on one path with one operator are merged into a list of
literals, unless a literal would be repeated, because a repeated one is dropped in reading.
Parentheses stand only around a disjunction inside a conjunction.

Some specifications have no textual form: composites without children, negated composites,
negations that would read back as another operator or as an empty list, and ranges between
bounds that are not numbers.
-/

namespace EntityStore.QueryText

/-- The written form of an attribute path: underscores become hyphens. -/
def writtenPath (path : String) : String :=
  String.ofList (path.toList.map fun c => if c = '_' then '-' else c)

/-- A criterion in the making. -/
structure WrittenCriterion where
  path : String
  operator : String
  values : List String
  /-- Whether further literals may join the list. -/
  mergeable : Bool
  deriving DecidableEq, Repr

def WrittenCriterion.text (c : WrittenCriterion) : String :=
  c.path ++ ":" ++ c.operator ++ ":" ++ ",".intercalate c.values

/-- A written part of a filter, with what its outermost joint is. -/
inductive Fragment
  | criterion (c : WrittenCriterion)
  | and (text : String)
  | or (text : String)
  deriving DecidableEq, Repr

namespace Fragment

def text : Fragment → String
  | .criterion c => c.text
  | .and text => text
  | .or text => text

/-- The text inside a conjunction. -/
def conjunctText : Fragment → String
  | .or text => "(" ++ text ++ ")"
  | fragment => fragment.text

end Fragment

def isNumber : Value → Bool
  | .int _ => true
  | .float _ => true
  | _ => false

/-- The literals of an operand. -/
def operandTexts : Operand → Except QueryError (List String × Bool)
  | .single v => .ok ([v.toText], true)
  | .range low high =>
    if isNumber low && isNumber high then .ok ([low.toText ++ "-" ++ high.toText], true)
    else .error (.unrepresentable (.rangeBounds low high))
  | .list vs => .ok (vs.map Value.toText, false)

def writeCriterion (c : Criterion) : Except QueryError Fragment :=
  match operandTexts c.operand with
  | .error e => .error e
  | .ok (values, mergeable) =>
    .ok (.criterion ⟨writtenPath c.path, c.operator.name, values, mergeable⟩)

def writeConjunction (children : List Fragment) : Except QueryError Fragment :=
  if children.isEmpty then .error (.unrepresentable .emptyConjunction)
  else .ok (.and ("~".intercalate (children.map Fragment.conjunctText)))

/-- Two neighbouring criteria as one, where that loses nothing. -/
def merge? : Fragment → Fragment → Option Fragment
  | .criterion a, .criterion b =>
    if a.mergeable && b.mergeable && a.path == b.path && a.operator == b.operator &&
        b.values.all fun v => !a.values.contains v then
      some (.criterion { a with values := a.values ++ b.values })
    else none
  | _, _ => none

/-- Merge neighbours from left to right; `last` is what the next one may join. -/
def mergeAll (last : Fragment) : List Fragment → List Fragment
  | [] => [last]
  | next :: rest =>
    match merge? last next with
    | some both => mergeAll both rest
    | none => last :: mergeAll next rest

def writeDisjunction : List Fragment → Except QueryError Fragment
  | [] => .error (.unrepresentable .emptyDisjunction)
  | first :: rest =>
    match mergeAll first rest with
    | [only] => .ok only
    | parts => .ok (.or (" or ".intercalate (parts.map Fragment.text)))

def writeNegation : Fragment → Except QueryError Fragment
  | .criterion c =>
    if (FilterOperator.ofName? ("not-" ++ c.operator)).isSome then
      .error (.unrepresentable (.negatedOperator c.operator c.path))
    else if c.values.isEmpty then
      .error (.unrepresentable (.negatedWithoutValues c.operator c.path))
    else .ok (.criterion { c with operator := "not-" ++ c.operator })
  | fragment => .error (.unrepresentable (.negatedComposite fragment.text))

mutual

/-- Write a spec, children first and from left to right. -/
def writeSpec : FilterSpec → Except QueryError Fragment
  | .criterion c => writeCriterion c
  | .conjunction children =>
    match writeSpecs children with
    | .error e => .error e
    | .ok fragments => writeConjunction fragments
  | .disjunction children =>
    match writeSpecs children with
    | .error e => .error e
    | .ok fragments => writeDisjunction fragments
  | .negation child =>
    match writeSpec child with
    | .error e => .error e
    | .ok fragment => writeNegation fragment

@[inherit_doc writeSpec]
def writeSpecs : List FilterSpec → Except QueryError (List Fragment)
  | [] => .ok []
  | spec :: rest =>
    match writeSpec spec with
    | .error e => .error e
    | .ok fragment =>
      match writeSpecs rest with
      | .error e => .error e
      | .ok fragments => .ok (fragment :: fragments)

end

/-- The text of a filter. -/
def writeFilter (spec : FilterSpec) : Except QueryError String := (writeSpec spec).map Fragment.text

def writeKey (k : OrderKey) : String := writtenPath k.path ++ ":" ++ k.direction.name

mutual

/-- The text of an order. -/
def writeOrder : OrderSpec → String
  | .key k => writeKey k
  | .conjunction children => "~".intercalate (writeOrders children)

@[inherit_doc writeOrder]
def writeOrders : List OrderSpec → List String
  | [] => []
  | spec :: rest => writeOrder spec :: writeOrders rest

end

end EntityStore.QueryText
