import EntityStore.Filter.Operator
import EntityStore.Schema.Basic
import EntityStore.Value.Printer

/-!
# Failures of queries

Everything that can be wrong with a query is found before any backend begins to work: in its
text, in its paths, in how an operator meets an attribute, or in an operand. The causes are
listed here with the one function that words them.
-/

namespace EntityStore

/-- What the reader of query text was looking for. -/
inductive Expected
  | attributeName
  | attributeNameAfterDot
  | colonAfterPath
  | operatorName
  | colonAfterOperator
  | closingParenthesis
  | sortDirection
  deriving DecidableEq, Repr

def Expected.message : Expected → String
  | .attributeName => "attribute name"
  | .attributeNameAfterDot => "attribute name after `.`"
  | .colonAfterPath => "`:` after attribute path"
  | .operatorName => "operator name"
  | .colonAfterOperator => "`:` after operator"
  | .closingParenthesis => "`)`"
  | .sortDirection => "sort direction"

/-- Why a query text is malformed. -/
inductive SyntaxFault
  | unexpectedCharacter
  | expected (what : Expected)
  | missingSeparator
  | trailingInput
  | rangeWithoutEnd
  | invalidInteger (fault : Text.IntegerFault)
  | invalidNumber
  | unknownOperator
  | noFilterCriteria
  | noDirection
  | noOrderCriterion
  | noOrderCriteria
  deriving DecidableEq, Repr

def SyntaxFault.message : SyntaxFault → String
  | .unexpectedCharacter => "unexpected character"
  | .expected what => "expected " ++ what.message
  | .missingSeparator => "expected `~`, `and` or `or` between criteria"
  | .trailingInput => "unexpected trailing input"
  | .rangeWithoutEnd => "range is missing its upper bound"
  | .invalidInteger fault => "invalid integer: " ++ fault.message
  | .invalidNumber => "invalid number: invalid float literal"
  | .unknownOperator => "unknown filter operator"
  | .noFilterCriteria => "filter expression has no criteria"
  | .noDirection => "expected `asc` or `desc`"
  | .noOrderCriterion => "expected `~` or an order criterion"
  | .noOrderCriteria => "order expression has no criteria"

/-- A fault with the place it was found at. -/
structure SyntaxError where
  /-- The offending part of the text, empty at its end. -/
  fragment : String
  /-- The byte at which the fragment begins. -/
  position : Nat
  fault : SyntaxFault
  /-- Whether the text ended where something else was expected. -/
  atEnd : Bool
  deriving DecidableEq, Repr

def SyntaxError.message (e : SyntaxError) : String :=
  "syntax error at " ++ toString e.position ++ " near `" ++ e.fragment ++ "`: " ++ e.fault.message ++
    (if e.atEnd then ", got end of input" else "")

/-- Why an operand does not fit. -/
inductive OperandFault
  | emptyPath
  | arity (operator : FilterOperator) (path : String) (got : Arity)
  | literal (value : Value) (kind : ValueKind) (path : String)
  | relationLiteral (path : String) (value : Value)
  | orderAcrossMany (path : String)
  | rangeNeeded (operator : FilterOperator) (path : String) (value : Value)
  | rangeNotAllowed (low high : Value) (operator : FilterOperator) (path : String)
  deriving DecidableEq

def OperandFault.message : OperandFault → String
  | .emptyPath => "empty attribute path"
  | .arity op path got =>
    "`" ++ op.name ++ "` on `" ++ path ++ "` expects a " ++ op.arity.name ++ " operand, got " ++
      got.name
  | .literal value kind path =>
    value.toText ++ " is not a valid " ++ kind.name ++ " literal for `" ++ path ++ "`"
  | .relationLiteral path value => "relation `" ++ path ++ "` compares ids, got " ++ value.toText
  | .orderAcrossMany path =>
    "cannot order by `" ++ path ++ "`: path crosses a to-many relation"
  | .rangeNeeded op path value =>
    "`" ++ op.name ++ "` on `" ++ path ++ "` needs a `low-high` range, got " ++ value.toText
  | .rangeNotAllowed low high op path =>
    "range " ++ low.toText ++ "-" ++ high.toText ++ " is only valid with `in-range`, not `" ++
      op.name ++ "` on `" ++ path ++ "`"

/-- Why a specification has no textual form. -/
inductive TextFault
  | emptyConjunction
  | emptyDisjunction
  | rangeBounds (low high : Value)
  /-- The negated name is an operator of its own, which null does not satisfy either. -/
  | negatedOperator (operator path : String)
  | negatedWithoutValues (operator path : String)
  | negatedComposite (text : String)
  deriving DecidableEq

def TextFault.message : TextFault → String
  | .emptyConjunction => "empty conjunction"
  | .emptyDisjunction => "empty disjunction"
  | .rangeBounds low high =>
    "range bounds " ++ low.toText ++ " and " ++ high.toText ++ " are not numeric"
  | .negatedOperator op path =>
    "negated `" ++ op ++ "` on `" ++ path ++ "` differs from `not-" ++ op ++ "` on null"
  | .negatedWithoutValues op path => "negated `" ++ op ++ "` on `" ++ path ++ "` without values"
  | .negatedComposite text => "negated composite `" ++ text ++ "`"

/-- Everything that can be wrong with a query. -/
inductive QueryError
  | malformed (e : SyntaxError)
  | schema (e : SchemaError)
  /-- The operator does not apply to the kind, which for a relation is none. -/
  | operatorMismatch (path : String) (operator : FilterOperator) (kind : Option ValueKind)
  | invalidOperand (fault : OperandFault)
  | unrepresentable (fault : TextFault)
  deriving DecidableEq

/-- The name of the kind of a failure. -/
def QueryError.kind : QueryError → String
  | .malformed _ => "Syntax"
  | .schema e => "Core:" ++ e.kind
  | .operatorMismatch .. => "OperatorMismatch"
  | .invalidOperand _ => "InvalidOperand"
  | .unrepresentable _ => "Unrepresentable"

def QueryError.message : QueryError → String
  | .malformed e => e.message
  | .schema e => e.message
  | .operatorMismatch path op kind =>
    "operator `" ++ op.name ++ "` cannot be applied to `" ++ path ++ "` of kind " ++
      (kind.map ValueKind.name).getD "relation"
  | .invalidOperand fault => "invalid operand: " ++ fault.message
  | .unrepresentable fault => "specification cannot be expressed in CQL: " ++ fault.message

end EntityStore
