import EntityStore.Filter.Basic
import EntityStore.Order.Basic
import EntityStore.Schema.Path

/-!
# Checking specifications against a schema

A criterion is resolved once, before any backend builds anything from it: its path has to lead to
an attribute, its operator has to suit what the path ends in, and its literals have to be
comparable with it. Both backends start from the steps this gives, so a bad query fails the same
way everywhere.
-/

namespace EntityStore

/-- The steps of a path, as a query error when it does not resolve. -/
def Schema.resolve (schema : Schema) (root path : String) : Except QueryError (List Step) :=
  match schema.inspect root path with
  | .ok steps => .ok steps
  | .error e => .error (.schema e)

namespace Criterion

/-- The operator suits a terminal of the given kind. -/
def checkKind (c : Criterion) (kind : ValueKind) : Except QueryError Unit :=
  if c.operator.isOrdering && !kind.isOrdered then
    .error (.operatorMismatch c.path c.operator (some kind))
  else if c.operator.isTextual && !kind.isTextual then
    .error (.operatorMismatch c.path c.operator (some kind))
  else .ok ()

/-- The literals are comparable with a terminal of the given kind. -/
def checkLiterals (c : Criterion) (kind : ValueKind) : Except QueryError Unit :=
  match c.operand.values.find? fun v => !kind.accepts v with
  | some v => .error (.invalidOperand (.literal v kind c.path))
  | none => .ok ()

/-- A literal that can be compared with the id of a related entity. -/
def isIdLiteral (v : Value) : Bool :=
  match v with
  | .int _ => true
  | .null => true
  | _ => false

/-- The criterion compares a relation by identity, with ids. -/
def checkRelation (c : Criterion) : Except QueryError Unit :=
  if !c.operator.isIdentity then .error (.operatorMismatch c.path c.operator none)
  else
    match c.operand.values.find? fun v => !isIdLiteral v with
    | some v => .error (.invalidOperand (.relationLiteral c.path v))
    | none => .ok ()

/-- The criterion suits the attribute its path ends in. -/
def checkLast (c : Criterion) (last : Attribute) : Except QueryError Unit :=
  match last.kind with
  | .terminal none => .ok ()
  | .terminal (some kind) =>
    match c.checkKind kind with
    | .error e => .error e
    | .ok () => c.checkLiterals kind
  | _ => c.checkRelation

/-- Resolve a criterion on the type named `root`. -/
def resolve (schema : Schema) (root : String) (c : Criterion) : Except QueryError (List Step) :=
  match schema.resolve root c.path with
  | .error e => .error e
  | .ok steps =>
    match steps.getLast? with
    | none => .error (.invalidOperand .emptyPath)
    | some last =>
      match c.checkLast last.attr with
      | .error e => .error e
      | .ok () => .ok steps

end Criterion

/-- Resolve a sort key. A path that crosses a to-many relation has no single key. -/
def OrderKey.resolve (schema : Schema) (root : String) (k : OrderKey) :
    Except QueryError (List Step) :=
  match schema.resolve root k.path with
  | .error e => .error e
  | .ok steps =>
    if steps.any fun s => s.attr.isToMany then
      .error (.invalidOperand (.orderAcrossMany k.path))
    else .ok steps

end EntityStore
