import EntityStore.Entity.Basic
import EntityStore.Filter.Check
import EntityStore.Text.Blank

/-!
# Filters in process

A checked filter becomes a predicate on entities. A path is followed through the relations, and
where it crosses a to-many relation one related entity that passes is enough. A relation at the
end of a path stands for the id of what it relates to.

Null satisfies `equal-to null` and nothing else; the negative operators fail on it too. Only a
negation turns that around.
-/

namespace EntityStore

namespace Value

/-- The order of two values lies in a list of outcomes. -/
def comparesAs (outcomes : List Ordering) (a b : Value) : Bool :=
  match a.compare? b with
  | some o => outcomes.contains o
  | none => false

/-- A test on the characters of two texts. -/
def textTest (test : List Char → List Char → Bool) (x needle : Value) : Bool :=
  match x.text?, needle.text? with
  | some x, some needle => test x.toList needle.toList
  | _, _ => false

end Value

/-- Whether a value passes an operator with an operand. -/
def FilterOperator.test (operator : FilterOperator) (operand : Operand) (x : Value) : Bool :=
  match operator, operand with
  | .equalTo, .single .null => x.isNull
  | .notEqualTo, .single .null => !x.isNull
  | .equalTo, .single v => x.agrees v
  | .notEqualTo, .single v => !x.isNull && !x.agrees v
  | .lessThan, .single v => x.comparesAs [.lt] v
  | .lessThanOrEqualTo, .single v => x.comparesAs [.lt, .eq] v
  | .greaterThan, .single v => x.comparesAs [.gt] v
  | .greaterThanOrEqualTo, .single v => x.comparesAs [.gt, .eq] v
  | .inRange, .range low high => x.comparesAs [.gt, .eq] low && x.comparesAs [.lt, .eq] high
  | .startsWith, .single v => x.textTest (fun x needle => needle.isPrefixOf x) v
  | .endsWith, .single v => x.textTest (fun x needle => needle.isSuffixOf x) v
  | .contains, .single v => x.textTest (fun x needle => Text.occursIn needle x) v
  | .notContains, .single v => x.textTest (fun x needle => !Text.occursIn needle x) v
  | .contained, .list vs => vs.any fun v => x.agrees v
  | .notContained, .list vs => !x.isNull && !vs.any fun v => x.agrees v
  | _, _ => false

/-- Whether a value at the end of the path passes the test. -/
def Pool.anyValue (pool : Pool) (test : Value → Bool) : List String → Handle → Bool
  | [], _ => false
  | name :: rest, h =>
    match (pool.entity h).field? name with
    | none => false
    | some (.value v) => rest.isEmpty && test v
    | some (.one none) => rest.isEmpty && test .null
    | some (.one (some related)) =>
      if rest.isEmpty then test (pool.idValue related) else pool.anyValue test rest related
    | some (.many related) =>
      related.any fun r =>
        if rest.isEmpty then test (pool.idValue r) else pool.anyValue test rest r

/-- A checked filter. -/
inductive Predicate
  | test (path : List String) (operator : FilterOperator) (operand : Operand)
  | all (children : List Predicate)
  | any (children : List Predicate)
  | not (child : Predicate)
  deriving Inhabited

namespace Predicate

mutual

/-- Whether an entity passes. -/
def holds (pool : Pool) (h : Handle) : Predicate → Bool
  | .test path operator operand => pool.anyValue (operator.test operand) path h
  | .all children => allHold pool h children
  | .any children => anyHolds pool h children
  | .not child => !holds pool h child

@[inherit_doc holds]
def allHold (pool : Pool) (h : Handle) : List Predicate → Bool
  | [] => true
  | p :: rest => holds pool h p && allHold pool h rest

@[inherit_doc holds]
def anyHolds (pool : Pool) (h : Handle) : List Predicate → Bool
  | [] => false
  | p :: rest => holds pool h p || anyHolds pool h rest

end

end Predicate

mutual

/-- Check a filter on the type named `root`. Of several faults the leftmost is reported. -/
def FilterSpec.compile (schema : Schema) (root : String) :
    FilterSpec → Except QueryError Predicate
  | .criterion c =>
    match c.resolve schema root with
    | .error e => .error e
    | .ok steps => .ok (.test (steps.map fun s => s.attr.name) c.operator c.operand)
  | .conjunction children =>
    match FilterSpec.compileAll schema root children with
    | .error e => .error e
    | .ok ps => .ok (.all ps)
  | .disjunction children =>
    match FilterSpec.compileAll schema root children with
    | .error e => .error e
    | .ok ps => .ok (.any ps)
  | .negation child =>
    match FilterSpec.compile schema root child with
    | .error e => .error e
    | .ok p => .ok (.not p)

@[inherit_doc FilterSpec.compile]
def FilterSpec.compileAll (schema : Schema) (root : String) :
    List FilterSpec → Except QueryError (List Predicate)
  | [] => .ok []
  | spec :: rest =>
    match FilterSpec.compile schema root spec with
    | .error e => .error e
    | .ok p =>
      match FilterSpec.compileAll schema root rest with
      | .error e => .error e
      | .ok ps => .ok (p :: ps)

end

end EntityStore
