import EntityStore.Filter.Check
import EntityStore.Select.Basic
import EntityStore.Select.Pattern
import EntityStore.Window

/-!
# Queries from specifications

A filter becomes a condition. Where a path leaves the table of its owner, the condition asks for
a related row with a sub-select; these rows are called `s1`, `s2`, … in the order in which the
filter mentions them. An order becomes sort terms over joined rows, called `j1`, `j2`, …, one for
each distinct relation path.
-/

namespace EntityStore

/-- Whether a column passes an operator with an operand. -/
def Condition.leaf (column : Column) (operator : FilterOperator) (operand : Operand) : Condition :=
  let needle (v : Value) : String := (v.text?.map Pattern.escapeText).getD ""
  match operator, operand with
  | .equalTo, .single .null => .isNull column false
  | .notEqualTo, .single .null => .isNull column true
  | .equalTo, .single v => .compare column .eq v
  | .notEqualTo, .single v => .compare column .ne v
  | .lessThan, .single v => .compare column .lt v
  | .lessThanOrEqualTo, .single v => .compare column .le v
  | .greaterThan, .single v => .compare column .gt v
  | .greaterThanOrEqualTo, .single v => .compare column .ge v
  | .inRange, .range low high => .between column low high
  | .startsWith, .single v => .like column (needle v ++ "%") false
  | .endsWith, .single v => .like column ("%" ++ needle v) false
  | .contains, .single v => .like column ("%" ++ needle v ++ "%") false
  | .notContains, .single v => .like column ("%" ++ needle v ++ "%") true
  | .contained, .list vs =>
    match vs.filter fun v => !v.isNull with
    | [] => .bool false
    | values => .oneOf column values false
  | .notContained, .list vs =>
    match vs.filter fun v => !v.isNull with
    | [] => .isNull column true
    | values => .oneOf column values true
  | _, _ => .bool false

/-- The label of the sub-select with number `n`. -/
def subLabel (n : Nat) : String := "s" ++ toString n

/-- The condition that a path puts on the rows labelled `owner`. `used` labels have been given
out before; how many have been given out afterwards is part of the result. -/
def Condition.ofSteps (schema : Schema) (c : Criterion) (owner : String) (used : Nat) :
    List Step → Except QueryError (Condition × Nat)
  | [] => .error (.invalidOperand .emptyPath)
  | step :: rest =>
    match step.attr.kind with
    | .terminal _ => .ok (.leaf ⟨owner, step.attr.column⟩ c.operator c.operand, used)
    | .toOne _ =>
      if rest.isEmpty then .ok (.leaf ⟨owner, step.attr.column⟩ c.operator c.operand, used)
      else
        match schema.targetOf step.attr with
        | .error e => .error (.schema e)
        | .ok target =>
          let label := subLabel (used + 1)
          match Condition.ofSteps schema c label (used + 1) rest with
          | .error e => .error e
          | .ok (inner, used) =>
            .ok
              (.exists target.table label
                (.and
                  [.columnsEqual ⟨label, target.idColumn⟩ ⟨owner, step.attr.column⟩, inner]),
                used)
    | .toMany _ remote =>
      match schema.targetOf step.attr with
      | .error e => .error (.schema e)
      | .ok target =>
        let label := subLabel (used + 1)
        let tie : Condition :=
          .columnsEqual ⟨label, remote.getD step.attr.column⟩ ⟨owner, step.owner.idColumn⟩
        if rest.isEmpty then
          .ok
            (.exists target.table label
              (.and [tie, .leaf ⟨label, target.idColumn⟩ c.operator c.operand]),
              used + 1)
        else
          match Condition.ofSteps schema c label (used + 1) rest with
          | .error e => .error e
          | .ok (inner, used) => .ok (.exists target.table label (.and [tie, inner]), used)

mutual

/-- The condition of a filter on the type named `root`, and the number of labels given out. -/
def Condition.ofFilter (schema : Schema) (root : String) (used : Nat) :
    FilterSpec → Except QueryError (Condition × Nat)
  | .criterion c =>
    match c.resolve schema root with
    | .error e => .error e
    | .ok steps => Condition.ofSteps schema c rootLabel used steps
  | .conjunction children =>
    match Condition.ofFilters schema root used children with
    | .error e => .error e
    | .ok (cs, used) => .ok (.and cs, used)
  | .disjunction children =>
    match Condition.ofFilters schema root used children with
    | .error e => .error e
    | .ok (cs, used) => .ok (.or cs, used)
  | .negation child =>
    match Condition.ofFilter schema root used child with
    | .error e => .error e
    | .ok (c, used) => .ok (.not c, used)

@[inherit_doc Condition.ofFilter]
def Condition.ofFilters (schema : Schema) (root : String) (used : Nat) :
    List FilterSpec → Except QueryError (List Condition × Nat)
  | [] => .ok ([], used)
  | spec :: rest =>
    match Condition.ofFilter schema root used spec with
    | .error e => .error e
    | .ok (c, used) =>
      match Condition.ofFilters schema root used rest with
      | .error e => .error e
      | .ok (cs, used) => .ok (c :: cs, used)

end

/-! ## Orders -/

/-- Joins made so far, each with the relation path it reaches. -/
abbrev PathJoins := List (List String × Join)

/-- The label of the row a relation path leads to, and the joins with one for it. -/
def PathJoins.reach (joins : PathJoins) (schema : Schema) (path : List String) (owner : String)
    (a : Attribute) : Except QueryError (String × PathJoins) :=
  match joins.find? fun j => j.1 == path with
  | some (_, j) => .ok (j.label, joins)
  | none =>
    match schema.targetOf a with
    | .error e => .error (.schema e)
    | .ok target =>
      let label := "j" ++ toString (joins.length + 1)
      let on : Condition := .columnsEqual ⟨label, target.idColumn⟩ ⟨owner, a.column⟩
      .ok (label, joins ++ [(path, ⟨target.table, label, on⟩)])

/-- The column at the end of a path; `path` has been followed already, to the row `owner`. -/
def sortColumn (schema : Schema) (joins : PathJoins) (path : List String) (owner : String) :
    List Step → Except QueryError (Column × PathJoins)
  | [] => .error (.invalidOperand .emptyPath)
  | step :: rest =>
    if rest.isEmpty then .ok (⟨owner, step.attr.column⟩, joins)
    else
      match joins.reach schema (path ++ [step.attr.name]) owner step.attr with
      | .error e => .error e
      | .ok (label, joins) => sortColumn schema joins (path ++ [step.attr.name]) label rest

mutual

/-- The sort terms of an order on the type named `root`, and the joins they need. -/
def SortTerm.ofOrder (schema : Schema) (root : String) (joins : PathJoins) :
    OrderSpec → Except QueryError (List SortTerm × PathJoins)
  | .key k =>
    match k.resolve schema root with
    | .error e => .error e
    | .ok steps =>
      match sortColumn schema joins [] rootLabel steps with
      | .error e => .error e
      | .ok (column, joins) => .ok ([⟨column, k.direction⟩], joins)
  | .conjunction children => SortTerm.ofOrders schema root joins children

@[inherit_doc SortTerm.ofOrder]
def SortTerm.ofOrders (schema : Schema) (root : String) (joins : PathJoins) :
    List OrderSpec → Except QueryError (List SortTerm × PathJoins)
  | [] => .ok ([], joins)
  | spec :: rest =>
    match SortTerm.ofOrder schema root joins spec with
    | .error e => .error e
    | .ok (terms, joins) =>
      match SortTerm.ofOrders schema root joins rest with
      | .error e => .error e
      | .ok (others, joins) => .ok (terms ++ others, joins)

end

/-! ## Whole queries -/

/-- The condition of an optional filter. -/
def Condition.ofFilter? (schema : Schema) (root : String) :
    Option FilterSpec → Except QueryError (Option Condition)
  | none => .ok none
  | some spec =>
    match Condition.ofFilter schema root 0 spec with
    | .error e => .error e
    | .ok (c, _) => .ok (some c)

/-- The sort terms and joins of an optional order. -/
def SortTerm.ofOrder? (schema : Schema) (root : String) :
    Option OrderSpec → Except QueryError (List SortTerm × List Join)
  | none => .ok ([], [])
  | some spec =>
    match SortTerm.ofOrder schema root [] spec with
    | .error e => .error e
    | .ok (terms, joins) => .ok (terms, joins.map (·.2))

/-- The query for entities of the type named `root`. -/
def Select.ofSpecs (schema : Schema) (root : String) (filter : Option FilterSpec)
    (order : Option OrderSpec) (window : Option Window) : Except QueryError Select :=
  match schema.require root with
  | .error e => .error (.schema e)
  | .ok type =>
    match Condition.ofFilter? schema root filter with
    | .error e => .error e
    | .ok condition =>
      match SortTerm.ofOrder? schema root order with
      | .error e => .error e
      | .ok (terms, joins) =>
        .ok
          { table := type.table
            label := rootLabel
            joins
            filter := condition
            orderBy := terms
            offset := window.map (·.offset)
            limit := window.map (·.limit) }

end EntityStore
