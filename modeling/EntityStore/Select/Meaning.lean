import EntityStore.Select.Basic
import EntityStore.Select.Pattern
import EntityStore.Sorting

/-!
# What a query selects

The reference meaning of a query over tables of rows. A condition is true, false or unknown in
an environment that maps labels to rows; comparing with null, or values that do not compare, is
unknown. A join takes the first row that satisfies its condition, and none is no reason to drop
the row it is joined to: its columns then read as null.
-/

namespace EntityStore

/-- A row: its columns with their values. -/
abbrev Row := List (String × Value)

/-- The rows of each table, in order. -/
abbrev Tables := String → List Row

/-- The rows labels stand for, the innermost first. -/
abbrev RowEnv := List (String × Row)

/-- The value of a column; what is not there is null. -/
def Row.value (r : Row) (column : String) : Value :=
  ((r.find? fun cell => cell.1 == column).map (·.2)).getD .null

def RowEnv.value (env : RowEnv) (c : Column) : Value :=
  match env.find? fun entry => entry.1 == c.label with
  | some (_, row) => row.value c.name
  | none => .null

/-- Whether an outcome is what a comparison asks for. -/
def Comparison.admits : Comparison → Ordering → Bool
  | .eq, o => o == .eq
  | .ne, o => o != .eq
  | .lt, o => o == .lt
  | .le, o => o != .gt
  | .gt, o => o == .gt
  | .ge, o => o != .lt

/-- Three-valued conjunction: false outweighs unknown. -/
def kleeneAnd : List (Option Bool) → Option Bool
  | [] => some true
  | x :: rest =>
    match x, kleeneAnd rest with
    | some false, _ => some false
    | _, some false => some false
    | some true, r => r
    | none, _ => none

/-- Three-valued disjunction: true outweighs unknown. -/
def kleeneOr : List (Option Bool) → Option Bool
  | [] => some false
  | x :: rest =>
    match x, kleeneOr rest with
    | some true, _ => some true
    | _, some true => some true
    | some false, r => r
    | none, _ => none

namespace Condition

mutual

/-- The truth of a condition, none where it is unknown. -/
def truth (tables : Tables) (env : RowEnv) : Condition → Option Bool
  | .bool b => some b
  | .compare column op value => ((env.value column).compare? value).map op.admits
  | .columnsEqual left right =>
    ((env.value left).compare? (env.value right)).map fun o => o == .eq
  | .isNull column negated => some ((env.value column).isNull != negated)
  | .like column pattern negated =>
    (env.value column).text?.map fun s =>
      Pattern.accepts pattern.toList s.toList != negated
  | .oneOf column values negated =>
    let v := env.value column
    if v.isNull then none else some ((values.any fun w => v.agrees w) != negated)
  | .between column low high =>
    let v := env.value column
    match v.compare? low, v.compare? high with
    | some l, some h => some (l != .lt && h != .gt)
    | _, _ => none
  | .and children => kleeneAnd (truths tables env children)
  | .or children => kleeneOr (truths tables env children)
  | .not child => some (!(truth tables env child).getD false)
  | .exists table label condition =>
    some ((tables table).any fun row => truth tables ((label, row) :: env) condition == some true)

@[inherit_doc truth]
def truths (tables : Tables) (env : RowEnv) : List Condition → List (Option Bool)
  | [] => []
  | c :: rest => truth tables env c :: truths tables env rest

end

/-- A row is selected only where the condition is true. -/
def isTrue (tables : Tables) (env : RowEnv) (c : Condition) : Bool :=
  c.truth tables env == some true

end Condition

namespace Select

/-- The environment with the joined rows, as far as there are any. -/
def withJoins (tables : Tables) (env : RowEnv) : List Join → RowEnv
  | [] => env
  | j :: rest =>
    match (tables j.table).find? fun row => j.on.isTrue tables ((j.label, row) :: env) with
    | some row => withJoins tables ((j.label, row) :: env) rest
    | none => withJoins tables env rest

/-- The comparison of joined rows by sort terms. -/
def compareBy (a b : RowEnv) : List SortTerm → Ordering
  | [] => .eq
  | t :: rest =>
    (t.direction.apply ((a.value t.column).sortCompare (b.value t.column))).then
      (compareBy a b rest)

/-- The rows that pass the filter, with their joined rows, in the order of the table. -/
def matching (q : Select) (tables : Tables) : List (Row × RowEnv) :=
  ((tables q.table).filter fun row =>
      match q.filter with
      | some c => c.isTrue tables [(q.label, row)]
      | none => true).map
    fun row => (row, withJoins tables [(q.label, row)] q.joins)

/-- The selected rows. -/
def run (q : Select) (tables : Tables) : List Row :=
  let sorted := Sorting.sort (fun a b => compareBy a.2 b.2 q.orderBy) (q.matching tables)
  let rest := sorted.drop (q.offset.getD 0)
  let window := match q.limit with
    | some n => rest.take n
    | none => rest
  window.map Prod.fst

/-- How many rows pass the filter. -/
def runCount (q : Select) (tables : Tables) : Nat := (q.matching tables).length

end Select

end EntityStore
