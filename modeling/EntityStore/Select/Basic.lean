import EntityStore.Order.Basic
import EntityStore.Value.Basic

/-!
# Queries over tables

The relational form of a query: a condition on the rows of one table, joins that reach related
rows for sorting, sort terms and a window. Conditions are three-valued, as in SQL: comparing
with null is neither true nor false. The one exception is negation, which takes unknown for
false, because a filter's negation does.
-/

namespace EntityStore

/-- A column of the row a label stands for. -/
structure Column where
  label : String
  name : String
  deriving DecidableEq, Repr

inductive Comparison
  | eq
  | ne
  | lt
  | le
  | gt
  | ge
  deriving DecidableEq, Repr

/-- A condition on rows. -/
inductive Condition
  | bool (b : Bool)
  | compare (column : Column) (op : Comparison) (value : Value)
  /-- Two columns are equal; this ties a related row to the row it is related to. -/
  | columnsEqual (left right : Column)
  | isNull (column : Column) (negated : Bool)
  /-- The text matches a pattern in which a backslash escapes. -/
  | like (column : Column) (pattern : String) (negated : Bool)
  | oneOf (column : Column) (values : List Value) (negated : Bool)
  /-- Both bounds are included. -/
  | between (column : Column) (low high : Value)
  | and (children : List Condition)
  | or (children : List Condition)
  /-- Unknown counts as false before it is negated. -/
  | not (child : Condition)
  /-- Some row of a table, under a label, satisfies a condition. -/
  | exists (table label : String) (condition : Condition)
  deriving Inhabited

/-- A row of another table that may be missing. -/
structure Join where
  table : String
  label : String
  on : Condition

structure SortTerm where
  column : Column
  direction : Direction
  deriving DecidableEq, Repr

/-- A query over the rows of one table. -/
structure Select where
  table : String
  label : String
  joins : List Join
  filter : Option Condition
  orderBy : List SortTerm
  offset : Option Nat
  limit : Option Nat

/-- The label of the queried table. -/
def rootLabel : String := "t0"

end EntityStore
