import EntityStore.Select.Basic
import EntityStore.Text.Integer

/-!
# Queries as SQL text

A query is written as a list of pieces, text and slots. Literals go into slots only, and never
into text; the text of the statement numbers the slots from left to right and the parameters are
their values in that order.
-/

namespace EntityStore

/-- A piece of a statement: its text, or the place of a parameter. -/
inductive Piece
  | text (s : String)
  | slot (v : Value)
  deriving DecidableEq

/-- A statement with its parameters. -/
structure Statement where
  sql : String
  params : List Value
  deriving DecidableEq

namespace Statement

/-- The text of pieces whose slots are numbered on from `n`. -/
def numbered (n : Nat) : List Piece → String
  | [] => ""
  | .text s :: rest => s ++ numbered n rest
  | .slot _ :: rest => "$" ++ toString (n + 1) ++ numbered (n + 1) rest

def slotValues (pieces : List Piece) : List Value :=
  pieces.filterMap fun
    | .slot v => some v
    | .text _ => none

def ofPieces (pieces : List Piece) : Statement := ⟨numbered 0 pieces, slotValues pieces⟩

end Statement

/-- An identifier in double quotes, a quote inside it doubled. -/
def quoteIdentifier (s : String) : String :=
  "\"" ++ String.ofList (s.toList.flatMap fun c => if c = '"' then ['"', '"'] else [c]) ++ "\""

def Comparison.symbol : Comparison → String
  | .eq => "="
  | .ne => "<>"
  | .lt => "<"
  | .le => "<="
  | .gt => ">"
  | .ge => ">="

def Column.text (c : Column) : String := c.label ++ "." ++ quoteIdentifier c.name

/-- Slots with commas between them. -/
def slotList : List Value → List Piece
  | [] => []
  | [v] => [.slot v]
  | v :: rest => .slot v :: .text ", " :: slotList rest

namespace Condition

mutual

/-- The pieces of a condition. -/
def pieces : Condition → List Piece
  | .bool b => [.text (if b then "TRUE" else "FALSE")]
  | .compare column op value => [.text (column.text ++ " " ++ op.symbol ++ " "), .slot value]
  | .columnsEqual left right => [.text (left.text ++ " = " ++ right.text)]
  | .isNull column negated =>
    [.text (column.text ++ (if negated then " IS NOT NULL" else " IS NULL"))]
  | .like column pattern negated =>
    [ .text (column.text ++ (if negated then " NOT LIKE " else " LIKE ")),
      .slot (.string pattern), .text " ESCAPE '\\'" ]
  | .oneOf column values negated =>
    .text (column.text ++ (if negated then " NOT IN (" else " IN (")) :: slotList values ++
      [.text ")"]
  | .between column low high =>
    [.text (column.text ++ " BETWEEN "), .slot low, .text " AND ", .slot high]
  | .and children => group " AND " "TRUE" children
  | .or children => group " OR " "FALSE" children
  | .not child => .text "NOT COALESCE(" :: pieces child ++ [.text ", FALSE)"]
  | .exists table label condition =>
    .text ("EXISTS (SELECT 1 FROM " ++ quoteIdentifier table ++ " AS " ++ label ++ " WHERE ") ::
      pieces condition ++ [.text ")"]

/-- Conditions in parentheses with a connective between them, or a constant when there are
none. -/
def group (connective constant : String) : List Condition → List Piece
  | [] => [.text constant]
  | first :: rest => .text "(" :: pieces first ++ groupRest connective rest

@[inherit_doc group]
def groupRest (connective : String) : List Condition → List Piece
  | [] => [.text ")"]
  | next :: rest => .text connective :: pieces next ++ groupRest connective rest

end

end Condition

namespace Select

def joinPieces (j : Join) : List Piece :=
  .text (" LEFT JOIN " ++ quoteIdentifier j.table ++ " AS " ++ j.label ++ " ON ") :: j.on.pieces

def filterPieces (q : Select) : List Piece :=
  match q.filter with
  | some condition => .text " WHERE " :: condition.pieces
  | none => []

/-- Null sorts before every value, in either direction's own sense. -/
def sortTermText (t : SortTerm) : String :=
  t.column.text ++
    (match t.direction with
      | .asc => " ASC NULLS FIRST"
      | .desc => " DESC NULLS LAST")

def orderText (q : Select) : String :=
  if q.orderBy.isEmpty then "" else " ORDER BY " ++ ", ".intercalate (q.orderBy.map sortTermText)

def windowText (q : Select) : String :=
  (match q.limit with
    | some n => " LIMIT " ++ toString n
    | none => "") ++
  (match q.offset with
    | some n => " OFFSET " ++ toString n
    | none => "")

def source (q : Select) : String := " FROM " ++ quoteIdentifier q.table ++ " AS " ++ q.label

/-- The statement that selects the rows. -/
def render (q : Select) : Statement :=
  .ofPieces
    (.text ("SELECT " ++ q.label ++ ".*" ++ q.source) :: q.joins.flatMap joinPieces ++
      q.filterPieces ++ [.text (q.orderText ++ q.windowText)])

/-- The statement that counts the rows which pass the filter, whatever order and window are. -/
def renderCount (q : Select) : Statement :=
  .ofPieces (.text ("SELECT COUNT(*)" ++ q.source) :: q.filterPieces)

end Select

end EntityStore
