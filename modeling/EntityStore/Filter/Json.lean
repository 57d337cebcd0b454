import EntityStore.Filter.Basic
import EntityStore.Order.Basic
import EntityStore.Value.Json
import EntityStore.Json.Reader

/-!
# Specifications in JSON

A tree is written with each node under the name of its kind. An operand is tagged with its
shape. Reading checks the shape of the document, and not whether an operand fits its operator.
-/

namespace EntityStore

open Json (Written)

/-! ## Filters -/

def Operand.shapes : List String := ["single", "range", "list"]

def Operand.toJson : Operand → Json
  | .single v => .object [("shape", .text "single"), ("values", v.toJson)]
  | .range low high =>
    .object [("shape", .text "range"), ("values", .array [low.toJson, high.toJson])]
  | .list vs => .object [("shape", .text "list"), ("values", .array (vs.map Value.toJson))]

/-- The content of an operand of a shape, `depth` levels of nesting being allowed. -/
def Operand.ofContent? (buffered : Bool) (depth : Nat) (shape : String) (content : Written) :
    Option Operand :=
  match shape, content with
  | "single", w => (Value.ofWritten? buffered depth w).map .single
  | "range", .array [low, high] =>
    match depth with
    | 0 => none
    | depth + 1 => do
      let low ← Value.ofWritten? buffered depth low
      let high ← Value.ofWritten? buffered depth high
      some (.range low high)
  | "list", .array items =>
    match depth with
    | 0 => none
    | depth + 1 => (items.mapM (Value.ofWritten? buffered depth)).map .list
  | _, _ => none

def Operand.ofWritten? (depth : Nat) (w : Written) : Option Operand :=
  match depth with
  | 0 => none
  | depth + 1 => do
    let t ← w.tagged? false depth "shape" "values" Operand.shapes
    Operand.ofContent? t.buffered depth t.tag (← t.content)

/-- The operators in the order they are numbered. -/
def FilterOperator.names : List String := FilterOperator.all.map FilterOperator.name

def FilterOperator.ofWritten? (depth : Nat) (w : Written) : Option FilterOperator :=
  (w.choice? false depth FilterOperator.names).bind FilterOperator.ofName?

def ValueKind.ofWritten? (depth : Nat) (w : Written) : Option ValueKind :=
  (w.choice? false depth (ValueKind.all.map ValueKind.name)).bind ValueKind.ofName?

def Direction.ofWritten? (depth : Nat) (w : Written) : Option Direction :=
  (w.choice? false depth ["asc", "desc"]).bind Direction.ofName?

def Criterion.toJson (c : Criterion) : Json :=
  .object
    [("path", .text c.path), ("operator", .text c.operator.name), ("operand", c.operand.toJson)]

def Criterion.ofWritten? (depth : Nat) (w : Written) : Option Criterion :=
  match depth with
  | 0 => none
  | depth + 1 => do
    match ← w.fields? ["path", "operator", "operand"] with
    | [some path, some operator, some operand] =>
      let path ← path.string?
      let operator ← FilterOperator.ofWritten? depth operator
      let operand ← Operand.ofWritten? depth operand
      some ⟨path, operator, operand⟩
    | _ => none

mutual

/-- A filter as nested objects. -/
def FilterSpec.toJson : FilterSpec → Json
  | .criterion c => .object [("nullary", c.toJson)]
  | .conjunction children => .object [("conjunction", .array (FilterSpec.toJsons children))]
  | .disjunction children => .object [("disjunction", .array (FilterSpec.toJsons children))]
  | .negation child => .object [("negation", child.toJson)]

@[inherit_doc FilterSpec.toJson]
def FilterSpec.toJsons : List FilterSpec → List Json
  | [] => []
  | spec :: rest => spec.toJson :: FilterSpec.toJsons rest

end

mutual

/-- Read a filter, `depth` levels of nesting being allowed. -/
def FilterSpec.ofWritten? (depth : Nat) : Written → Option FilterSpec
  | .object [(name, content)] =>
    match depth with
    | 0 => none
    | depth + 1 =>
      match Json.decodeText? name with
      | some "nullary" => (Criterion.ofWritten? depth content).map .criterion
      | some "negation" => (FilterSpec.ofWritten? depth content).map .negation
      | some "conjunction" => (FilterSpec.childrenOfWritten? depth content).map .conjunction
      | some "disjunction" => (FilterSpec.childrenOfWritten? depth content).map .disjunction
      | _ => none
  | _ => none

@[inherit_doc FilterSpec.ofWritten?]
def FilterSpec.childrenOfWritten? (depth : Nat) : Written → Option (List FilterSpec)
  | .array items =>
    match depth with
    | 0 => none
    | depth + 1 => FilterSpec.listOfWritten? depth items
  | _ => none

@[inherit_doc FilterSpec.ofWritten?]
def FilterSpec.listOfWritten? (depth : Nat) : List Written → Option (List FilterSpec)
  | [] => some []
  | w :: rest => do
    let spec ← FilterSpec.ofWritten? depth w
    let specs ← FilterSpec.listOfWritten? depth rest
    some (spec :: specs)

end

/-! ## Orders -/

def OrderKey.toJson (k : OrderKey) : Json :=
  .object [("path", .text k.path), ("direction", .text k.direction.name)]

def OrderKey.ofWritten? (depth : Nat) (w : Written) : Option OrderKey :=
  match depth with
  | 0 => none
  | depth + 1 => do
    match ← w.fields? ["path", "direction"] with
    | [some path, some direction] =>
      let path ← path.string?
      let direction ← Direction.ofWritten? depth direction
      some ⟨path, direction⟩
    | _ => none

mutual

/-- An order as nested objects. -/
def OrderSpec.toJson : OrderSpec → Json
  | .key k => .object [("nullary", k.toJson)]
  | .conjunction children => .object [("conjunction", .array (OrderSpec.toJsons children))]

@[inherit_doc OrderSpec.toJson]
def OrderSpec.toJsons : List OrderSpec → List Json
  | [] => []
  | spec :: rest => spec.toJson :: OrderSpec.toJsons rest

end

mutual

/-- Read an order, `depth` levels of nesting being allowed. -/
def OrderSpec.ofWritten? (depth : Nat) : Written → Option OrderSpec
  | .object [(name, content)] =>
    match depth with
    | 0 => none
    | depth + 1 =>
      match Json.decodeText? name with
      | some "nullary" => (OrderKey.ofWritten? depth content).map .key
      | some "conjunction" => (OrderSpec.childrenOfWritten? depth content).map .conjunction
      | _ => none
  | _ => none

@[inherit_doc OrderSpec.ofWritten?]
def OrderSpec.childrenOfWritten? (depth : Nat) : Written → Option (List OrderSpec)
  | .array items =>
    match depth with
    | 0 => none
    | depth + 1 => OrderSpec.listOfWritten? depth items
  | _ => none

@[inherit_doc OrderSpec.ofWritten?]
def OrderSpec.listOfWritten? (depth : Nat) : List Written → Option (List OrderSpec)
  | [] => some []
  | w :: rest => do
    let spec ← OrderSpec.ofWritten? depth w
    let specs ← OrderSpec.listOfWritten? depth rest
    some (spec :: specs)

end

/-! ## Whole documents -/

/-- Read a document with a typed reader that is told how deep it may nest. -/
def Json.decode? (read : Nat → Written → Option α) (text : String) : Option α :=
  (Written.ofText? text.toList).bind (read Json.depthLimit)

end EntityStore
