import EntityStore.Value.Basic
import EntityStore.Json.Typed
import EntityStore.Timestamp.Reader
import EntityStore.Timestamp.Printer

/-!
# Values in JSON

A value is tagged with the name of its kind: `type` holds the name and `value` the content,
which null goes without.
-/

namespace EntityStore.Value

/-- A value under the names `type` and `value`. -/
def tagged (kind : String) (content : Json) : Json :=
  .object [("type", .text kind), ("value", content)]

def toJson : Value → Json
  | .null => .object [("type", .text "null")]
  | .bool b => tagged "bool" (.bool b)
  | .int i => tagged "int" (.int i.toInt)
  | .float x => tagged "float" (.float x)
  | .string s => tagged "string" (.text s)
  | .timestamp t => tagged "timestamp" (.text t.toZuluText)
  | .url s => tagged "url" (.text s)

/-- The tags, in the order they are numbered. -/
def tags : List String := ["null", "bool", "int", "float", "string", "timestamp", "url"]

/-- A value of the kind a tag names. -/
def ofContent? (tag : String) (content : Option Json.Written) : Option Value :=
  match tag, content with
  | "null", none => some .null
  | "null", some .null => some .null
  | "bool", some w => w.bool?.map .bool
  | "int", some w => w.int64?.map .int
  | "float", some w => w.float?.map .float
  | "string", some w => w.string?.map .string
  | "timestamp", some w =>
    w.string?.bind fun s => (Timestamp.readRelaxed? s.toList).map .timestamp
  | "url", some w => w.string?.map .url
  | _, _ => none

/-- Read a tagged value, `depth` levels of nesting being allowed. -/
def ofWritten? (buffered : Bool) (depth : Nat) (w : Json.Written) : Option Value :=
  match depth with
  | 0 => none
  | depth + 1 => do
    let t ← w.tagged? buffered depth "type" "value" tags
    ofContent? t.tag t.content

end EntityStore.Value
