import EntityStore.Value.Basic
import EntityStore.Binary64.Text
import EntityStore.Text.Integer
import EntityStore.Timestamp.Printer

/-!
# Values as literals

The form a value has in query text and in messages. A float keeps a point or an exponent so that
it reads back as a float; a text stands in double quotes, in which a quote and a backslash are
escaped by a backslash.
-/

namespace EntityStore.Value

/-- A character inside double quotes. -/
def escapeQuoted (c : Char) : List Char := if c = '"' ∨ c = '\\' then ['\\', c] else [c]

def quoted (s : String) : String :=
  "\"" ++ String.ofList (s.toList.flatMap escapeQuoted) ++ "\""

/-- The literal form of a value. -/
def toText : Value → String
  | .null => "null"
  | .bool b => if b then "true" else "false"
  | .int i => Text.writeInt64 i
  | .float x => x.toText
  | .string s => quoted s
  | .url s => quoted s
  | .timestamp t => "\"" ++ t.toText ++ "\""

end EntityStore.Value
