import EntityStore.Json.Basic
import EntityStore.Binary64.Text

/-!
# Writing JSON

The compact form: no space anywhere, members in the order they are in. Only quotes, backslashes
and the characters below the space are escaped. A number without a value is written `null`.
-/

namespace EntityStore.Json

/-- A control character by its number. -/
def unitEscape (c : Char) : List Char :=
  let hex (n : Nat) : Char := if n < 10 then Char.ofNat (48 + n) else Char.ofNat (87 + n)
  ['\\', 'u', '0', '0', hex (c.toNat / 16), hex (c.toNat % 16)]

def escapeChar (c : Char) : List Char :=
  match c with
  | '"' => ['\\', '"']
  | '\\' => ['\\', '\\']
  | '\n' => ['\\', 'n']
  | '\r' => ['\\', 'r']
  | '\t' => ['\\', 't']
  | '\x08' => ['\\', 'b']
  | '\x0c' => ['\\', 'f']
  | c => if c.toNat < 0x20 then unitEscape c else [c]

def quote (s : String) : String :=
  "\"" ++ String.ofList (s.toList.flatMap escapeChar) ++ "\""

def writeFloat (x : Binary64) : String :=
  if x.isFinite then String.ofList (Binary64.rowLayout.writeFinite x) else "null"

mutual

/-- The compact text of a value. -/
def write : Json → String
  | .null => "null"
  | .bool b => if b then "true" else "false"
  | .int i => Text.writeInt i
  | .float x => writeFloat x
  | .text s => quote s
  | .array items => "[" ++ writeItems items ++ "]"
  | .object members => "\x7b" ++ writeMembers members ++ "\x7d"

/-- The items of an array with commas between them. -/
def writeItems : List Json → String
  | [] => ""
  | [item] => write item
  | item :: rest => write item ++ "," ++ writeItems rest

/-- The members of an object with commas between them. -/
def writeMembers : List (String × Json) → String
  | [] => ""
  | [(name, value)] => quote name ++ ":" ++ write value
  | (name, value) :: rest => quote name ++ ":" ++ write value ++ "," ++ writeMembers rest

end

end EntityStore.Json
