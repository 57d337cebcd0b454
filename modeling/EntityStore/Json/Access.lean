import EntityStore.Json.Basic

/-!
# Access to JSON values

What a value is, if it is what one takes it for.
-/

namespace EntityStore.Json

def text? : Json → Option String
  | .text s => some s
  | _ => none

def bool? : Json → Option Bool
  | .bool b => some b
  | _ => none

def int? : Json → Option Int
  | .int i => some i
  | _ => none

/-- An integer within 64 bits. -/
def int64? : Json → Option Int64
  | .int i => if Text.inInt64 i then some (Int64.ofInt i) else none
  | _ => none

/-- Any number, as a float. -/
def float? : Json → Option Binary64
  | .int i => some (Binary64.ofInt i)
  | .float x => some x
  | _ => none

def items? : Json → Option (List Json)
  | .array items => some items
  | _ => none

def members? : Json → Option (List (String × Json))
  | .object members => some members
  | _ => none

/-- A member of an object. -/
def member? (j : Json) (name : String) : Option Json :=
  j.members?.bind fun members => (members.find? fun m => m.1 == name).map (·.2)

end EntityStore.Json
