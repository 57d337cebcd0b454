import EntityStore.Json.Basic

/-!
# Typed readers over JSON as written

A record is an object of named fields or an array of the same fields in order; members it does
not know are skipped unread, and a field given twice is refused. A choice is a name, or an
object that maps the name to null. A tagged value holds a choice, its tag, and its content under
two names, in either order, or is an array of the two in which the tag is a plain name.

Content that comes before its tag has to be taken in whole before it can be understood, so there
even the parts that are skipped have to make sense. What was taken in whole is read with less
care: an empty object passes for null, and the plain name in an array may be given by its number.
-/

namespace EntityStore.Json.Written

def string? : Written → Option String
  | .text s => decodeText? s
  | _ => none

def bool? : Written → Option Bool
  | .bool b => some b
  | _ => none

def number? : Written → Option Json
  | .number n => n.toJson?
  | _ => none

/-- A whole number within 64 bits. One written with a point or an exponent is not whole. -/
def int64? (w : Written) : Option Int64 :=
  match w.number? with
  | some (.int i) => if Text.inInt64 i then some (Int64.ofInt i) else none
  | _ => none

/-- Any number, as a float. -/
def float? (w : Written) : Option Binary64 :=
  match w.number? with
  | some (.int i) => some (Binary64.ofInt i)
  | some (.float x) => some x
  | _ => none

/-- The members of an object with their names decoded. -/
def decodeNames? : List (List Piece × Written) → Option (List (String × Written))
  | [] => some []
  | (name, w) :: rest => do
    let name ← decodeText? name
    let rest ← decodeNames? rest
    some ((name, w) :: rest)

/-- The only member of that name, if there is one; two are refused. -/
def onlyMember? (name : String) (members : List (String × Written)) : Option (Option Written) :=
  match members.filter fun m => m.1 == name with
  | [] => some none
  | [(_, w)] => some (some w)
  | _ => none

/-- The fields of a record, in the order of `names`; a field that is not given is `none`. -/
def fields? (names : List String) : Written → Option (List (Option Written))
  | .array items =>
    if items.length ≤ names.length then
      some (items.map some ++ List.replicate (names.length - items.length) none)
    else none
  | .object members => do
    let members ← decodeNames? members
    names.mapM fun name => onlyMember? name members
  | _ => none

/-- A name out of `names`. -/
def name? (names : List String) (w : Written) : Option String :=
  w.string?.bind fun name => names.find? (· == name)

/-- A name out of `names` that is an item of an array. Inside content that was taken in whole it
may be given by number. -/
def itemName? (buffered : Bool) (names : List String) (w : Written) : Option String :=
  match w.number? with
  | some (.int i) => if buffered && decide (0 ≤ i) then names[i.toNat]? else none
  | _ => name? names w

/-- Null. Inside content that was taken in whole an empty object counts as null. -/
def isNothing (buffered : Bool) : Written → Bool
  | .null => true
  | .object [] => buffered
  | _ => false

/-- A choice without content: its name, or an object that maps the name to nothing. -/
def choice? (buffered : Bool) (depth : Nat) (names : List String) : Written → Option String
  | .text s => name? names (.text s)
  | .object [(name, w)] =>
    if depth != 0 && w.isNothing buffered then name? names (.text name) else none
  | _ => none

/-- A tag with its content. -/
structure Tagged where
  tag : String
  content : Option Written
  /-- Whether the content was taken in whole. -/
  buffered : Bool

/-- Split a tagged value. `depth` is the nesting that is allowed below this value. -/
def tagged? (buffered : Bool) (depth : Nat) (tagName contentName : String) (names : List String) :
    Written → Option Tagged
  | .array [t, c] => (itemName? buffered names t).map fun tag => ⟨tag, some c, buffered⟩
  | .object members => do
    let members ← decodeNames? members
    let tag ← (← onlyMember? tagName members)
    let content ← onlyMember? contentName members
    let tag ← choice? buffered depth names tag
    let contentFirst :=
      (members.find? fun m => m.1 == tagName || m.1 == contentName).any (·.1 == contentName)
    if contentFirst && !buffered && (content.bind (toJson? depth)).isNone then none
    else some ⟨tag, content, buffered || contentFirst⟩
  | _ => none

end EntityStore.Json.Written
