import EntityStore.Binary64.Basic
import EntityStore.Timestamp.Basic

/-!
# Attribute values

The values attributes hold and queries compare with. They are compared by value, and numbers
and texts widen: an integer compares with a float through the nearest float, a text with an
address through its characters. What does not compare at all is left to the caller: a criterion
on it fails, a sort falls back to the rank of its kind.
-/

namespace EntityStore

/-- The declared kind of an attribute. -/
inductive ValueKind
  | bool
  | int
  | float
  | string
  | timestamp
  | url
  deriving DecidableEq, Repr, Inhabited

/-- The value of an attribute, or a literal of a query. -/
inductive Value
  | null
  | bool (b : Bool)
  | int (i : Int64)
  | float (x : Binary64)
  | string (s : String)
  | timestamp (t : Timestamp)
  | url (s : String)
  deriving DecidableEq, Inhabited

namespace Value

/-- The kind of a value; null has none. -/
def kind? : Value → Option ValueKind
  | .null => none
  | .bool _ => some .bool
  | .int _ => some .int
  | .float _ => some .float
  | .string _ => some .string
  | .timestamp _ => some .timestamp
  | .url _ => some .url

def isNull : Value → Bool
  | .null => true
  | _ => false

/-- The characters of a text or an address. -/
def text? : Value → Option String
  | .string s => some s
  | .url s => some s
  | _ => none

/-- The number an integer or float is compared as. -/
def number? : Value → Option Binary64
  | .int i => some (Binary64.ofInt i.toInt)
  | .float x => some x
  | _ => none

/-- The order of two texts: by their characters, which is also the order of their bytes. -/
def compareText (a b : String) : Ordering := compare a b

/-- The order of two values as numbers, none when one of them is not a number. -/
def compareNumbers? (a b : Value) : Option Ordering :=
  match a.number?, b.number? with
  | some x, some y => x.compare? y
  | _, _ => none

/-- The order of two values of comparable kinds. -/
def compare? : Value → Value → Option Ordering
  | .int a, .int b => some (compare a.toInt b.toInt)
  | .bool a, .bool b => some (compare a.toNat b.toNat)
  | .timestamp a, .timestamp b => some (a.compare b)
  | a, b =>
    match a.text?, b.text? with
    | some s, some t => some (compareText s t)
    | _, _ => compareNumbers? a b

/-- Equality with widening: `1` agrees with `1.0`. -/
def agrees (a b : Value) : Bool := a.compare? b == some .eq

/-- The place of a kind among values that do not compare. -/
def rank : Value → Nat
  | .null => 0
  | .bool _ => 1
  | .int _ => 2
  | .float _ => 2
  | .string _ => 3
  | .url _ => 3
  | .timestamp _ => 4

/-- The order sorting uses: null first, then by value, then by kind. -/
def sortCompare : Value → Value → Ordering
  | .null, .null => .eq
  | .null, _ => .lt
  | _, .null => .gt
  | a, b => (a.compare? b).getD (compare a.rank b.rank)

/-- Equality of values of one kind. Unlike identity it lets zeros of both signs be equal, a NaN
differ from itself, and timestamps be equal that show the same instant. -/
def same : Value → Value → Bool
  | .null, .null => true
  | .bool a, .bool b => a == b
  | .int a, .int b => a == b
  | .float a, .float b => a.sameNumber b
  | .string a, .string b => a == b
  | .timestamp a, .timestamp b => a.sameInstant b
  | .url a, .url b => a == b
  | _, _ => false

def sameList : List Value → List Value → Bool
  | [], [] => true
  | a :: as, b :: bs => a.same b && sameList as bs
  | _, _ => false

/-- The value of an id that may be unset. -/
def ofId : Option Int64 → Value
  | some id => .int id
  | none => .null

end Value

namespace ValueKind

def name : ValueKind → String
  | .bool => "bool"
  | .int => "int"
  | .float => "float"
  | .string => "string"
  | .timestamp => "timestamp"
  | .url => "url"

def all : List ValueKind := [.bool, .int, .float, .string, .timestamp, .url]

def ofName? (name : String) : Option ValueKind := all.find? fun k => k.name == name

def isNumeric : ValueKind → Bool
  | .int => true
  | .float => true
  | _ => false

def isTextual : ValueKind → Bool
  | .string => true
  | .url => true
  | _ => false

/-- Kinds whose values can be less than one another. -/
def isOrdered (k : ValueKind) : Bool := k.isNumeric || k.isTextual || k == .timestamp

/-- Whether a literal may be compared with an attribute of this kind. -/
def accepts (k : ValueKind) (v : Value) : Bool :=
  match v.kind? with
  | none => true
  | some other =>
    k == other || (k.isNumeric && other.isNumeric) || (k.isTextual && other.isTextual)

end ValueKind

end EntityStore
