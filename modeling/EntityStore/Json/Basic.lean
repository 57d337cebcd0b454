import EntityStore.Binary64.Basic
import EntityStore.Text.Integer

/-!
# JSON values and JSON as written

`Json` is what a document says. `Json.Written` is how it was spelled: a number keeps its digits
and a string its escapes. The difference matters to typed readers, because a member they skip is
never interpreted: it may hold a number no double can hold, or half of a surrogate pair, and the
document is still accepted. What is interpreted is interpreted only when it is asked for.
-/

namespace EntityStore

/-- A JSON value. Members of an object are in the order they are written. -/
inductive Json
  | null
  | bool (b : Bool)
  | int (i : Int)
  | float (x : Binary64)
  | text (s : String)
  | array (items : List Json)
  | object (members : List (String × Json))
  deriving Inhabited

namespace Json

/-- A number as written. -/
structure Numeral where
  negative : Bool
  whole : List Char
  fraction : Option (List Char)
  /-- Whether the exponent is negative, and its digits. -/
  exponent : Option (Bool × List Char)
  deriving DecidableEq, Repr

/-- One character of a string as written: itself, or a code unit escaped by its number. -/
inductive Piece
  | char (c : Char)
  | unit (code : Nat)
  deriving DecidableEq, Repr

/-- A document as written. -/
inductive Written
  | null
  | bool (b : Bool)
  | number (n : Numeral)
  | text (s : List Piece)
  | array (items : List Written)
  | object (members : List (List Piece × Written))
  deriving Inhabited

/-! ## Strings -/

/-- The characters of a string. A code unit in the surrogate range has to be the first of a
proper pair of escapes. -/
def decodePieces? : List Piece → Option (List Char)
  | [] => some []
  | .char c :: rest => (decodePieces? rest).map (c :: ·)
  | .unit high :: .unit low :: rest =>
    if 0xD800 ≤ high ∧ high ≤ 0xDBFF then
      if 0xDC00 ≤ low ∧ low ≤ 0xDFFF then
        (decodePieces? rest).map
          (Char.ofNat (0x10000 + (high - 0xD800) * 0x400 + (low - 0xDC00)) :: ·)
      else none
    else if 0xDC00 ≤ high ∧ high ≤ 0xDFFF then none
    else (decodePieces? (.unit low :: rest)).map (Char.ofNat high :: ·)
  | .unit code :: rest =>
    if 0xD800 ≤ code ∧ code ≤ 0xDFFF then none
    else (decodePieces? rest).map (Char.ofNat code :: ·)

def decodeText? (s : List Piece) : Option String := (decodePieces? s).map String.ofList

/-! ## Numbers -/

/-- The largest unsigned 64-bit integer: digits are collected exactly up to it. -/
def exactBound : Nat := 0xFFFFFFFFFFFFFFFF

/-- Append digits to a significand while the result stays exact; the digits left over are
returned. -/
def absorbDigits : Nat → List Char → Nat × List Char
  | n, [] => (n, [])
  | n, c :: rest =>
    let next := n * 10 + (c.toNat - '0'.toNat)
    if next ≤ exactBound then absorbDigits next rest else (n, c :: rest)

/-- `x * 10 ^ power` in steps of at most `10 ^ 308`, each step rounded. A product that
overflows is refused, a quotient that underflows is zero. -/
def scaleByTen? (x : Binary64) (power : Int) : Option Binary64 :=
  if 308 < power then (if x.isZero then some x else none)
  else if 0 ≤ power then
    let y := x.mulMagnitude (Binary64.ofDecimal false 1 power)
    if y.isInfinite then none else some y
  else if -308 ≤ power then some (x.divMagnitude (Binary64.ofDecimal false 1 (-power)))
  else if x.isZero then some x
  else scaleByTen? (x.divMagnitude (Binary64.ofDecimal false 1 308)) (power + 308)
termination_by (-power).toNat
decreasing_by omega

/-- The largest exponent that is taken at its word. Beyond it a number is zero or out of range. -/
def exponentBound : Nat := 0x7FFFFFFF

/-- The number a numeral with a fraction or an exponent, or with too many digits, stands for.
Nineteen or twenty digits are kept; of the rest those before the point count as zeros and those
after it not at all. -/
def Numeral.toFloat? (n : Numeral) : Option Binary64 :=
  let (lead, wholeRest) := absorbDigits 0 n.whole
  let fraction := n.fraction.getD []
  let (significand, fractionRest) := absorbDigits lead fraction
  let power : Int := (wholeRest.length : Int) - ((fraction.length : Int) - fractionRest.length)
  let signed (x : Binary64) : Binary64 := if n.negative then x.negate else x
  match n.exponent with
  | none => (scaleByTen? (Binary64.ofNat significand) power).map signed
  | some (negative, digits) =>
    let e : Nat := digits.foldl (fun n c => n * 10 + (c.toNat - '0'.toNat)) 0
    if exponentBound < e then
      if significand ≠ 0 ∧ !negative then none else some (signed Binary64.zero)
    else
      (scaleByTen? (Binary64.ofNat significand) (power + (if negative then -(e : Int) else e))).map
        signed

/-- The value of a numeral: an integer when it is written as one and has 64 bits, else a binary64
number. Minus zero is not an integer. -/
def Numeral.toJson? (n : Numeral) : Option Json :=
  if n.fraction.isNone && n.exponent.isNone then
    match absorbDigits 0 n.whole with
    | (value, []) =>
      if !n.negative then some (.int value)
      else if value = 0 ∨ Text.largestInt64 + 1 < value then
        some (.float (Binary64.ofNat value).negate)
      else some (.int (-(value : Int)))
    | _ => n.toFloat?.map .float
  else n.toFloat?.map .float

/-! ## Values -/

/-- Set a member in a list that is sorted by name; an earlier member of that name is replaced. -/
def putMember (name : String) (value : Json) : List (String × Json) → List (String × Json)
  | [] => [(name, value)]
  | (k, v) :: rest =>
    if name = k then (name, value) :: rest
    else if name < k then (name, value) :: (k, v) :: rest
    else (k, v) :: putMember name value rest

/-- How deep arrays and objects may nest. -/
def depthLimit : Nat := 127

mutual

/-- What a document says, given how many levels of nesting are still allowed. Members of an
object end up sorted by name, and of two with the same name the later one counts. -/
def Written.toJson? (depth : Nat) : Written → Option Json
  | .null => some .null
  | .bool b => some (.bool b)
  | .number n => n.toJson?
  | .text s => (decodeText? s).map .text
  | .array items =>
    match depth with
    | 0 => none
    | depth + 1 => (Written.toItems? depth items).map .array
  | .object members =>
    match depth with
    | 0 => none
    | depth + 1 => (Written.toMembers? depth [] members).map .object

@[inherit_doc Written.toJson?]
def Written.toItems? (depth : Nat) : List Written → Option (List Json)
  | [] => some []
  | w :: rest => do
    let item ← w.toJson? depth
    let items ← Written.toItems? depth rest
    some (item :: items)

@[inherit_doc Written.toJson?]
def Written.toMembers? (depth : Nat) (sofar : List (String × Json)) :
    List (List Piece × Written) → Option (List (String × Json))
  | [] => some sofar
  | (name, w) :: rest => do
    let name ← decodeText? name
    let value ← w.toJson? depth
    Written.toMembers? depth (putMember name value sofar) rest

end

end Json

end EntityStore
