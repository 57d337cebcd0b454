/-!
# Signed 64-bit integers as text

An id and a whole literal are written in decimal with an optional sign. The reader goes from
left to right and stops at the first thing that is wrong, so of a stray character and an
overflow the one further left is reported.
-/

namespace EntityStore.Text

/-- Why a text is not a signed 64-bit integer. -/
inductive IntegerFault
  | empty
  | invalidDigit
  | tooLarge
  | tooSmall
  deriving DecidableEq, Repr

def IntegerFault.message : IntegerFault → String
  | .empty => "cannot parse integer from empty string"
  | .invalidDigit => "invalid digit found in string"
  | .tooLarge => "number too large to fit in target type"
  | .tooSmall => "number too small to fit in target type"

/-- The value of an ASCII decimal digit. -/
def digit? (c : Char) : Option Nat := if c.isDigit then some (c.toNat - '0'.toNat) else none

/-- Digits appended to `acc`, which must stay within `bound`. -/
def readDigits (bound : Nat) (fault : IntegerFault) : Nat → List Char → Except IntegerFault Nat
  | acc, [] => .ok acc
  | acc, c :: rest =>
    match digit? c with
    | none => .error .invalidDigit
    | some d =>
      if acc * 10 + d ≤ bound then readDigits bound fault (acc * 10 + d) rest else .error fault

/-- Digits that follow a sign: there has to be at least one. -/
def readUnsigned (bound : Nat) (fault : IntegerFault) : List Char → Except IntegerFault Nat
  | [] => .error .invalidDigit
  | c :: rest => readDigits bound fault 0 (c :: rest)

/-- The largest signed 64-bit integer, which is `2 ^ 63 - 1`. -/
def largestInt64 : Nat := 0x7FFFFFFFFFFFFFFF

/-- The integers that have 64 bits with a sign. -/
def inInt64 (i : Int) : Bool := -(largestInt64 : Int) - 1 ≤ i && i ≤ largestInt64

/-- A decimal integer with an optional sign, within the 64-bit range. -/
def readInt64 : List Char → Except IntegerFault Int64
  | [] => .error .empty
  | '-' :: rest => (readUnsigned (largestInt64 + 1) .tooSmall rest).map fun n => Int64.ofInt (-(n : Int))
  | '+' :: rest => (readUnsigned largestInt64 .tooLarge rest).map fun n => Int64.ofInt n
  | c :: rest => (readDigits largestInt64 .tooLarge 0 (c :: rest)).map fun n => Int64.ofInt n

/-- Decimal digits of an integer, with a minus sign when it is negative. -/
def writeInt (i : Int) : String :=
  if i < 0 then "-" ++ toString i.natAbs else toString i.natAbs

def writeInt64 (i : Int64) : String := writeInt i.toInt

/-- `n` in decimal, filled with zeros on the left up to `width` digits. -/
def padded (width n : Nat) : String :=
  let s := toString n
  String.ofList (List.replicate (width - s.length) '0') ++ s

end EntityStore.Text
