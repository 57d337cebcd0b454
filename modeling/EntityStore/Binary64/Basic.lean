/-!
# Binary64 numbers

A binary64 number is its 64 bits: a sign, eleven bits of exponent and 52 bits of fraction.
Everything that is said about one is said about these bits in exact integer arithmetic, so that
rounding, comparing, reading and printing are functions a proof can compute with.

Two numbers are the same value exactly when their bits are equal. Comparing is another matter:
the zeros of both signs compare equal, and a NaN compares with nothing, itself included.
-/

namespace EntityStore

/-- A binary64 floating-point number. -/
structure Binary64 where
  bits : UInt64
  deriving DecidableEq, Repr, Inhabited

namespace Binary64

/-- The highest of the 64 bits, which is `2 ^ 63`. -/
def signBit : Nat := 0x8000000000000000

/-- The lowest bit of the exponent, which is `2 ^ 52`: the gap between two powers of two. -/
def binade : Nat := 0x10000000000000

/-- The sign. -/
def isNegative (x : Binary64) : Bool := signBit ≤ x.bits.toNat

/-- The bits without the sign. They order the magnitudes: a larger exponent outweighs any
fraction, and infinity lies above every finite number. -/
def magnitude (x : Binary64) : Nat := x.bits.toNat % signBit

/-- The magnitude of infinity; what lies above is not a number. -/
def infiniteMagnitude : Nat := 2047 * binade

def isNaN (x : Binary64) : Bool := infiniteMagnitude < x.magnitude

def isInfinite (x : Binary64) : Bool := x.magnitude == infiniteMagnitude

def isFinite (x : Binary64) : Bool := x.magnitude < infiniteMagnitude

def isZero (x : Binary64) : Bool := x.magnitude == 0

/-- Assemble a number from a sign and a magnitude below the sign bit. -/
def ofMagnitude (negative : Bool) (magnitude : Nat) : Binary64 :=
  ⟨UInt64.ofNat (if negative then signBit + magnitude else magnitude)⟩

def zero : Binary64 := ⟨0⟩

def infinity (negative : Bool) : Binary64 := ofMagnitude negative infiniteMagnitude

def nan : Binary64 := ofMagnitude false (infiniteMagnitude + binade / 2)

/-- The other sign, the same magnitude. -/
def negate (x : Binary64) : Binary64 := ofMagnitude (!x.isNegative) x.magnitude

/-- The significand and exponent of a finite number, which is `significand * 2 ^ exponent` in
magnitude. Numbers of the lowest exponent have no implicit leading bit. -/
def significand (x : Binary64) : Nat :=
  if x.magnitude < binade then x.magnitude else binade + x.magnitude % binade

@[inherit_doc significand]
def exponent (x : Binary64) : Int :=
  if x.magnitude < binade then -1074 else (x.magnitude / binade : Nat) - 1075

/-! ## Comparing -/

/-- A position on a line on which the numbers lie in order, both zeros at the origin. -/
def rank (x : Binary64) : Int := if x.isNegative then -(x.magnitude : Int) else x.magnitude

/-- The order of two numbers, which a NaN has with none. -/
def compare? (x y : Binary64) : Option Ordering :=
  if x.isNaN || y.isNaN then none else some (compare x.rank y.rank)

/-- Equality as numbers: the zeros are equal and a NaN differs from itself. -/
def sameNumber (x y : Binary64) : Bool := x.compare? y == some .eq

/-! ## Rounding -/

/-- The exponent `k` with `2 ^ k ≤ num / den < 2 ^ (k + 1)`, for a positive fraction. -/
def binaryExponent (num den : Nat) : Int :=
  let k : Int := (Nat.log2 num : Int) - Nat.log2 den
  if num * Nat.pow 2 (-k).toNat < den * Nat.pow 2 k.toNat then k - 1 else k

/-- `num / den` as a whole number, to the nearest, a half to the even neighbour. -/
def roundHalfEven (num den : Nat) : Nat :=
  let q := num / den
  let r := num % den
  if 2 * r < den then q
  else if den < 2 * r then q + 1
  else q + q % 2

/-- The number nearest to `num / den`, of two the one with the even significand. Fractions
beyond the largest number by half a unit or more round to infinity. -/
def ofRatio (negative : Bool) (num den : Nat) : Binary64 :=
  if num = 0 then ofMagnitude negative 0
  else
    let unit := max (binaryExponent num den - 52) (-1074)
    let q := roundHalfEven (num * Nat.pow 2 (-unit).toNat) (den * Nat.pow 2 unit.toNat)
    -- a significand that rounds up to `2 ^ 53` carries into the exponent by itself
    ofMagnitude negative (min ((unit + 1074).toNat * binade + q) infiniteMagnitude)

/-- The number nearest to an integer. -/
def ofInt (i : Int) : Binary64 := ofRatio (i < 0) i.natAbs 1

def ofNat (n : Nat) : Binary64 := ofRatio false n 1

/-- The number nearest to `digits * 10 ^ power`. Powers far outside the range are not computed:
the result is zero or infinity whatever the digits are. -/
def ofDecimal (negative : Bool) (digits : Nat) (power : Int) : Binary64 :=
  if digits = 0 then ofMagnitude negative 0
  else
    -- `0.301` and `0.302` are just below and just above the logarithm of two to the base ten
    let bit : Int := Nat.log2 digits
    if 400 < bit * 301 / 1000 + power then infinity negative
    else if bit * 302 / 1000 + power < -800 then ofMagnitude negative 0
    else ofRatio negative (digits * Nat.pow 10 power.toNat) (Nat.pow 10 (-power).toNat)

/-- The magnitude of a finite number as a fraction of natural numbers. -/
def ratio (x : Binary64) : Nat × Nat :=
  (x.significand * Nat.pow 2 x.exponent.toNat, Nat.pow 2 (-x.exponent).toNat)

/-- The rounded product of the magnitudes of two finite numbers. -/
def mulMagnitude (x y : Binary64) : Binary64 :=
  ofRatio false (x.ratio.1 * y.ratio.1) (x.ratio.2 * y.ratio.2)

/-- The rounded quotient of the magnitudes of two finite numbers, the second not zero. -/
def divMagnitude (x y : Binary64) : Binary64 :=
  ofRatio false (x.ratio.1 * y.ratio.2) (x.ratio.2 * y.ratio.1)

end Binary64

end EntityStore
