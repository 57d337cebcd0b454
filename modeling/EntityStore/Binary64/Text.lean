import EntityStore.Binary64.Shortest
import EntityStore.Text.Integer

/-!
# Binary64 numbers as text

Numbers are written with the fewest digits that read back, positionally while the decimal
exponent is within bounds and in exponent form beyond them. Literals and stored rows differ in
those bounds, in the sign of a positive exponent and in where a tie between two decimals goes;
`Layout` records the decisions.

Reading takes any number of digits and rounds once, to the nearest number.
-/

namespace EntityStore.Binary64

/-- Where positional notation ends, how an exponent is written, and which of two equally near
decimals stands for a number. -/
structure Layout where
  /-- The least decimal exponent of the leading digit that is written positionally. -/
  lowest : Int
  /-- The first exponent that is too large to be. -/
  beyond : Int
  plusSign : Bool
  tie : Tie
  deriving DecidableEq, Repr

/-- Literals: exponent form from `1e16` up and below `1e-4`; a tie goes to the larger decimal. -/
def literalLayout : Layout := ⟨-4, 16, false, .up⟩

/-- Stored rows: exponent form from `1e+16` up and below `1e-5`, a positive exponent signed; a tie
goes to the even digit. -/
def rowLayout : Layout := ⟨-5, 16, true, .even⟩

/-- A finite positive decimal in a layout. A positional text has a point with at least one digit
on either side; an exponent text has a point only between two digits. -/
def Layout.write (layout : Layout) (d : Decimal) : List Char :=
  let ds := (toString d.digits).toList
  let lead : Int := (ds.length : Int) - 1 + d.power
  if layout.lowest ≤ lead ∧ lead < layout.beyond then
    if 0 ≤ d.power then ds ++ List.replicate d.power.toNat '0' ++ ['.', '0']
    else if 0 ≤ lead then ds.take (lead.toNat + 1) ++ '.' :: ds.drop (lead.toNat + 1)
    else '0' :: '.' :: List.replicate (-lead - 1).toNat '0' ++ ds
  else
    let sign := if layout.plusSign && decide (0 ≤ lead) then "+" else ""
    (match ds with
      | [] => []
      | [c] => [c]
      | c :: rest => c :: '.' :: rest) ++ 'e' :: (sign ++ Text.writeInt lead).toList

/-- The text of a finite number. -/
def Layout.writeFinite (layout : Layout) (x : Binary64) : List Char :=
  (if x.isNegative then ['-'] else []) ++
    (if x.isZero then ['0', '.', '0'] else layout.write (x.shortest layout.tie))

/-- The literal form of a number. -/
def toText (x : Binary64) : String :=
  if x.isNaN then "NaN"
  else if x.isInfinite then if x.isNegative then "-inf" else "inf"
  else String.ofList (literalLayout.writeFinite x)

/-! ## Reading -/

/-- The leading decimal digits and what follows them. -/
def spanDigits (cs : List Char) : List Char × List Char :=
  (cs.takeWhile Char.isDigit, cs.dropWhile Char.isDigit)

/-- The value of a run of digits. -/
def digitsValue (cs : List Char) : Nat := cs.foldl (fun n c => n * 10 + (c.toNat - '0'.toNat)) 0

/-- An exponent part: empty, or `e` with an optional sign and at least one digit. -/
def readExponent? : List Char → Option Int
  | [] => some 0
  | e :: rest =>
    if e == 'e' || e == 'E' then
      let (negative, digits) : Bool × List Char := match rest with
        | '-' :: r => (true, r)
        | '+' :: r => (false, r)
        | r => (false, r)
      if digits.isEmpty || !digits.all Char.isDigit then none
      else some (if negative then -(digitsValue digits : Int) else digitsValue digits)
    else none

/-- Digits with an optional point and exponent; at least one digit before the exponent. -/
def readUnsigned? (negative : Bool) (cs : List Char) : Option Binary64 :=
  let (whole, rest) := spanDigits cs
  let (fraction, rest) := match rest with
    | '.' :: r => spanDigits r
    | r => ([], r)
  if whole.isEmpty && fraction.isEmpty then none
  else (readExponent? rest).map fun e =>
    ofDecimal negative (digitsValue (whole ++ fraction)) (e - fraction.length)

/-- Read a number: an optional sign, then digits or a name of a special value. -/
def ofText? (cs : List Char) : Option Binary64 :=
  let (negative, body) : Bool × List Char := match cs with
    | '-' :: r => (true, r)
    | '+' :: r => (false, r)
    | r => (false, r)
  let word := body.map Char.toLower
  if word == "inf".toList || word == "infinity".toList then some (infinity negative)
  else if word == "nan".toList then some (if negative then nan.negate else nan)
  else readUnsigned? negative body

end EntityStore.Binary64
