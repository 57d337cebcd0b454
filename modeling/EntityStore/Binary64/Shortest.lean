import EntityStore.Binary64.Basic

/-!
# The fewest digits that read back

Around a finite number lies an interval of reals that round to it; its ends belong to it when
the significand is even, because a tie goes to the even neighbour. The decimal text of the
number has as few digits as a point of that interval can have, and of those points it is the one
nearest to the number. Two of them can be equally near; which one is taken is up to the caller.

The search goes over the grids `10 ^ p`, coarse to fine. If any point of a grid lies in the
interval then so does one of the two neighbours of the number on that grid, so two points are
tried per grid, and seventeen digits always suffice.
-/

namespace EntityStore.Binary64

/-- A positive decimal number `digits * 10 ^ power`. -/
structure Decimal where
  digits : Nat
  power : Int
  deriving DecidableEq, Repr

/-- Which of two equally near decimals is taken: the one whose last digit is even, or the larger
one. -/
inductive Tie
  | even
  | up
  deriving DecidableEq, Repr

/-- Whether a tie between `q` and `q + 1` goes to `q`. -/
def Tie.keeps : Tie → Nat → Bool
  | .even, q => q % 2 == 0
  | .up, _ => false

/-- The interval that rounds to a positive finite number, in units of a quarter of the gap above
it: `centre`, the distances to both ends, and whether the ends belong to it. A unit is
`2 ^ scale`. -/
structure Interval where
  centre : Nat
  below : Nat
  above : Nat
  closed : Bool
  scale : Int
  deriving DecidableEq, Repr

/-- Below a power of two the gap is half as wide, unless the numbers there are subnormal. -/
def interval (x : Binary64) : Interval :=
  let m := x.significand
  { centre := 4 * m
    below := if m == binade && 2 * binade ≤ x.magnitude then 1 else 2
    above := 2
    closed := m % 2 == 0
    scale := x.exponent - 2 }

/-- The interval and the grid step `10 ^ power`, brought to one common unit. -/
def Interval.onGrid (v : Interval) (power : Int) : Interval × Nat :=
  let up := Nat.pow 2 v.scale.toNat * Nat.pow 10 (-power).toNat
  let step := Nat.pow 2 (-v.scale).toNat * Nat.pow 10 power.toNat
  ({ v with centre := v.centre * up, below := v.below * up, above := v.above * up }, step)

/-- The multiple of the step that is nearest to the centre among those in the interval. -/
def Interval.nearest? (tie : Tie) (v : Interval) (step : Nat) : Option Nat :=
  let q := v.centre / step
  let under := v.centre - q * step
  let excess := (q + 1) * step - v.centre
  let underFits := (under < v.below || (v.closed && under == v.below)) && q != 0
  let excessFits := excess < v.above || (v.closed && excess == v.above)
  if underFits && excessFits then
    some (if under < excess || (under == excess && tie.keeps q) then q else q + 1)
  else if underFits then some q
  else if excessFits then some (q + 1)
  else none

/-- Try `fuel + 1` grids, each ten times finer than the one before. -/
def Interval.search (tie : Tie) (v : Interval) (power : Int) : Nat → Decimal
  | 0 =>
    let (v', step) := v.onGrid power
    ⟨(v'.centre + step / 2) / step, power⟩
  | fuel + 1 =>
    let (v', step) := v.onGrid power
    match v'.nearest? tie step with
    | some digits => ⟨digits, power⟩
    | none => search tie v (power - 1) fuel

/-- Remove the zeros at the end of the digits. -/
def Decimal.strip (d : Decimal) : Nat → Decimal
  | 0 => d
  | fuel + 1 =>
    if d.digits != 0 && d.digits % 10 == 0 then strip ⟨d.digits / 10, d.power + 1⟩ fuel else d

/-- The shortest decimal that rounds to a positive finite number. The first grid is coarser than
the number itself: `1233 / 4096` is just above the logarithm of two to the base ten. -/
def shortest (tie : Tie) (x : Binary64) : Decimal :=
  let top := (Nat.log2 x.significand : Int) + x.exponent
  (x.interval.search tie (top * 1233 / 4096 + 2) 22).strip 20

end EntityStore.Binary64
