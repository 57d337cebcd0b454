import EntityStore.Timestamp.Basic
import EntityStore.Text.Integer

/-!
# Timestamps as text

The written form is RFC 3339 at the timestamp's own offset. Fractions of a second take three,
six or nine digits, as few as the value allows, and none when it is whole. Years outside four
digits carry their sign. Only rows and specifications in JSON abbreviate the offset zero to `Z`.
-/

namespace EntityStore.Timestamp

open Text

def writeYear (year : Int) : String :=
  if 0 ≤ year ∧ year ≤ 9999 then padded 4 year.toNat
  else (if year < 0 then "-" else "+") ++ padded 4 year.natAbs

def writeFraction (nano : Nat) : String :=
  if nano = 0 then ""
  else if nano % 1000000 = 0 then "." ++ padded 3 (nano / 1000000)
  else if nano % 1000 = 0 then "." ++ padded 6 (nano / 1000)
  else "." ++ padded 9 nano

def writeOffset (minutes : Int) : String :=
  (if minutes < 0 then "-" else "+") ++ padded 2 (minutes.natAbs / 60) ++ ":" ++
    padded 2 (minutes.natAbs % 60)

/-- Date and time of day, without an offset. -/
def Clock.write (c : Clock) : String :=
  writeYear c.date.year ++ "-" ++ padded 2 c.date.month ++ "-" ++ padded 2 c.date.day ++ "T" ++
    padded 2 c.hour ++ ":" ++ padded 2 c.minute ++ ":" ++ padded 2 c.second ++ writeFraction c.nano

/-- The written form with a numeric offset. -/
def toText (t : Timestamp) : String := t.clock.write ++ writeOffset t.offset

/-- The written form that abbreviates the offset zero to `Z`. -/
def toZuluText (t : Timestamp) : String :=
  t.clock.write ++ (if t.offset = 0 then "Z" else writeOffset t.offset)

end EntityStore.Timestamp
