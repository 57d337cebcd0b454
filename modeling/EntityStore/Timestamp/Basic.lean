import EntityStore.Timestamp.Calendar

/-!
# Timestamps

A timestamp is an instant together with the offset from UTC it was written with. Two timestamps
of different offsets are the same moment when their instants agree, and only the instant is
compared; the offset decides how the timestamp is written.

A leap second is the second 23:59:59 (or any other :59) running on: its nanoseconds lie between
one and two thousand million.
-/

namespace EntityStore

/-- A moment with the offset it was written with. -/
structure Timestamp where
  /-- Days since 1 January 1970, in UTC. -/
  day : Int
  /-- The second of that day. -/
  second : Nat
  nano : Nat
  /-- Minutes east of UTC. -/
  offset : Int
  deriving DecidableEq, Repr

namespace Timestamp

/-- What two timestamps are compared by. -/
def instant (t : Timestamp) : Int × Nat × Nat := (t.day, t.second, t.nano)

def compare (a b : Timestamp) : Ordering :=
  ((Ord.compare a.day b.day).then (Ord.compare a.second b.second)).then (Ord.compare a.nano b.nano)

def sameInstant (a b : Timestamp) : Bool := a.instant == b.instant

/-- A date and a time of day, as written on a clock. -/
structure Clock where
  date : Date
  hour : Nat
  minute : Nat
  second : Nat
  nano : Nat
  deriving DecidableEq, Repr

/-- The nanoseconds of a second. -/
def nanosPerSecond : Nat := 1000000000

/-- The fields are in their ranges. The second 60 is a leap second. -/
def Clock.isValid (c : Clock) : Bool :=
  c.date.isValid && decide (c.hour ≤ 23 ∧ c.minute ≤ 59 ∧ c.second ≤ 60 ∧ c.nano < nanosPerSecond)

/-- The timestamp of a clock that runs `offset` minutes ahead of UTC. -/
def ofClock? (c : Clock) (offset : Int) : Option Timestamp :=
  if !c.isValid then none
  else
    let leap := c.second == 60
    let second : Int := c.hour * 3600 + c.minute * 60 + (if leap then 59 else c.second) - offset * 60
    let day := c.date.dayNumber + second / 86400
    if Date.inRange day then
      some
        { day
          second := (second % 86400).toNat
          nano := if leap then nanosPerSecond + c.nano else c.nano
          offset }
    else none

/-- What a clock at the timestamp's own offset shows. -/
def clock (t : Timestamp) : Clock :=
  let second : Int := t.second + t.offset * 60
  let ofDay := (second % 86400).toNat
  { date := Date.ofDayNumber (t.day + second / 86400)
    hour := ofDay / 3600
    minute := ofDay / 60 % 60
    second := ofDay % 60 + t.nano / nanosPerSecond
    nano := t.nano % nanosPerSecond }

end Timestamp

end EntityStore
