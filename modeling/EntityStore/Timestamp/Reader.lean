import EntityStore.Timestamp.Basic
import EntityStore.Binary64.Text
import EntityStore.Text.Blank

/-!
# Reading timestamps

Three forms are read. The strict one is RFC 3339 with every field at full width. The relaxed one,
which stored specifications use, lets fields be shorter, years be signed and of any length, and
blanks stand between the parts. The local one has no offset and counts as UTC; string literals
of queries are tried as it after the strict form.

Each reader takes a prefix of the text and returns the rest.
-/

namespace EntityStore.Timestamp

open Text

/-- Between `least` and `most` decimal digits, as many as there are. -/
def scanNumber (least most : Nat) (cs : List Char) : Option (Nat × List Char) :=
  let digits := (cs.take most).takeWhile Char.isDigit
  if digits.length < least then none
  else some (Binary64.digitsValue digits, cs.drop digits.length)

def scanChar (expected : Char) : List Char → Option (List Char)
  | c :: rest => if c = expected then some rest else none
  | [] => none

/-- The digits of a fraction, of which the first nine count. -/
def scanFraction (cs : List Char) : Option (Nat × List Char) :=
  let digits := cs.takeWhile Char.isDigit
  if digits.isEmpty then none
  else
    let kept := digits.take 9
    some (Binary64.digitsValue kept * Nat.pow 10 (9 - kept.length), cs.drop digits.length)

/-- An optional point with digits after it. -/
def scanOptionalFraction : List Char → Option (Nat × List Char)
  | '.' :: rest => scanFraction rest
  | cs => some (0, cs)

/-- The sign of an offset: a hyphen or the minus sign proper is negative. -/
def scanSign : List Char → Option (Bool × List Char)
  | '+' :: rest => some (false, rest)
  | '-' :: rest => some (true, rest)
  | '\u2212' :: rest => some (true, rest)
  | _ => none

/-- An offset in minutes: `Z`, or two digits each of hours and minutes with `between` read in
the middle. Less than a day either way. -/
def scanOffset (between : List Char → Option (List Char)) : List Char → Option (Int × List Char)
  | 'Z' :: rest => some (0, rest)
  | 'z' :: rest => some (0, rest)
  | cs => do
    let (negative, cs) ← scanSign cs
    let (hours, cs) ← scanNumber 2 2 cs
    let cs ← between cs
    let (minutes, cs) ← scanNumber 2 2 cs
    if 59 < minutes ∨ 23 < hours then none
    else
      let total : Int := hours * 60 + minutes
      some (if negative then -total else total, cs)

/-- The letter or space between date and time. -/
def scanSeparator : List Char → Option (List Char)
  | c :: rest => if c = 'T' ∨ c = 't' ∨ c = ' ' then some rest else none
  | [] => none

/-- RFC 3339, every field at full width. -/
def readStrict? (cs : List Char) : Option Timestamp := do
  let (year, cs) ← scanNumber 4 4 cs
  let cs ← scanChar '-' cs
  let (month, cs) ← scanNumber 2 2 cs
  let cs ← scanChar '-' cs
  let (day, cs) ← scanNumber 2 2 cs
  let cs ← scanSeparator cs
  let (hour, cs) ← scanNumber 2 2 cs
  let cs ← scanChar ':' cs
  let (minute, cs) ← scanNumber 2 2 cs
  let cs ← scanChar ':' cs
  let (second, cs) ← scanNumber 2 2 cs
  let (nano, cs) ← scanOptionalFraction cs
  let (offset, cs) ← scanOffset (scanChar ':') cs
  if cs.isEmpty then ofClock? ⟨⟨year, month, day⟩, hour, minute, second, nano⟩ offset else none

/-- A field of one or two digits after any blanks. -/
def scanField (cs : List Char) : Option (Nat × List Char) := scanNumber 1 2 (trimStart cs)

/-- A year after any blanks: up to four digits, or any number of digits after a sign. -/
def scanYear (cs : List Char) : Option (Int × List Char) :=
  match trimStart cs with
  | '-' :: rest => (scanNumber 1 rest.length rest).map fun (y, cs) => (-(y : Int), cs)
  | '+' :: rest => (scanNumber 1 rest.length rest).map fun (y, cs) => ((y : Int), cs)
  | rest => (scanNumber 1 4 rest).map fun (y, cs) => ((y : Int), cs)

/-- A date of short fields; `gap` is what may stand before each hyphen. -/
def scanDate (gap : List Char → List Char) (cs : List Char) : Option (Date × List Char) := do
  let (year, cs) ← scanYear cs
  let cs ← scanChar '-' (gap cs)
  let (month, cs) ← scanField cs
  let cs ← scanChar '-' (gap cs)
  let (day, cs) ← scanField cs
  some (⟨year, month, day⟩, cs)

/-- A time of day of short fields. -/
def scanTime (gap : List Char → List Char) (date : Date) (cs : List Char) : Option (Clock × List Char) := do
  let (hour, cs) ← scanField cs
  let cs ← scanChar ':' (gap cs)
  let (minute, cs) ← scanField cs
  let cs ← scanChar ':' (gap cs)
  let (second, cs) ← scanField cs
  let (nano, cs) ← scanOptionalFraction cs
  some (⟨date, hour, minute, second, nano⟩, cs)

/-- The offset of the relaxed form: also the letters `UTC`, and between hours and minutes any
colons and blanks. -/
def scanRelaxedOffset (cs : List Char) : Option (Int × List Char) :=
  if (cs.take 3).map Char.toLower == ['u', 't', 'c'] then some (0, cs.drop 3)
  else scanOffset (fun r => some (r.dropWhile fun c => c == ':' || isBlank c)) cs

/-- RFC 3339 with short fields, signed years and blanks between the parts. -/
def readRelaxed? (cs : List Char) : Option Timestamp := do
  let (date, cs) ← scanDate trimStart cs
  let cs ← scanSeparator cs
  let (clock, cs) ← scanTime trimStart date cs
  let (offset, cs) ← scanRelaxedOffset (trimStart cs)
  if (trimStart cs).isEmpty then ofClock? clock offset else none

/-- Date and time without an offset, with `between` read in the middle. -/
def readLocalWith? (between : List Char → Option (List Char)) (cs : List Char) :
    Option Timestamp := do
  let (date, cs) ← scanDate id cs
  let cs ← between cs
  let (clock, cs) ← scanTime id date cs
  if cs.isEmpty then ofClock? clock 0 else none

/-- Date and time without an offset: the letter `T` between them, or blanks, or nothing. -/
def readLocal? (cs : List Char) : Option Timestamp :=
  (readLocalWith? (scanChar 'T') cs).or (readLocalWith? (fun r => some (trimStart r)) cs)

/-- The timestamp a string literal stands for, when it stands for one. -/
def ofLiteral? (cs : List Char) : Option Timestamp := (readStrict? cs).or (readLocal? cs)

end EntityStore.Timestamp
