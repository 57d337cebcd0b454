import EntityStore.Json.Basic

/-!
# Reading JSON

The grammar is that of the JSON standard: no leading zeros, no trailing commas, no characters
below the space inside strings. Every call that descends gives up one unit of fuel; a document
of `n` characters needs no more than a few units per character, and the wrapper provides them.
-/

namespace EntityStore.Json

def isSpace (c : Char) : Bool := c == ' ' || c == '\n' || c == '\t' || c == '\r'

def skipSpace (cs : List Char) : List Char := cs.dropWhile isSpace

def hexDigit? (c : Char) : Option Nat :=
  if '0' ≤ c ∧ c ≤ '9' then some (c.toNat - '0'.toNat)
  else if 'a' ≤ c ∧ c ≤ 'f' then some (c.toNat - 'a'.toNat + 10)
  else if 'A' ≤ c ∧ c ≤ 'F' then some (c.toNat - 'A'.toNat + 10)
  else none

/-- The character that follows a backslash, the four digits of a code unit apart. -/
def shortEscape? : Char → Option Char
  | '"' => some '"'
  | '\\' => some '\\'
  | '/' => some '/'
  | 'b' => some '\x08'
  | 'f' => some '\x0c'
  | 'n' => some '\n'
  | 'r' => some '\r'
  | 't' => some '\t'
  | _ => none

/-- The pieces of a string up to its closing quote. -/
def readPieces? : List Char → Option (List Piece × List Char)
  | [] => none
  | '"' :: rest => some ([], rest)
  | '\\' :: 'u' :: a :: b :: c :: d :: rest => do
    let a ← hexDigit? a
    let b ← hexDigit? b
    let c ← hexDigit? c
    let d ← hexDigit? d
    let (pieces, rest) ← readPieces? rest
    some (.unit (((a * 16 + b) * 16 + c) * 16 + d) :: pieces, rest)
  | '\\' :: e :: rest => do
    let c ← shortEscape? e
    let (pieces, rest) ← readPieces? rest
    some (.char c :: pieces, rest)
  | c :: rest =>
    if c.toNat < 0x20 ∨ c = '\\' then none
    else (readPieces? rest).map fun (pieces, rest) => (.char c :: pieces, rest)

/-- The digits of an exponent after its letter. -/
def readExponent? (cs : List Char) : Option ((Bool × List Char) × List Char) :=
  let (negative, cs) : Bool × List Char := match cs with
    | '-' :: r => (true, r)
    | '+' :: r => (false, r)
    | r => (false, r)
  let digits := cs.takeWhile Char.isDigit
  if digits.isEmpty then none else some ((negative, digits), cs.drop digits.length)

/-- A numeral; the sign has been read. -/
def readNumeral? (negative : Bool) (cs : List Char) : Option (Numeral × List Char) := do
  let digits := cs.takeWhile Char.isDigit
  if digits.isEmpty || (digits.head? == some '0' && digits.length != 1) then none
  else
    let cs := cs.drop digits.length
    let (fraction, cs) ← match cs with
      | '.' :: r =>
        let f := r.takeWhile Char.isDigit
        if f.isEmpty then none else some (some f, r.drop f.length)
      | r => some (none, r)
    let (exponent, cs) ← match cs with
      | 'e' :: r => (readExponent? r).map fun (e, r) => (some e, r)
      | 'E' :: r => (readExponent? r).map fun (e, r) => (some e, r)
      | r => some (none, r)
    some (⟨negative, digits, fraction, exponent⟩, cs)

/-- Drop a literal name. -/
def dropWord? (word cs : List Char) : Option (List Char) :=
  if word.isPrefixOf cs then some (cs.drop word.length) else none

mutual

/-- A value, which may be preceded by space. -/
def readValue? : Nat → List Char → Option (Written × List Char)
  | 0, _ => none
  | fuel + 1, cs =>
    match skipSpace cs with
    | 'n' :: r => (dropWord? "ull".toList r).map (Written.null, ·)
    | 't' :: r => (dropWord? "rue".toList r).map (Written.bool true, ·)
    | 'f' :: r => (dropWord? "alse".toList r).map (Written.bool false, ·)
    | '"' :: r => (readPieces? r).map fun (s, r) => (.text s, r)
    | '[' :: r =>
      match skipSpace r with
      | ']' :: r => some (.array [], r)
      | r => (readItems? fuel r).map fun (items, r) => (.array items, r)
    | '\x7b' :: r =>
      match skipSpace r with
      | '\x7d' :: r => some (.object [], r)
      | r => (readMembers? fuel r).map fun (members, r) => (.object members, r)
    | '-' :: r => (readNumeral? true r).map fun (n, r) => (.number n, r)
    | r => (readNumeral? false r).map fun (n, r) => (.number n, r)

/-- The items of an array up to its closing bracket; there is at least one. -/
def readItems? : Nat → List Char → Option (List Written × List Char)
  | 0, _ => none
  | fuel + 1, cs => do
    let (item, r) ← readValue? fuel cs
    match skipSpace r with
    | ']' :: r => some ([item], r)
    | ',' :: r => (readItems? fuel r).map fun (items, r) => (item :: items, r)
    | _ => none

/-- The members of an object up to its closing brace; there is at least one. -/
def readMembers? : Nat → List Char → Option (List (List Piece × Written) × List Char)
  | 0, _ => none
  | fuel + 1, cs =>
    match skipSpace cs with
    | '"' :: r => do
      let (name, r) ← readPieces? r
      match skipSpace r with
      | ':' :: r => do
        let (value, r) ← readValue? fuel r
        match skipSpace r with
        | '\x7d' :: r => some ([(name, value)], r)
        | ',' :: r => (readMembers? fuel r).map fun (members, r) => ((name, value) :: members, r)
        | _ => none
      | _ => none
    | _ => none

end

/-- A whole document as written. -/
def Written.ofText? (cs : List Char) : Option Written :=
  match readValue? (2 * cs.length + 2) cs with
  | some (w, rest) => if (skipSpace rest).isEmpty then some w else none
  | none => none

/-- A whole document. -/
def ofText? (cs : List Char) : Option Json := (Written.ofText? cs).bind (Written.toJson? depthLimit)

end EntityStore.Json
