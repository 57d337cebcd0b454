/-!
# Blank characters

Readers of this library skip blanks that are not only ASCII: settings are trimmed before they are
compared, a bare address in a query ends at the first blank, and blank lines of a table hold no
rows. All of them use the White_Space property of Unicode, which is this table.
-/

namespace EntityStore.Text

/-- The White_Space property of Unicode. -/
def isBlank (c : Char) : Bool :=
  let n := c.toNat
  (0x09 ≤ n && n ≤ 0x0D) || n == 0x20 || n == 0x85 || n == 0xA0 || n == 0x1680 ||
    (0x2000 ≤ n && n ≤ 0x200A) || n == 0x2028 || n == 0x2029 || n == 0x202F || n == 0x205F ||
    n == 0x3000

def trimStart (cs : List Char) : List Char := cs.dropWhile isBlank

/-- Drop the blanks at both ends. -/
def trim (cs : List Char) : List Char := (trimStart (trimStart cs).reverse).reverse

/-- Lower case of the ASCII letters; every other character stays. -/
def lowerAscii (cs : List Char) : List Char := cs.map Char.toLower

/-- Equality up to the case of ASCII letters, the way keywords are recognised. -/
def sameWord (a b : List Char) : Bool := lowerAscii a == lowerAscii b

/-- The number of bytes `cs` takes in UTF-8. Positions in queries count bytes. -/
def byteLength : List Char → Nat
  | [] => 0
  | c :: cs => c.utf8Size + byteLength cs

@[simp] theorem byteLength_nil : byteLength [] = 0 := rfl

@[simp] theorem byteLength_cons (c : Char) (cs : List Char) :
    byteLength (c :: cs) = c.utf8Size + byteLength cs := rfl

@[simp] theorem byteLength_append (a b : List Char) :
    byteLength (a ++ b) = byteLength a + byteLength b := by
  induction a with
  | nil => simp
  | cons c a ih => simp [ih, Nat.add_assoc]

/-- Whether `part` occurs in `whole` without gaps. -/
def occursIn (part : List Char) : List Char → Bool
  | [] => part.isEmpty
  | c :: whole => part.isPrefixOf (c :: whole) || occursIn part whole

/-- `occursIn` decides the infix relation. -/
theorem occursIn_iff {part whole : List Char} : occursIn part whole = true ↔ part <:+: whole := by
  induction whole with
  | nil => cases part <;> simp [occursIn]
  | cons c whole ih => simp [occursIn, ih, List.infix_cons_iff]

end EntityStore.Text
