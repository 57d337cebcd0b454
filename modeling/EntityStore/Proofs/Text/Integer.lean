import EntityStore.Binary64.Text
import EntityStore.Text.Integer
import Mathlib.Tactic.Ring

/-!
# Decimal texts of integers

A number is read back from its decimal digits. Reading checks the bound after every digit, which
is no check at all on the digits of a number within the bound: what has been read so far never
exceeds what the digits amount to in the end. The floats and the timestamps of the library are written
with runs of digits, too, those of a fixed width filled with zeros.
-/

namespace EntityStore.Text

/-- Different numbers have different decimal texts. -/
theorem toString_injective {m n : Nat} (h : toString m = toString n) : m = n := by
  have hdigits : Nat.toDigits 10 m = Nat.toDigits 10 n := by
    rw [← Nat.toList_repr, ← Nat.toList_repr]
    exact congrArg String.toList h
  rw [← Nat.ofDigitChars_ten_toDigits (n := m), hdigits, Nat.ofDigitChars_ten_toDigits]

theorem toList_toString (n : Nat) : (toString n).toList = Nat.toDigits 10 n := Nat.toList_repr

theorem isDigit_of_mem_toDigits {n : Nat} : ∀ c ∈ Nat.toDigits 10 n, c.isDigit = true :=
  fun _ hc => Nat.isDigit_of_mem_toDigits (by decide) (by decide) hc

theorem digit?_of_isDigit {c : Char} (h : c.isDigit = true) :
    digit? c = some (c.toNat - '0'.toNat) := by
  rw [digit?, if_pos h]

/-- Reading digits only adds to what has been read. -/
theorem le_ofDigitChars (cs : List Char) (acc : Nat) : acc ≤ Nat.ofDigitChars 10 cs acc := by
  induction cs generalizing acc with
  | nil => exact Nat.le_refl _
  | cons c cs ih =>
      rw [Nat.ofDigitChars_cons]
      have := ih (10 * acc + (c.toNat - '0'.toNat))
      omega

theorem readDigits_of_isDigit {bound : Nat} {fault : IntegerFault} {cs : List Char} {acc : Nat}
    (hcs : ∀ c ∈ cs, c.isDigit = true) (hbound : Nat.ofDigitChars 10 cs acc ≤ bound) :
    readDigits bound fault acc cs = .ok (Nat.ofDigitChars 10 cs acc) := by
  induction cs generalizing acc with
  | nil => rfl
  | cons c cs ih =>
      rw [Nat.ofDigitChars_cons] at hbound ⊢
      have hle := le_ofDigitChars cs (10 * acc + (c.toNat - '0'.toNat))
      rw [readDigits, digit?_of_isDigit (hcs c List.mem_cons_self)]
      dsimp only
      rw [Nat.mul_comm acc 10, if_pos (Nat.le_trans hle hbound)]
      exact ih (fun d hd => hcs d (List.mem_cons_of_mem _ hd)) hbound

theorem readDigits_toDigits {bound n : Nat} {fault : IntegerFault} (hn : n ≤ bound) :
    readDigits bound fault 0 (Nat.toDigits 10 n) = .ok n := by
  have hbound : Nat.ofDigitChars 10 (Nat.toDigits 10 n) 0 ≤ bound := by
    rw [Nat.ofDigitChars_ten_toDigits]
    exact hn
  rw [readDigits_of_isDigit isDigit_of_mem_toDigits hbound, Nat.ofDigitChars_ten_toDigits]

/-- The digits of a number: at least one, and nothing but digits. -/
theorem exists_toDigits (n : Nat) :
    ∃ d tail, Nat.toDigits 10 n = d :: tail ∧ d.isDigit = true := by
  obtain ⟨d, tail, h⟩ := List.exists_cons_of_ne_nil (Nat.toDigits_ne_nil (n := n) (b := 10))
  refine ⟨d, tail, h, isDigit_of_mem_toDigits (n := n) d ?_⟩
  rw [h]
  exact List.mem_cons_self

theorem toList_writeInt (i : Int) :
    (writeInt i).toList = (if i < 0 then ['-'] else []) ++ Nat.toDigits 10 i.natAbs := by
  rw [writeInt]
  split
  · rw [String.toList_append, toList_toString]
    rfl
  · rw [toList_toString]
    rfl

theorem inInt64_toInt (i : Int64) : inInt64 i.toInt = true := by
  have hlow := i.le_toInt
  have hhigh := i.toInt_lt
  rw [inInt64, largestInt64, Bool.and_eq_true, decide_eq_true_eq, decide_eq_true_eq]
  omega

/-- **An integer is read back from its text.** -/
theorem readInt64_writeInt64 (i : Int64) : readInt64 (writeInt64 i).toList = .ok i := by
  have hmin := Int64.le_toInt i
  have hmax := Int64.toInt_lt i
  rw [writeInt64, toList_writeInt]
  split
  case isTrue hneg =>
    have habs : i.toInt.natAbs ≤ largestInt64 + 1 := by
      rw [largestInt64]
      omega
    obtain ⟨d, tail, hd, -⟩ := exists_toDigits i.toInt.natAbs
    rw [List.cons_append, List.nil_append, readInt64, hd, readUnsigned, ← hd,
      readDigits_toDigits habs]
    refine congrArg Except.ok ?_
    dsimp only
    rw [show -(i.toInt.natAbs : Int) = i.toInt by omega, Int64.ofInt_toInt]
  case isFalse hneg =>
    have habs : i.toInt.natAbs ≤ largestInt64 := by
      rw [largestInt64]
      omega
    obtain ⟨d, tail, hd, hdigit⟩ := exists_toDigits i.toInt.natAbs
    have hread : readInt64 (d :: tail)
        = (readDigits largestInt64 .tooLarge 0 (d :: tail)).map fun n => Int64.ofInt n := by
      rw [readInt64.eq_def]
      split
      · rename_i h; cases h
      · rename_i h; obtain ⟨rfl, -⟩ := List.cons.inj h; exact absurd hdigit (by decide)
      · rename_i h; obtain ⟨rfl, -⟩ := List.cons.inj h; exact absurd hdigit (by decide)
      · rename_i h; rw [h]
    rw [List.nil_append, hd, hread, ← hd, readDigits_toDigits habs]
    refine congrArg Except.ok ?_
    dsimp only
    rw [show ((i.toInt.natAbs : Nat) : Int) = i.toInt by omega, Int64.ofInt_toInt]

/-! ## Runs of digits -/

open Binary64 (digitsValue)

theorem foldl_digits (cs : List Char) (acc : Nat) :
    cs.foldl (fun n c => n * 10 + (c.toNat - '0'.toNat)) acc
      = acc * 10 ^ cs.length + digitsValue cs := by
  unfold digitsValue
  induction cs generalizing acc with
  | nil => simp
  | cons c cs ih =>
      rw [List.foldl_cons, List.foldl_cons, ih, ih (0 * 10 + _), List.length_cons, pow_succ]
      ring

/-- Digits in front count by the number of digits after them. -/
theorem digitsValue_append (a b : List Char) :
    digitsValue (a ++ b) = digitsValue a * 10 ^ b.length + digitsValue b := by
  have h := foldl_digits b (digitsValue a)
  rw [← h]
  unfold digitsValue
  rw [List.foldl_append]

theorem digitsValue_zeros (n : Nat) : digitsValue (List.replicate n '0') = 0 := by
  induction n with
  | zero => rfl
  | succ n ih =>
      rw [List.replicate_succ', digitsValue_append, ih, Nat.zero_mul, Nat.zero_add]
      rfl

/-- **Decimal digits amount to the number they are of.** -/
theorem digitsValue_toDigits (n : Nat) : digitsValue (Nat.toDigits 10 n) = n := by
  have h : ∀ (cs : List Char) (acc : Nat), cs.foldl (fun n c => n * 10 + (c.toNat - '0'.toNat)) acc
      = Nat.ofDigitChars 10 cs acc := by
    intro cs
    induction cs with
    | nil => intro acc; rfl
    | cons c cs ih =>
        intro acc
        rw [List.foldl_cons, Nat.ofDigitChars_cons, ih, Nat.mul_comm acc 10]
  unfold digitsValue
  rw [h, Nat.ofDigitChars_ten_toDigits]

/-- An integer is written with digits, and a sign. -/
theorem isDigit_of_mem_writeInt {i : Int} :
    ∀ c ∈ (writeInt i).toList, c = '-' ∨ c.isDigit = true := by
  intro c hc
  rw [toList_writeInt] at hc
  rcases List.mem_append.mp hc with hsign | hc
  · split at hsign
    · exact .inl (List.mem_singleton.mp hsign)
    · cases hsign
  · exact .inr (isDigit_of_mem_toDigits c hc)

/-! ## Numbers of a width -/

theorem toList_padded (width n : Nat) :
    (padded width n).toList
      = List.replicate (width - (Nat.toDigits 10 n).length) '0' ++ Nat.toDigits 10 n := by
  have hlength : (toString n).length = (Nat.toDigits 10 n).length := by
    rw [← String.length_toList, toList_toString]
  unfold padded
  dsimp only
  rw [String.toList_append, String.toList_ofList, toList_toString, hlength]

theorem isDigit_of_mem_padded {width n : Nat} : ∀ c ∈ (padded width n).toList, c.isDigit = true := by
  intro c hc
  rw [toList_padded] at hc
  rcases List.mem_append.mp hc with hc | hc
  · rw [List.eq_of_mem_replicate hc]
    rfl
  · exact isDigit_of_mem_toDigits c hc

theorem digitsValue_padded (width n : Nat) : digitsValue (padded width n).toList = n := by
  rw [toList_padded, digitsValue_append, digitsValue_zeros, digitsValue_toDigits, Nat.zero_mul,
    Nat.zero_add]

/-- A number with no more digits than that fills the width. -/
theorem length_padded {width n : Nat} (hwidth : 0 < width) (h : n < 10 ^ width) :
    (padded width n).toList.length = width := by
  have hle : (Nat.toDigits 10 n).length ≤ width :=
    (Nat.length_toDigits_le_iff (by decide) hwidth).mpr h
  rw [toList_padded, List.length_append, List.length_replicate]
  omega

end EntityStore.Text
