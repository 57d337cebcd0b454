import EntityStore.Binary64.Basic

/-!
# Bits of binary64 numbers

A number is a sign and a magnitude below the sign bit, and is determined by the two. Rounding
never goes beyond infinity, so the nearest number to a fraction or to an integer is a number.
-/

namespace EntityStore.Binary64

theorem signBit_eq : signBit = 9223372036854775808 := rfl

theorem toNat_lt (x : Binary64) : x.bits.toNat < 2 * signBit := by
  have h := x.bits.toNat_lt
  rw [signBit_eq]
  omega

theorem magnitude_lt (x : Binary64) : x.magnitude < signBit := Nat.mod_lt _ (by decide)

theorem bits_ofMagnitude {m : Nat} (hm : m < signBit) (negative : Bool) :
    (ofMagnitude negative m).bits.toNat = (if negative then signBit + m else m) := by
  rw [signBit_eq] at hm
  have hlt : (if negative then signBit + m else m) < 2 ^ 64 := by
    rw [signBit_eq]
    split <;> omega
  exact UInt64.toNat_ofNat_of_lt' hlt

@[simp] theorem magnitude_ofMagnitude {m : Nat} (hm : m < signBit) (negative : Bool) :
    (ofMagnitude negative m).magnitude = m := by
  rw [magnitude, bits_ofMagnitude hm]
  split
  · rw [Nat.add_mod_left, Nat.mod_eq_of_lt hm]
  · exact Nat.mod_eq_of_lt hm

/-- A number is put together again from its sign and its magnitude. -/
theorem ofMagnitude_self (x : Binary64) : ofMagnitude x.isNegative x.magnitude = x := by
  have hbits : (ofMagnitude x.isNegative x.magnitude).bits.toNat = x.bits.toNat := by
    rw [bits_ofMagnitude x.magnitude_lt, isNegative, magnitude]
    have hlt := x.toNat_lt
    by_cases h : signBit ≤ x.bits.toNat
    · rw [Nat.mod_eq_sub_mod h, Nat.mod_eq_of_lt (by omega)]
      simp only [h, decide_true, if_true]
      omega
    · rw [Nat.mod_eq_of_lt (by omega)]
      simp [h]
  cases x
  exact congrArg Binary64.mk (UInt64.toNat_inj.mp hbits)

theorem isNaN_ofMagnitude {m : Nat} (hm : m ≤ infiniteMagnitude) (negative : Bool) :
    (ofMagnitude negative m).isNaN = false := by
  have hlt : m < signBit := Nat.lt_of_le_of_lt hm (by decide)
  rw [isNaN, magnitude_ofMagnitude hlt]
  simpa using hm

theorem isNaN_ofRatio (negative : Bool) (num den : Nat) :
    (ofRatio negative num den).isNaN = false := by
  unfold ofRatio
  split
  · exact isNaN_ofMagnitude (Nat.zero_le _) negative
  · exact isNaN_ofMagnitude (Nat.min_le_right _ _) negative

theorem isNaN_ofDecimal (negative : Bool) (digits : Nat) (power : Int) :
    (ofDecimal negative digits power).isNaN = false := by
  unfold ofDecimal
  split
  · exact isNaN_ofMagnitude (Nat.zero_le _) negative
  · dsimp only
    split
    · exact isNaN_ofMagnitude (Nat.le_refl _) negative
    · split
      · exact isNaN_ofMagnitude (Nat.zero_le _) negative
      · exact isNaN_ofRatio _ _ _

theorem isNaN_ofInt (i : Int) : (ofInt i).isNaN = false := isNaN_ofRatio _ _ _

theorem isNaN_of_isFinite {x : Binary64} (h : x.isFinite = true) : x.isNaN = false := by
  unfold isFinite at h
  unfold isNaN
  rw [decide_eq_true_eq] at h
  rw [decide_eq_false_iff_not]
  omega

end EntityStore.Binary64
