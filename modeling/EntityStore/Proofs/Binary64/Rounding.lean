import EntityStore.Proofs.Binary64.Bits
import EntityStore.Binary64.Shortest
import Mathlib.Algebra.Order.Field.Power
import Mathlib.Algebra.Order.Ring.Rat
import Mathlib.Tactic.FieldSimp
import Mathlib.Tactic.Linarith
import Mathlib.Tactic.NormNum
import Mathlib.Tactic.Positivity
import Mathlib.Tactic.Ring

/-!
# What rounds to a number

Around every finite number lies an interval of fractions, and **a fraction of the interval of a
number rounds to that number**. Fractions are rational numbers here; the integers the library
computes with are their numerators and denominators, brought to one unit.

Half a unit lies on either side of a number. Below a power of two the unit is half as large, so
there the interval is shorter, and a fraction on that side rounds on the finer grid, from which a
carry into the exponent leads back to the number.
-/

namespace EntityStore.Binary64

/-! ## Powers as fractions -/

theorem zpow_eq_div {b : ℚ} (k : ℤ) : b ^ k = b ^ k.toNat / b ^ (-k).toNat := by
  rcases k.eq_nat_or_neg with ⟨n, rfl | rfl⟩ <;> simp

/-- Numerator and denominator on the grid of a power of two. -/
theorem div_zpow_eq (num den : Nat) (unit : ℤ) :
    ((num * Nat.pow 2 (-unit).toNat : Nat) : ℚ) / (den * Nat.pow 2 unit.toNat : Nat)
      = (num : ℚ) / den / 2 ^ unit := by
  simp only [Nat.pow_eq]
  push_cast
  rw [zpow_eq_div unit, div_div_eq_mul_div, div_mul_eq_mul_div, div_div]

theorem lt_zpow_iff {num den : Nat} (hden : 0 < den) (k : ℤ) :
    num * Nat.pow 2 (-k).toNat < den * Nat.pow 2 k.toNat ↔ (num : ℚ) / den < 2 ^ k := by
  have hden' : (0 : ℚ) < den := by exact_mod_cast hden
  have hpow : (0 : ℚ) < 2 ^ (-k).toNat := by positivity
  simp only [Nat.pow_eq]
  rw [zpow_eq_div k, div_lt_div_iff₀ hden' hpow, ← Nat.cast_lt (α := ℚ)]
  push_cast
  rw [mul_comm (den : ℚ)]

/-- **The binary exponent of a fraction.** -/
theorem binaryExponent_spec {num den : Nat} (hnum : 0 < num) (hden : 0 < den) :
    (2 : ℚ) ^ binaryExponent num den ≤ (num : ℚ) / den ∧
      (num : ℚ) / den < 2 ^ (binaryExponent num den + 1) := by
  have hden' : (0 : ℚ) < den := by exact_mod_cast hden
  -- both logarithms are off by less than one
  have hlow : (2 : ℚ) ^ ((num.log2 : ℤ) - den.log2 - 1) < (num : ℚ) / den := by
    have h1 : (2 : ℚ) ^ (num.log2 : ℤ) ≤ num := by exact_mod_cast Nat.log2_self_le (by omega)
    have h2 : (den : ℚ) < 2 ^ ((den.log2 : ℤ) + 1) := by exact_mod_cast Nat.lt_log2_self
    rw [lt_div_iff₀ hden']
    calc (2 : ℚ) ^ ((num.log2 : ℤ) - den.log2 - 1) * den
        < 2 ^ ((num.log2 : ℤ) - den.log2 - 1) * 2 ^ ((den.log2 : ℤ) + 1) := by gcongr
      _ = 2 ^ (num.log2 : ℤ) := by rw [← zpow_add₀ (by norm_num)]; congr 1; ring
      _ ≤ num := h1
  have hhigh : (num : ℚ) / den < 2 ^ ((num.log2 : ℤ) - den.log2 + 1) := by
    have h1 : (num : ℚ) < 2 ^ ((num.log2 : ℤ) + 1) := by exact_mod_cast Nat.lt_log2_self
    have h2 : (2 : ℚ) ^ (den.log2 : ℤ) ≤ den := by exact_mod_cast Nat.log2_self_le (by omega)
    rw [div_lt_iff₀ hden']
    calc (num : ℚ) < 2 ^ ((num.log2 : ℤ) + 1) := h1
      _ = 2 ^ ((num.log2 : ℤ) - den.log2 + 1) * 2 ^ (den.log2 : ℤ) := by
          rw [← zpow_add₀ (by norm_num)]; congr 1; ring
      _ ≤ 2 ^ ((num.log2 : ℤ) - den.log2 + 1) * den := by gcongr
  unfold binaryExponent
  dsimp only
  split
  case isTrue h =>
    rw [lt_zpow_iff hden] at h
    exact ⟨hlow.le, by rwa [sub_add_cancel]⟩
  case isFalse h =>
    rw [lt_zpow_iff hden, not_lt] at h
    exact ⟨h, hhigh⟩

/-- The exponent is the only one that fits. -/
theorem le_of_zpow_le {a b : ℤ} {r : ℚ} (ha : (2 : ℚ) ^ a ≤ r) (hb : r < 2 ^ (b + 1)) : a ≤ b := by
  have h := lt_of_le_of_lt ha hb
  rw [zpow_lt_zpow_iff_right₀ (by norm_num)] at h
  omega

/-! ## Rounding to a whole number -/

/-- A fraction that is nearest to `q`, or half way between and `q` is even, rounds to `q`. -/
theorem roundHalfEven_eq {num den q : Nat} (hden : 0 < den)
    (hlow : (q : ℚ) - 1 / 2 < (num : ℚ) / den ∨ q % 2 = 0 ∧ (q : ℚ) - 1 / 2 = (num : ℚ) / den)
    (hhigh : (num : ℚ) / den < (q : ℚ) + 1 / 2 ∨ q % 2 = 0 ∧ (num : ℚ) / den = (q : ℚ) + 1 / 2) :
    roundHalfEven num den = q := by
  have hden' : (0 : ℚ) < den := by exact_mod_cast hden
  -- the same in natural numbers
  have hlow' : 2 * q * den < 2 * num + den ∨ q % 2 = 0 ∧ 2 * q * den = 2 * num + den := by
    rcases hlow with h | ⟨heven, h⟩
    · left
      rw [lt_div_iff₀ hden'] at h
      have : (2 * q * den : ℚ) < 2 * num + den := by linarith
      exact_mod_cast this
    · right
      rw [eq_div_iff hden'.ne'] at h
      have : (2 * q * den : ℚ) = 2 * num + den := by linarith
      exact ⟨heven, by exact_mod_cast this⟩
  have hhigh' : 2 * num < 2 * q * den + den ∨ q % 2 = 0 ∧ 2 * num = 2 * q * den + den := by
    rcases hhigh with h | ⟨heven, h⟩
    · left
      rw [div_lt_iff₀ hden'] at h
      have : (2 * num : ℚ) < 2 * q * den + den := by linarith
      exact_mod_cast this
    · right
      rw [div_eq_iff hden'.ne'] at h
      have : (2 * num : ℚ) = 2 * q * den + den := by linarith
      exact ⟨heven, by exact_mod_cast this⟩
  have hdiv : den * (num / den) + num % den = num := Nat.div_add_mod num den
  have hmod : num % den < den := Nat.mod_lt _ hden
  -- `q` is the quotient or the number after it
  have hq : q = num / den ∨ q = num / den + 1 := by
    have hle : num / den ≤ q := by
      by_contra hlt
      have hstep : den * (q + 1) ≤ den * (num / den) := Nat.mul_le_mul_left _ (by omega)
      have : 2 * q * den = 2 * (den * q) := by ring
      rw [Nat.mul_add] at hstep
      omega
    have hge : q ≤ num / den + 1 := by
      by_contra hlt
      have hstep : den * (num / den + 2) ≤ den * q := Nat.mul_le_mul_left _ (by omega)
      have : 2 * q * den = 2 * (den * q) := by ring
      rw [Nat.mul_add] at hstep
      omega
    omega
  unfold roundHalfEven
  dsimp only
  rcases hq with rfl | rfl
  · have : 2 * (num / den) * den = 2 * (den * (num / den)) := by ring
    rcases hhigh' with h | ⟨heven, h⟩
    · rw [if_pos (by omega)]
    · rw [if_neg (by omega), if_neg (by omega)]
      omega
  · have : 2 * (num / den + 1) * den = 2 * (den * (num / den)) + 2 * den := by ring
    rcases hlow' with h | ⟨heven, h⟩
    · rw [if_neg (by omega), if_pos (by omega)]
    · rw [if_neg (by omega), if_neg (by omega)]
      omega

/-! ## Significand and exponent -/

section Finite

variable {x : Binary64}

theorem magnitude_eq (x : Binary64) :
    (x.magnitude : ℤ) = (x.exponent + 1074) * binade + x.significand := by
  unfold exponent significand
  split
  case isTrue h => simp
  case isFalse h =>
    have hdiv : binade * (x.magnitude / binade) + x.magnitude % binade = x.magnitude :=
      Nat.div_add_mod _ _
    have hcast : (binade : ℤ) * (x.magnitude / binade : Nat) + (x.magnitude % binade : Nat)
        = x.magnitude := by exact_mod_cast hdiv
    push_cast at hcast ⊢
    linarith

theorem significand_lt (x : Binary64) : x.significand < 2 * binade := by
  have hmod : x.magnitude % binade < binade := Nat.mod_lt _ (by decide)
  unfold significand
  split <;> omega

theorem significand_add_one_le (x : Binary64) : (x.significand : ℚ) + 1 ≤ 2 ^ (53 : ℤ) := by
  have hlt := significand_lt x
  have hbinade : binade = 2 ^ 52 := rfl
  have htop : x.significand + 1 ≤ 2 ^ 53 := by omega
  exact_mod_cast htop

theorem le_exponent (x : Binary64) : -1074 ≤ x.exponent := by
  unfold exponent
  split
  · omega
  case isFalse h =>
    have : 1 ≤ x.magnitude / binade := (Nat.one_le_div_iff (by decide)).mpr (by omega)
    omega

/-- Above the lowest exponent a significand has its leading bit. -/
theorem binade_le_significand (h : -1074 < x.exponent) : binade ≤ x.significand := by
  unfold exponent at h
  unfold significand
  split at h
  · omega
  case isFalse hm =>
    rw [if_neg hm]
    omega

theorem significand_pos (hzero : x.isZero = false) : 0 < x.significand := by
  have hne : x.magnitude ≠ 0 := by simpa [isZero] using hzero
  have hbinade : 0 < binade := by decide
  unfold significand
  split <;> omega

/-- Above the lowest exponent a number lies two powers of two above zero. -/
theorem two_binade_le_magnitude (h : -1074 < x.exponent) : 2 * binade ≤ x.magnitude := by
  have hm := binade_le_significand h
  have heq := magnitude_eq x
  have hmul : (binade : ℤ) ≤ (x.exponent + 1074) * binade := by
    have : (1 : ℤ) * binade ≤ (x.exponent + 1074) * binade :=
      mul_le_mul_of_nonneg_right (by omega) (by positivity)
    linarith
  omega

end Finite

/-! ## The interval of a number -/

/-- The fraction lies between the ends of the interval, or on one of them if they belong to it. -/
structure Interval.Contains (v : Interval) (r : ℚ) : Prop where
  low : ((v.centre : ℚ) - v.below) * 2 ^ v.scale < r ∨
    v.closed = true ∧ ((v.centre : ℚ) - v.below) * 2 ^ v.scale = r
  high : r < ((v.centre : ℚ) + v.above) * 2 ^ v.scale ∨
    v.closed = true ∧ r = ((v.centre : ℚ) + v.above) * 2 ^ v.scale

section Interval

variable {x : Binary64} {r : ℚ}

theorem quarter_eq (x : Binary64) : (2 : ℚ) ^ (x.exponent - 2) = 2 ^ x.exponent / 4 := by
  rw [zpow_sub₀ (by norm_num)]
  norm_num

/-- A fraction of the interval is at most half a unit above the number. -/
theorem Interval.Contains.le_half (h : x.interval.Contains r) :
    r < ((x.significand : ℚ) + 1 / 2) * 2 ^ x.exponent ∨
      x.significand % 2 = 0 ∧ r = ((x.significand : ℚ) + 1 / 2) * 2 ^ x.exponent := by
  have hend : (((4 * x.significand : Nat) : ℚ) + (2 : Nat)) * 2 ^ (x.exponent - 2)
      = ((x.significand : ℚ) + 1 / 2) * 2 ^ x.exponent := by
    rw [quarter_eq]
    push_cast
    ring
  rcases h.high with h | ⟨hclosed, h⟩
  · exact .inl (hend ▸ h)
  · exact .inr ⟨by simpa [interval] using hclosed, hend ▸ h⟩

/-- It is at most half a unit below the number. -/
theorem Interval.Contains.half_le (h : x.interval.Contains r) :
    ((x.significand : ℚ) - 1 / 2) * 2 ^ x.exponent < r ∨
      x.significand % 2 = 0 ∧ ((x.significand : ℚ) - 1 / 2) * 2 ^ x.exponent = r := by
  have hpow : (0 : ℚ) < 2 ^ x.exponent := by positivity
  have hlow := h.low
  simp only [interval, quarter_eq] at hlow
  push_cast at hlow
  by_cases hnarrow : (x.significand == binade && decide (2 * binade ≤ x.magnitude)) = true
  · -- the lower end is only a quarter away
    left
    rw [if_pos hnarrow] at hlow
    have hle : (4 * (x.significand : ℚ) - (1 : Nat)) * (2 ^ x.exponent / 4) ≤ r := by
      rcases hlow with h | ⟨-, h⟩
      · exact h.le
      · exact h.le
    push_cast at hle
    nlinarith
  · rw [if_neg hnarrow] at hlow
    have hend : (4 * (x.significand : ℚ) - 2) * (2 ^ x.exponent / 4)
        = ((x.significand : ℚ) - 1 / 2) * 2 ^ x.exponent := by ring
    rw [hend] at hlow
    rcases hlow with h | ⟨hclosed, h⟩
    · exact .inl h
    · exact .inr ⟨by simpa using hclosed, h⟩

/-- Below a power of two above the lowest exponent it is at most a quarter of a unit. -/
theorem Interval.Contains.quarter_le (h : x.interval.Contains r) (hm : x.significand = binade)
    (he : -1074 < x.exponent) : ((x.significand : ℚ) - 1 / 4) * 2 ^ x.exponent ≤ r := by
  have hnarrow : (x.significand == binade && decide (2 * binade ≤ x.magnitude)) = true := by
    simp [hm, two_binade_le_magnitude he]
  have hlow := h.low
  simp only [interval, quarter_eq, if_pos hnarrow] at hlow
  have hle : (((4 * x.significand : Nat) : ℚ) - (1 : Nat)) * (2 ^ x.exponent / 4) ≤ r := by
    rcases hlow with h | ⟨-, h⟩
    · exact h.le
    · exact h.le
  push_cast at hle
  linarith

end Interval

/-! ## Rounding -/

section Rounding

variable {x : Binary64} {num den : Nat}

/-- Rounding on a grid, where that gives the magnitude of a finite number. -/
theorem ofRatio_eq (hfinite : x.isFinite = true) (hnum : 0 < num) {unit : ℤ} {q : Nat}
    (hunit : max (binaryExponent num den - 52) (-1074) = unit)
    (hq : roundHalfEven (num * Nat.pow 2 (-unit).toNat) (den * Nat.pow 2 unit.toNat) = q)
    (hsum : (unit + 1074).toNat * binade + q = x.magnitude) (negative : Bool) :
    ofRatio negative num den = ofMagnitude negative x.magnitude := by
  have hsmall : x.magnitude < infiniteMagnitude := by simpa [isFinite] using hfinite
  unfold ofRatio
  rw [if_neg (by omega)]
  dsimp only
  rw [hunit, hq, hsum, min_eq_left hsmall.le]

theorem den_mul_pow_pos (hden : 0 < den) (n : Nat) : 0 < den * Nat.pow 2 n :=
  Nat.mul_pos hden (Nat.pow_pos (by decide))

/-- Rounding on the grid of the number itself. -/
theorem ofRatio_on_grid (hfinite : x.isFinite = true) (hnum : 0 < num) (hden : 0 < den)
    (h : x.interval.Contains ((num : ℚ) / den))
    (hunit : max (binaryExponent num den - 52) (-1074) = x.exponent) (negative : Bool) :
    ofRatio negative num den = ofMagnitude negative x.magnitude := by
  have hpow : (0 : ℚ) < 2 ^ x.exponent := by positivity
  have hq : roundHalfEven (num * Nat.pow 2 (-x.exponent).toNat) (den * Nat.pow 2 x.exponent.toNat)
      = x.significand := by
    refine roundHalfEven_eq (den_mul_pow_pos hden _) ?_ ?_
    · rw [div_zpow_eq, lt_div_iff₀ hpow, eq_div_iff hpow.ne']
      exact h.half_le
    · rw [div_zpow_eq, div_lt_iff₀ hpow, div_eq_iff hpow.ne']
      exact h.le_half
  refine ofRatio_eq hfinite hnum hunit hq ?_ negative
  have hmag := magnitude_eq x
  have he := le_exponent x
  zify
  rw [hmag, Int.toNat_of_nonneg (by omega)]

/-- Rounding just below a power of two: on the finer grid, with a carry into the exponent. -/
theorem ofRatio_on_finer_grid (hfinite : x.isFinite = true) (hnum : 0 < num) (hden : 0 < den)
    (h : x.interval.Contains ((num : ℚ) / den)) (hm : x.significand = binade)
    (he : -1074 < x.exponent) (hbelow : (num : ℚ) / den < x.significand * 2 ^ x.exponent)
    (hunit : max (binaryExponent num den - 52) (-1074) = x.exponent - 1) (negative : Bool) :
    ofRatio negative num den = ofMagnitude negative x.magnitude := by
  have hpow : (0 : ℚ) < 2 ^ x.exponent := by positivity
  have hhalf : (2 : ℚ) ^ (x.exponent - 1) = 2 ^ x.exponent / 2 := by
    rw [zpow_sub₀ (by norm_num)]
    norm_num
  have hquarter := h.quarter_le hm he
  have hq : roundHalfEven (num * Nat.pow 2 (-(x.exponent - 1)).toNat)
      (den * Nat.pow 2 (x.exponent - 1).toNat) = 2 * x.significand := by
    refine roundHalfEven_eq (den_mul_pow_pos hden _) ?_ ?_
    · rw [div_zpow_eq, hhalf, lt_div_iff₀ (by positivity), eq_div_iff (by positivity)]
      push_cast
      rcases hquarter.lt_or_eq with hlt | heq
      · left
        linarith
      · right
        exact ⟨by omega, by linarith⟩
    · rw [div_zpow_eq, hhalf, div_lt_iff₀ (by positivity)]
      left
      push_cast
      linarith
  refine ofRatio_eq hfinite hnum hunit hq ?_ negative
  have hmag := magnitude_eq x
  zify
  rw [hmag, Int.toNat_of_nonneg (by omega), hm]
  ring

end Rounding

/-- **What lies in the interval of a number rounds to that number.** -/
theorem ofRatio_of_contains {x : Binary64} (hfinite : x.isFinite = true) (hzero : x.isZero = false)
    {num den : Nat} (hden : 0 < den) (h : x.interval.Contains ((num : ℚ) / den)) (negative : Bool) :
    ofRatio negative num den = ofMagnitude negative x.magnitude := by
  have hpow : (0 : ℚ) < 2 ^ x.exponent := by positivity
  have hm1 : (1 : ℚ) ≤ x.significand := by exact_mod_cast significand_pos hzero
  have hmtop := significand_add_one_le x
  have he := le_exponent x
  have hlow : ((x.significand : ℚ) - 1 / 2) * 2 ^ x.exponent ≤ (num : ℚ) / den := by
    rcases h.half_le with h | ⟨-, h⟩
    · exact h.le
    · exact h.le
  have hhigh : (num : ℚ) / den ≤ ((x.significand : ℚ) + 1 / 2) * 2 ^ x.exponent := by
    rcases h.le_half with h | ⟨-, h⟩
    · exact h.le
    · exact h.le
  have hnum : 0 < num := by
    rcases Nat.eq_zero_or_pos num with rfl | h
    · have : (0 : ℚ) < ((x.significand : ℚ) - 1 / 2) * 2 ^ x.exponent :=
        mul_pos (by linarith) hpow
      simp at hlow
      linarith
    · exact h
  obtain ⟨hk1, hk2⟩ := binaryExponent_spec hnum hden
  -- the fraction stays below the next power of two
  have htop : (num : ℚ) / den < 2 ^ (x.exponent + 52 + 1) := by
    refine lt_of_le_of_lt hhigh ?_
    rw [add_assoc, zpow_add₀ (by norm_num), mul_comm]
    refine mul_lt_mul_of_pos_left ?_ hpow
    norm_num at hmtop ⊢
    linarith
  have hkle := le_of_zpow_le hk1 htop
  by_cases hgrid : binaryExponent num den = x.exponent + 52 ∨ x.exponent = -1074
  · exact ofRatio_on_grid hfinite hnum hden h (by omega) negative
  · rw [not_or] at hgrid
    obtain ⟨hkne, hene⟩ := hgrid
    have hbelow : (num : ℚ) / den < 2 ^ (x.exponent + 52) :=
      lt_of_lt_of_le hk2 (zpow_le_zpow_right₀ (by norm_num) (by omega))
    -- the significand is a power of two, or the fraction would be above one
    have hlead := binade_le_significand (x := x) (by omega)
    have hmeq : x.significand = binade := by
      by_contra hne
      have hgt : (2 : ℚ) ^ (52 : ℤ) + 1 ≤ x.significand := by
        have hbinade : binade = 2 ^ 52 := rfl
        have : 2 ^ 52 + 1 ≤ x.significand := by omega
        exact_mod_cast this
      have hge : (2 : ℚ) ^ (x.exponent + 52) ≤ ((x.significand : ℚ) - 1 / 2) * 2 ^ x.exponent := by
        rw [zpow_add₀ (by norm_num), mul_comm]
        exact mul_le_mul_of_nonneg_right (by linarith) hpow.le
      linarith
    have hpower : (x.significand : ℚ) * 2 ^ x.exponent = 2 ^ (x.exponent + 52) := by
      rw [zpow_add₀ (by norm_num), hmeq, mul_comm]
      norm_num [binade]
    have hkeq : binaryExponent num den = x.exponent + 51 := by
      have hquarter := h.quarter_le hmeq (by omega)
      have hle : (2 : ℚ) ^ (x.exponent + 51) ≤ (num : ℚ) / den := by
        refine le_trans ?_ hquarter
        rw [zpow_add₀ (by norm_num), mul_comm, hmeq]
        refine mul_le_mul_of_nonneg_right ?_ hpow.le
        norm_num [binade]
      have := le_of_zpow_le hle hk2
      omega
    exact ofRatio_on_finer_grid hfinite hnum hden h hmeq (by omega) (hpower ▸ hbelow) (by omega) negative

end EntityStore.Binary64
