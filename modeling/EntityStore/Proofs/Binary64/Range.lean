import EntityStore.Proofs.Binary64.Decimals

/-!
# Results that are finite, and in order

A fraction below half of what would round to infinity rounds to a finite number. So a product is finite
unless it is infinite, and **a quotient of a finite number by eight or more is finite**.

The larger of two fractions lies on a grid that is as coarse or coarser. On one grid rounding keeps the
order; of two grids the finer ends where the coarser begins. So **of two integers the larger is never
read as the smaller float**, though the two may well be read as one.
-/

namespace EntityStore.Binary64

variable {x y : Binary64} {num den : Nat}

theorem isFinite_ofMagnitude {m : Nat} (hm : m < infiniteMagnitude) (negative : Bool) :
    (ofMagnitude negative m).isFinite = true := by
  have hlt : m < signBit := Nat.lt_trans hm (by decide)
  rw [isFinite, magnitude_ofMagnitude hlt]
  exact decide_eq_true hm

theorem isFinite_negate (h : x.isFinite = true) : x.negate.isFinite = true :=
  isFinite_ofMagnitude (of_decide_eq_true h) _

theorem isFinite_of_not_infinite (hnan : x.isNaN = false) (hinf : x.isInfinite = false) :
    x.isFinite = true := by
  have hle : ¬ infiniteMagnitude < x.magnitude := of_decide_eq_false hnan
  have hne : x.magnitude ≠ infiniteMagnitude := by simpa [isInfinite] using hinf
  exact decide_eq_true (by omega)

theorem roundHalfEven_le {k : Nat} (h : num < k * den) : roundHalfEven num den ≤ k := by
  have hq : num / den < k := Nat.div_lt_of_lt_mul (by rwa [Nat.mul_comm])
  unfold roundHalfEven
  simp only
  split
  · omega
  · split <;> omega

theorem le_roundHalfEven {k : Nat} (hden : 0 < den) (h : k * den ≤ num) :
    k ≤ roundHalfEven num den := by
  have hq : k ≤ num / den := (Nat.le_div_iff_mul_le hden).mpr h
  unfold roundHalfEven
  simp only
  split
  · exact hq
  · split <;> omega

section Grid

variable {unit : ℤ} (hnum : 0 < num) (hden : 0 < den)
  (hunit : max (binaryExponent num den - 52) (-1074) = unit)

include hnum hden hunit

/-- A fraction is less than `2 ^ 53` units of its grid. -/
theorem roundHalfEven_le_on_grid :
    roundHalfEven (num * Nat.pow 2 (-unit).toNat) (den * Nat.pow 2 unit.toNat) ≤ 2 ^ 53 := by
  obtain ⟨-, hhigh⟩ := binaryExponent_spec hnum hden
  have hbelow : (num : ℚ) / den / 2 ^ unit < (2 ^ 53 : Nat) := by
    have hpow : (0 : ℚ) < 2 ^ unit := by positivity
    rw [div_lt_iff₀ hpow]
    calc (num : ℚ) / den < 2 ^ (binaryExponent num den + 1) := hhigh
      _ ≤ 2 ^ ((53 : ℤ) + unit) := zpow_le_zpow_right₀ (by norm_num) (by omega)
      _ = (2 ^ 53 : Nat) * 2 ^ unit := by
        rw [zpow_add₀ (by norm_num)]
        norm_num
  have hpos := den_mul_pow_pos hden unit.toNat
  rw [← div_zpow_eq, div_lt_iff₀ (by exact_mod_cast hpos)] at hbelow
  exact roundHalfEven_le (by exact_mod_cast hbelow)

/-- A fraction is at least `2 ^ 52` units of its grid, unless that is the finest grid there is. -/
theorem le_roundHalfEven_on_grid (hcoarse : -1074 < unit) :
    2 ^ 52 ≤ roundHalfEven (num * Nat.pow 2 (-unit).toNat) (den * Nat.pow 2 unit.toNat) := by
  obtain ⟨hlow, -⟩ := binaryExponent_spec hnum hden
  have habove : ((2 ^ 52 : Nat) : ℚ) ≤ (num : ℚ) / den / 2 ^ unit := by
    have hpow : (0 : ℚ) < 2 ^ unit := by positivity
    rw [le_div_iff₀ hpow]
    calc ((2 ^ 52 : Nat) : ℚ) * 2 ^ unit = 2 ^ ((52 : ℤ) + unit) := by
          rw [zpow_add₀ (by norm_num)]
          norm_num
      _ ≤ 2 ^ binaryExponent num den := zpow_le_zpow_right₀ (by norm_num) (by omega)
      _ ≤ (num : ℚ) / den := hlow
  have hpos := den_mul_pow_pos hden unit.toNat
  rw [← div_zpow_eq, le_div_iff₀ (by exact_mod_cast hpos)] at habove
  exact le_roundHalfEven hpos (by exact_mod_cast habove)

end Grid

/-- **What does not come near infinity** rounds to a finite number. -/
theorem isFinite_ofRatio (hden : 0 < den) (h : (num : ℚ) / den < 2 ^ (1023 : ℤ)) (negative : Bool) :
    (ofRatio negative num den).isFinite = true := by
  unfold ofRatio
  split
  · exact isFinite_ofMagnitude (by decide) negative
  · next hnum =>
    obtain ⟨hlow, -⟩ := binaryExponent_spec (Nat.pos_of_ne_zero hnum) hden
    have hexponent : binaryExponent num den ≤ 1022 := le_of_zpow_le hlow h
    generalize hunit : max (binaryExponent num den - 52) (-1074) = unit
    have hq := roundHalfEven_le_on_grid (Nat.pos_of_ne_zero hnum) hden hunit
    have hbinade : binade = 2 ^ 52 := rfl
    have hinf : infiniteMagnitude = 2047 * 2 ^ 52 := rfl
    have hunits : (unit + 1074).toNat ≤ 2044 := by omega
    have hmul : (unit + 1074).toNat * binade ≤ 2044 * binade := Nat.mul_le_mul_right _ hunits
    refine isFinite_ofMagnitude ?_ negative
    omega

theorem isFinite_ofRatio_one {n : Nat} (h : n < 2 ^ 64) (negative : Bool) :
    (ofRatio negative n 1).isFinite = true := by
  refine isFinite_ofRatio Nat.one_pos ?_ negative
  rw [Nat.cast_one, div_one]
  calc (n : ℚ) < 2 ^ (64 : ℤ) := by exact_mod_cast h
    _ < 2 ^ (1023 : ℤ) := zpow_lt_zpow_right₀ (by norm_num) (by norm_num)

theorem isFinite_mulMagnitude (h : (x.mulMagnitude y).isInfinite = false) :
    (x.mulMagnitude y).isFinite = true :=
  isFinite_of_not_infinite (isNaN_ofRatio ..) h

theorem ratio_snd_pos (x : Binary64) : 0 < x.ratio.2 := Nat.pow_pos (by decide)

theorem ratio_lt (h : x.isFinite = true) : (x.ratio.1 : ℚ) / x.ratio.2 < 2 ^ (1025 : ℤ) := by
  have hm : (x.significand : ℚ) < 2 ^ (53 : ℤ) := by
    have hlt := significand_lt x
    have hbinade : binade = 2 ^ 52 := rfl
    exact_mod_cast (by omega : x.significand < 2 ^ 53)
  have hratio : (x.ratio.1 : ℚ) / x.ratio.2 = x.significand * 2 ^ x.exponent := by
    unfold ratio
    simp only [Nat.pow_eq]
    push_cast
    rw [zpow_eq_div x.exponent, mul_div_assoc]
  have he := exponent_le h
  rw [hratio]
  calc (x.significand : ℚ) * 2 ^ x.exponent < 2 ^ (53 : ℤ) * 2 ^ x.exponent := by gcongr
    _ = 2 ^ (53 + x.exponent) := by rw [zpow_add₀ (by norm_num)]
    _ ≤ 2 ^ (1025 : ℤ) := zpow_le_zpow_right₀ (by norm_num) (by omega)

/-- **Dividing by eight or more** stays finite. -/
theorem isFinite_divMagnitude (hx : x.isFinite = true) (hy : 8 * y.ratio.2 ≤ y.ratio.1) :
    (x.divMagnitude y).isFinite = true := by
  have hxpos := x.ratio_snd_pos
  have hypos := y.ratio_snd_pos
  have hy1 : 0 < y.ratio.1 := by omega
  refine isFinite_ofRatio (Nat.mul_pos hxpos hy1) ?_ false
  have hy' : (y.ratio.2 : ℚ) / y.ratio.1 ≤ 1 / 8 := by
    rw [div_le_div_iff₀ (by exact_mod_cast hy1) (by norm_num)]
    exact_mod_cast (by omega : y.ratio.2 * 8 ≤ 1 * y.ratio.1)
  have hsplit : ((x.ratio.1 * y.ratio.2 : Nat) : ℚ) / (x.ratio.2 * y.ratio.1 : Nat)
      = (x.ratio.1 : ℚ) / x.ratio.2 * (y.ratio.2 / y.ratio.1) := by
    rw [Nat.cast_mul, Nat.cast_mul, mul_div_mul_comm]
  rw [hsplit]
  calc (x.ratio.1 : ℚ) / x.ratio.2 * (y.ratio.2 / y.ratio.1)
      ≤ (x.ratio.1 : ℚ) / x.ratio.2 * (1 / 8) := mul_le_mul_of_nonneg_left hy' (by positivity)
    _ < 2 ^ (1025 : ℤ) * (1 / 8) := mul_lt_mul_of_pos_right (ratio_lt hx) (by norm_num)
    _ = 2 ^ (1022 : ℤ) := by
      rw [show (1025 : ℤ) = 1022 + 3 by norm_num, zpow_add₀ (by norm_num), mul_assoc]
      norm_num
    _ < 2 ^ (1023 : ℤ) := zpow_lt_zpow_right₀ (by norm_num) (by norm_num)

/-- What is eight or more rounds to eight or more. -/
theorem le_magnitude_ofRatio_one {n : Nat} (h : 8 ≤ n) (negative : Bool) :
    1026 * binade ≤ (ofRatio negative n 1).magnitude := by
  obtain ⟨hlow, hhigh⟩ := binaryExponent_spec (by omega : 0 < n) Nat.one_pos
  have hexponent : 3 ≤ binaryExponent n 1 := by
    refine le_of_zpow_le (r := (n : ℚ) / (1 : Nat)) ?_ hhigh
    rw [Nat.cast_one, div_one]
    exact_mod_cast h
  unfold ofRatio
  rw [if_neg (by omega)]
  generalize hunit : max (binaryExponent n 1 - 52) (-1074) = unit
  have hq := le_roundHalfEven_on_grid (by omega : 0 < n) Nat.one_pos hunit (by omega)
  have hunits : 1025 ≤ (unit + 1074).toNat := by omega
  have hmul : 1025 * binade ≤ (unit + 1074).toNat * binade := Nat.mul_le_mul_right _ hunits
  have hlt : ∀ m, min m infiniteMagnitude < signBit :=
    fun m => Nat.lt_of_le_of_lt (Nat.min_le_right m _) (by decide)
  rw [magnitude_ofMagnitude (hlt _)]
  refine Nat.le_min.mpr ⟨?_, by decide⟩
  have hbinade : binade = 2 ^ 52 := rfl
  omega

theorem eight_le_ratio (h : 1026 * binade ≤ x.magnitude) : 8 * x.ratio.2 ≤ x.ratio.1 := by
  have hbinade : binade = 2 ^ 52 := rfl
  have hdiv : 1026 ≤ x.magnitude / binade := (Nat.le_div_iff_mul_le (by decide)).mpr h
  have hexponent : -49 ≤ x.exponent := by
    unfold exponent
    split <;> omega
  have hsignificand : 2 ^ 52 ≤ x.significand := by
    unfold significand
    split <;> omega
  unfold ratio
  simp only [Nat.pow_eq]
  calc 8 * 2 ^ (-x.exponent).toNat ≤ 8 * 2 ^ 49 :=
        Nat.mul_le_mul_left 8 (Nat.pow_le_pow_right (by decide) (by omega))
    _ ≤ x.significand := by omega
    _ ≤ x.significand * 2 ^ x.exponent.toNat := Nat.le_mul_of_pos_right _ (by positivity)

/-- Powers of ten are eight or more. -/
theorem eight_le_ratio_ten {k : Nat} (hpos : 0 < k) (hk : k ≤ 308) :
    8 * (ofDecimal false 1 k).ratio.2 ≤ (ofDecimal false 1 k).ratio.1 := by
  have hratio : ofDecimal false 1 k = ofRatio false (10 ^ k) 1 := by
    have hlog : Nat.log2 1 = 0 := by decide
    unfold ofDecimal
    rw [if_neg Nat.one_ne_zero, hlog, if_neg (by omega), if_neg (by omega)]
    simp
  rw [hratio]
  refine eight_le_ratio (le_magnitude_ofRatio_one ?_ false)
  calc 8 ≤ 10 ^ 1 := by decide
    _ ≤ 10 ^ k := Nat.pow_le_pow_right (by decide) hpos

/-! ## Rounding keeps the order -/

theorem roundHalfEven_mono {m n den : Nat} (hden : 0 < den) (h : m ≤ n) :
    roundHalfEven m den ≤ roundHalfEven n den := by
  have hq : m / den ≤ n / den := Nat.div_le_div_right h
  rcases Nat.lt_or_eq_of_le hq with hlt | hsame
  · -- a whole number lies between the two
    have hbelow : m < (m / den + 1) * den := Nat.lt_mul_of_div_lt (Nat.lt_succ_self _) hden
    calc roundHalfEven m den ≤ m / den + 1 := roundHalfEven_le hbelow
      _ ≤ n / den := hlt
      _ ≤ roundHalfEven n den := le_roundHalfEven hden (Nat.div_mul_le_self n den)
  · have hr : m % den ≤ n % den := by
      have hm := Nat.div_add_mod m den
      have hn := Nat.div_add_mod n den
      rw [hsame] at hm
      omega
    unfold roundHalfEven
    simp only [hsame]
    split_ifs <;> omega

theorem magnitude_ofRatio (negative : Bool) {num den : Nat} (hnum : num ≠ 0) {unit : ℤ}
    (hunit : max (binaryExponent num den - 52) (-1074) = unit) :
    (ofRatio negative num den).magnitude
      = min ((unit + 1074).toNat * binade
          + roundHalfEven (num * Nat.pow 2 (-unit).toNat) (den * Nat.pow 2 unit.toNat))
        infiniteMagnitude := by
  have hlt : ∀ m, min m infiniteMagnitude < signBit :=
    fun m => Nat.lt_of_le_of_lt (Nat.min_le_right m _) (by decide)
  unfold ofRatio
  rw [if_neg hnum, hunit, magnitude_ofMagnitude (hlt _)]

/-- **The larger fraction is rounded to the larger magnitude**, or to the same. -/
theorem magnitude_ofRatio_mono {m n den : Nat} (hden : 0 < den) (h : m ≤ n) (s t : Bool) :
    (ofRatio s m den).magnitude ≤ (ofRatio t n den).magnitude := by
  by_cases hm : m = 0
  · have hzero : (ofRatio s m den).magnitude = 0 := by
      rw [hm, ofRatio, if_pos rfl, magnitude_ofMagnitude (by decide)]
    omega
  have hmpos : 0 < m := Nat.pos_of_ne_zero hm
  have hnpos : 0 < n := Nat.lt_of_lt_of_le hmpos h
  have hexponent : binaryExponent m den ≤ binaryExponent n den := by
    refine le_of_zpow_le (binaryExponent_spec hmpos hden).1 ?_
    refine lt_of_le_of_lt ?_ (binaryExponent_spec hnpos hden).2
    have hden' : (0 : ℚ) < den := by exact_mod_cast hden
    exact div_le_div_of_nonneg_right (by exact_mod_cast h) hden'.le
  generalize hu : max (binaryExponent m den - 52) (-1074) = u
  generalize hv : max (binaryExponent n den - 52) (-1074) = v
  rw [magnitude_ofRatio s hm hu, magnitude_ofRatio t (Nat.ne_of_gt hnpos) hv]
  have hle : u ≤ v := by omega
  refine min_le_min_right _ ?_
  by_cases hsame : u = v
  · rw [hsame]
    exact Nat.add_le_add_left (roundHalfEven_mono (den_mul_pow_pos hden _) (Nat.mul_le_mul_right _ h)) _
  · -- the finer grid reaches up to the first line of the coarser one
    have hfine := roundHalfEven_le_on_grid hmpos hden hu
    have hcoarse := le_roundHalfEven_on_grid hnpos hden hv (by omega)
    have hbinade : binade = 2 ^ 52 := rfl
    have hunits : (u + 1074).toNat + 1 ≤ (v + 1074).toNat := by omega
    have hmul := Nat.mul_le_mul_right binade hunits
    rw [Nat.add_mul, one_mul] at hmul
    omega

/-- The place of a fraction on the line. -/
theorem rank_ofRatio (negative : Bool) (num den : Nat) :
    (ofRatio negative num den).rank
      = if negative then -((ofRatio negative num den).magnitude : ℤ)
        else (ofRatio negative num den).magnitude := by
  have hsign : ∀ {m : Nat}, m < signBit → (ofMagnitude negative m).isNegative = negative := by
    intro m hm
    rw [isNegative, bits_ofMagnitude hm]
    cases negative
    · simpa using hm
    · simp
  have hlt : ∀ m, min m infiniteMagnitude < signBit :=
    fun m => Nat.lt_of_le_of_lt (Nat.min_le_right m _) (by decide)
  have hnegative : (ofRatio negative num den).isNegative = negative := by
    unfold ofRatio
    split
    · exact hsign (by decide)
    · exact hsign (hlt _)
  rw [rank, hnegative]

/-- **Integers keep their order when they are read as floats.** -/
theorem rank_ofInt_mono {i j : ℤ} (h : i ≤ j) : (ofInt i).rank ≤ (ofInt j).rank := by
  unfold ofInt
  rw [rank_ofRatio, rank_ofRatio]
  have hmono : ∀ {m n : Nat} (s t : Bool), m ≤ n →
      ((ofRatio s m 1).magnitude : ℤ) ≤ (ofRatio t n 1).magnitude := fun s t hmn => by
    exact_mod_cast magnitude_ofRatio_mono Nat.one_pos hmn s t
  by_cases hi : i < 0
  · by_cases hj : j < 0
    · simp only [hi, hj, decide_true, if_true]
      exact neg_le_neg (hmono true true (by omega))
    · simp only [hi, hj, decide_true, decide_false, if_true, Bool.false_eq_true, if_false]
      omega
  · have hj : ¬ j < 0 := by omega
    simp only [hi, hj, decide_false, Bool.false_eq_true, if_false]
    exact hmono false false (by omega)

end EntityStore.Binary64
