import EntityStore.Proofs.Binary64.Rounding

/-!
# Decimals that read back

The shortest decimal of a number lies in the interval of the number, and **a decimal that lies in
the interval of a finite number is read as that number**. The reader gives up on powers that are
far out of range; the estimates it goes by never cut off a number. The writer tries at most
twenty-three grids, of which the last is fine enough to have a point near every number.
-/

namespace EntityStore.Binary64

/-! ## Powers of ten and of two -/

/-- `59 / 196` and `28 / 93` enclose the logarithm of two to the base ten. -/
theorem ten_zpow_le_two_zpow {p s : ℤ} (hpos : 0 ≤ s → 196 * p ≤ 59 * s)
    (hneg : s < 0 → 93 * p ≤ 28 * s) : (10 : ℚ) ^ p ≤ 2 ^ s := by
  rcases lt_or_ge s 0 with hs | hs
  · -- negative powers: the larger base gives the smaller power
    have hbase : ((10 : ℚ) ^ 28) ^ s ≤ (2 ^ 93) ^ s := by
      obtain ⟨n, rfl⟩ : ∃ n : Nat, s = -n := ⟨s.natAbs, by omega⟩
      rw [zpow_neg, zpow_neg, zpow_natCast, zpow_natCast]
      exact inv_anti₀ (by positivity) (pow_le_pow_left₀ (by positivity) (by norm_num) n)
    refine le_of_pow_le_pow_left₀ (n := 93) (by norm_num) (by positivity) ?_
    calc ((10 : ℚ) ^ p) ^ 93 = 10 ^ (93 * p) := by rw [mul_comm, zpow_mul]; rfl
      _ ≤ 10 ^ (28 * s) := zpow_le_zpow_right₀ (by norm_num) (hneg hs)
      _ = (10 ^ 28) ^ s := by rw [zpow_mul]; rfl
      _ ≤ (2 ^ 93) ^ s := hbase
      _ = ((2 : ℚ) ^ s) ^ 93 := by rw [← zpow_natCast, ← zpow_natCast, ← zpow_mul, ← zpow_mul, mul_comm]
  · refine le_of_pow_le_pow_left₀ (n := 196) (by norm_num) (by positivity) ?_
    calc ((10 : ℚ) ^ p) ^ 196 = 10 ^ (196 * p) := by rw [mul_comm, zpow_mul]; rfl
      _ ≤ 10 ^ (59 * s) := zpow_le_zpow_right₀ (by norm_num) (hpos hs)
      _ = (10 ^ 59) ^ s := by rw [zpow_mul]; rfl
      _ ≤ (2 ^ 196) ^ s := zpow_le_zpow_left₀ hs (by positivity) (by norm_num)
      _ = ((2 : ℚ) ^ s) ^ 196 := by rw [← zpow_natCast, ← zpow_natCast, ← zpow_mul, ← zpow_mul, mul_comm]

theorem two_zpow_le_ten_zpow {p s : ℤ} (hpos : 0 < s → 28 * s ≤ 93 * p)
    (hneg : s ≤ 0 → 59 * s ≤ 196 * p) : (2 : ℚ) ^ s ≤ 10 ^ p := by
  have h : (10 : ℚ) ^ (-p) ≤ 2 ^ (-s) := ten_zpow_le_two_zpow (by omega) (by omega)
  rw [zpow_neg, zpow_neg] at h
  exact (inv_le_inv₀ (by positivity) (by positivity)).mp h

/-! ## Powers that are out of range -/

section Reader

variable {x : Binary64} {digits : Nat} {power : ℤ}

theorem exponent_le (hfinite : x.isFinite = true) : x.exponent ≤ 972 := by
  have hsmall : x.magnitude < infiniteMagnitude := by simpa [isFinite] using hfinite
  have hmag := magnitude_eq x
  have hinf : (infiniteMagnitude : ℤ) = 2047 * binade := by rfl
  by_contra hgt
  have hmul : (2047 : ℤ) * binade ≤ (x.exponent + 1074) * binade :=
    mul_le_mul_of_nonneg_right (by omega) (by positivity)
  omega

/-- What lies in the interval of a finite number is far from overflowing. -/
theorem Interval.Contains.le_top (hfinite : x.isFinite = true) {r : ℚ} (h : x.interval.Contains r) :
    r ≤ 2 ^ (1025 : ℤ) := by
  have hm := significand_add_one_le x
  have he := exponent_le hfinite
  have hpow : (0 : ℚ) < 2 ^ x.exponent := by positivity
  have hle : r ≤ ((x.significand : ℚ) + 1 / 2) * 2 ^ x.exponent := by
    rcases h.le_half with h | ⟨-, h⟩
    · exact h.le
    · exact h.le
  calc r ≤ ((x.significand : ℚ) + 1 / 2) * 2 ^ x.exponent := hle
    _ ≤ 2 ^ (53 : ℤ) * 2 ^ x.exponent := mul_le_mul_of_nonneg_right (by linarith) hpow.le
    _ = 2 ^ (53 + x.exponent) := by rw [zpow_add₀ (by norm_num)]
    _ ≤ 2 ^ (1025 : ℤ) := zpow_le_zpow_right₀ (by norm_num) (by omega)

/-- And far from vanishing. -/
theorem Interval.Contains.bottom_le (hzero : x.isZero = false) {r : ℚ} (h : x.interval.Contains r) :
    2 ^ (-1075 : ℤ) ≤ r := by
  have hm : (1 : ℚ) ≤ x.significand := by exact_mod_cast significand_pos hzero
  have he := le_exponent x
  have hle : ((x.significand : ℚ) - 1 / 2) * 2 ^ x.exponent ≤ r := by
    rcases h.half_le with h | ⟨-, h⟩
    · exact h.le
    · exact h.le
  calc (2 : ℚ) ^ (-1075 : ℤ) ≤ 2 ^ (x.exponent - 1) := zpow_le_zpow_right₀ (by norm_num) (by omega)
    _ = 1 / 2 * 2 ^ x.exponent := by
        rw [zpow_sub₀ (by norm_num), zpow_one, div_eq_mul_inv, mul_comm]
        norm_num
    _ ≤ ((x.significand : ℚ) - 1 / 2) * 2 ^ x.exponent :=
        mul_le_mul_of_nonneg_right (by linarith) (by positivity)
    _ ≤ r := hle

/-- The reader does not give up on it as too large. -/
theorem not_too_large (hfinite : x.isFinite = true) (hdigits : digits ≠ 0)
    (h : x.interval.Contains ((digits : ℚ) * 10 ^ power)) :
    ¬ 400 < ((Nat.log2 digits : Nat) : ℤ) * 301 / 1000 + power := by
  intro hlarge
  have hlog : (2 : ℚ) ^ ((Nat.log2 digits : Nat) : ℤ) ≤ digits := by
    exact_mod_cast Nat.log2_self_le hdigits
  have hbit : 0 ≤ ((Nat.log2 digits : Nat) : ℤ) := by positivity
  generalize ((Nat.log2 digits : Nat) : ℤ) = bit at hlarge hlog hbit
  have hpow : (0 : ℚ) < 10 ^ power := by positivity
  have hten : (10 : ℚ) ^ (bit * 301 / 1000) ≤ 2 ^ bit :=
    ten_zpow_le_two_zpow (by omega) (by omega)
  have hge : (10 : ℚ) ^ (401 : ℤ) ≤ digits * 10 ^ power := by
    calc (10 : ℚ) ^ (401 : ℤ) ≤ 10 ^ (bit * 301 / 1000 + power) :=
          zpow_le_zpow_right₀ (by norm_num) (by omega)
      _ = 10 ^ (bit * 301 / 1000) * 10 ^ power := zpow_add₀ (by norm_num) _ _
      _ ≤ digits * 10 ^ power := mul_le_mul_of_nonneg_right (hten.trans hlog) hpow.le
  have htop := h.le_top hfinite
  have hnext : (2 : ℚ) ^ (1026 : ℤ) ≤ 10 ^ (401 : ℤ) :=
    two_zpow_le_ten_zpow (by omega) (by omega)
  have hlt : (2 : ℚ) ^ (1025 : ℤ) < 2 ^ (1026 : ℤ) :=
    zpow_lt_zpow_right₀ (by norm_num) (by omega)
  exact absurd (hnext.trans (hge.trans htop)) (not_le.mpr hlt)

/-- Nor as too small. -/
theorem not_too_small (hzero : x.isZero = false)
    (h : x.interval.Contains ((digits : ℚ) * 10 ^ power)) :
    ¬ ((Nat.log2 digits : Nat) : ℤ) * 302 / 1000 + power < -800 := by
  intro hsmall
  have hlog : (digits : ℚ) ≤ 2 ^ (((Nat.log2 digits : Nat) : ℤ) + 1) := by
    exact_mod_cast Nat.lt_log2_self.le
  have hbit : 0 ≤ ((Nat.log2 digits : Nat) : ℤ) := by positivity
  generalize ((Nat.log2 digits : Nat) : ℤ) = bit at hsmall hlog hbit
  have hpow : (0 : ℚ) < 10 ^ power := by positivity
  have hten : (2 : ℚ) ^ (bit + 1) ≤ 10 ^ (bit * 302 / 1000 + 2) :=
    two_zpow_le_ten_zpow (by omega) (by omega)
  have hle : (digits : ℚ) * 10 ^ power ≤ 10 ^ (-799 : ℤ) := by
    calc (digits : ℚ) * 10 ^ power ≤ 10 ^ (bit * 302 / 1000 + 2) * 10 ^ power :=
          mul_le_mul_of_nonneg_right (hlog.trans hten) hpow.le
      _ = 10 ^ (bit * 302 / 1000 + 2 + power) := (zpow_add₀ (by norm_num) _ _).symm
      _ ≤ 10 ^ (-799 : ℤ) := zpow_le_zpow_right₀ (by norm_num) (by omega)
  have hbottom := h.bottom_le hzero
  have hnext : (10 : ℚ) ^ (-799 : ℤ) ≤ 2 ^ (-1076 : ℤ) :=
    ten_zpow_le_two_zpow (by omega) (by omega)
  have hlt : (2 : ℚ) ^ (-1076 : ℤ) < 2 ^ (-1075 : ℤ) :=
    zpow_lt_zpow_right₀ (by norm_num) (by omega)
  exact absurd (hbottom.trans (hle.trans hnext)) (not_le.mpr hlt)

/-- **A decimal that lies in the interval of a number is read as that number.** -/
theorem ofDecimal_of_contains (hfinite : x.isFinite = true) (hzero : x.isZero = false)
    (h : x.interval.Contains ((digits : ℚ) * 10 ^ power)) (negative : Bool) :
    ofDecimal negative digits power = ofMagnitude negative x.magnitude := by
  have hdigits : digits ≠ 0 := by
    rintro rfl
    have hbottom := h.bottom_le hzero
    have hpow : (0 : ℚ) < 2 ^ (-1075 : ℤ) := by positivity
    rw [Nat.cast_zero, zero_mul] at hbottom
    exact absurd hbottom (not_le.mpr hpow)
  have hvalue : ((digits * Nat.pow 10 power.toNat : Nat) : ℚ) / (Nat.pow 10 (-power).toNat : Nat)
      = digits * 10 ^ power := by
    simp only [Nat.pow_eq]
    push_cast
    rw [zpow_eq_div power, mul_div_assoc]
  unfold ofDecimal
  rw [if_neg hdigits]
  dsimp only
  rw [if_neg (not_too_large hfinite hdigits h), if_neg (not_too_small hzero h)]
  have hcontains : x.interval.Contains
      (((digits * Nat.pow 10 power.toNat : Nat) : ℚ) / (Nat.pow 10 (-power).toNat : Nat)) := by
    rw [hvalue]
    exact h
  exact ofRatio_of_contains hfinite hzero (Nat.pow_pos (by decide)) hcontains negative

end Reader

/-! ## The search for the shortest decimal -/

namespace Interval

variable {tie : Tie} {v : Interval}

/-- A whole number lies in the interval, measured in the interval's own units. -/
def Holds (v : Interval) (n : Nat) : Prop :=
  ((v.centre : ℤ) - v.below < n ∨ v.closed = true ∧ (v.centre : ℤ) - v.below = n) ∧
    ((n : ℤ) < v.centre + v.above ∨ v.closed = true ∧ (n : ℤ) = v.centre + v.above)

/-- The point of a grid that is tried is a point of the interval. -/
theorem nearest?_holds {step n : Nat} (hstep : 0 < step) (hbelow : 0 < v.below)
    (habove : 0 < v.above) (h : v.nearest? tie step = some n) : v.Holds (n * step) := by
  have hdiv : step * (v.centre / step) + v.centre % step = v.centre := Nat.div_add_mod _ _
  have hmod : v.centre % step < step := Nat.mod_lt _ hstep
  unfold nearest? at h
  dsimp only at h
  generalize v.centre / step = q at h hdiv
  have hmul : q * step = step * q := Nat.mul_comm _ _
  have hnext : (q + 1) * step = step * q + step := by ring
  -- the two neighbours of the centre on the grid
  have hunder : ((v.centre - q * step < v.below || v.closed && v.centre - q * step == v.below) && q != 0)
      = true → v.Holds (q * step) := by
    intro hfits
    simp only [Bool.and_eq_true, Bool.or_eq_true, decide_eq_true_eq, beq_iff_eq, bne_iff_ne] at hfits
    obtain ⟨hfits, -⟩ := hfits
    refine ⟨?_, by omega⟩
    rcases hfits with hlt | ⟨hclosed, heq⟩
    · left
      omega
    · right
      exact ⟨hclosed, by omega⟩
  have hexcess : ((q + 1) * step - v.centre < v.above || v.closed && (q + 1) * step - v.centre == v.above)
      = true → v.Holds ((q + 1) * step) := by
    intro hfits
    simp only [Bool.and_eq_true, Bool.or_eq_true, decide_eq_true_eq, beq_iff_eq] at hfits
    refine ⟨by omega, ?_⟩
    rcases hfits with hlt | ⟨hclosed, heq⟩
    · left
      omega
    · right
      exact ⟨hclosed, by omega⟩
  split at h
  case isTrue hboth =>
    obtain ⟨hu, he⟩ := Bool.and_eq_true_iff.mp hboth
    obtain rfl := Option.some.inj h
    split
    · exact hunder hu
    · exact hexcess he
  case isFalse =>
    split at h
    case isTrue hu =>
      obtain rfl := Option.some.inj h
      exact hunder hu
    case isFalse =>
      split at h
      case isTrue he =>
        obtain rfl := Option.some.inj h
        exact hexcess he
      case isFalse => cases h

/-- The unit that an interval and a grid have in common. -/
def commonUnit (v : Interval) (power : ℤ) : ℚ :=
  ((2 : ℚ) ^ (-v.scale).toNat * 10 ^ (-power).toNat)⁻¹

theorem commonUnit_pos (v : Interval) (power : ℤ) : 0 < v.commonUnit power := by
  unfold commonUnit
  positivity

/-- On a grid, the unit of the interval and the step of the grid are multiples of the common one. -/
theorem scale_eq (v : Interval) (power : ℤ) :
    (2 : ℚ) ^ v.scale
      = (Nat.pow 2 v.scale.toNat * Nat.pow 10 (-power).toNat : Nat) * v.commonUnit power := by
  have hten : (0 : ℚ) < 10 ^ (-power).toNat := by positivity
  unfold commonUnit
  simp only [Nat.pow_eq]
  push_cast
  rw [zpow_eq_div v.scale, mul_inv]
  field_simp

theorem ten_zpow_eq (v : Interval) (power : ℤ) :
    (10 : ℚ) ^ power = (v.onGrid power).2 * v.commonUnit power := by
  have htwo : (0 : ℚ) < 2 ^ (-v.scale).toNat := by positivity
  unfold commonUnit onGrid
  simp only [Nat.pow_eq]
  push_cast
  rw [zpow_eq_div power, mul_inv]
  field_simp

/-- A point of the interval on a grid is a decimal in the interval. -/
theorem contains_of_holds {power : ℤ} {n : Nat}
    (h : (v.onGrid power).1.Holds (n * (v.onGrid power).2)) : v.Contains ((n : ℚ) * 10 ^ power) := by
  have hunit := v.commonUnit_pos power
  have hscale := v.scale_eq power
  have hstep := v.ten_zpow_eq power
  unfold Holds onGrid at h
  unfold onGrid at hstep
  dsimp only at h hstep
  generalize Nat.pow 2 v.scale.toNat * Nat.pow 10 (-power).toNat = up at h hscale
  generalize Nat.pow 2 (-v.scale).toNat * Nat.pow 10 power.toNat = step at h hstep
  generalize v.commonUnit power = w at hunit hscale hstep
  have hn : (n : ℚ) * 10 ^ power = (n * step : Nat) * w := by
    rw [hstep]
    push_cast
    ring
  have hlow : ((v.centre : ℚ) - v.below) * 2 ^ v.scale
      = (((v.centre * up : Nat) : ℤ) - (v.below * up : Nat) : ℤ) * w := by
    rw [hscale]
    push_cast
    ring
  have hhigh : ((v.centre : ℚ) + v.above) * 2 ^ v.scale
      = (((v.centre * up : Nat) : ℤ) + (v.above * up : Nat) : ℤ) * w := by
    rw [hscale]
    push_cast
    ring
  obtain ⟨hlow', hhigh'⟩ := h
  have hcast : ((n * step : Nat) : ℚ) = (((n * step : Nat) : ℤ) : ℚ) := by norm_cast
  constructor
  · rw [hlow, hn, hcast]
    rcases hlow' with h | ⟨hclosed, h⟩
    · left
      have : ((((v.centre * up : Nat) : ℤ) - (v.below * up : Nat) : ℤ) : ℚ) < ((n * step : Nat) : ℤ) := by
        exact_mod_cast h
      exact mul_lt_mul_of_pos_right this hunit
    · right
      exact ⟨hclosed, by rw [h]⟩
  · rw [hhigh, hn, hcast]
    rcases hhigh' with h | ⟨hclosed, h⟩
    · left
      have : (((n * step : Nat) : ℤ) : ℚ) < (((v.centre * up : Nat) : ℤ) + (v.above * up : Nat) : ℤ) := by
        exact_mod_cast h
      exact mul_lt_mul_of_pos_right this hunit
    · right
      exact ⟨hclosed, by rw [h]⟩

/-- The nearest point of a grid that is no coarser than the interval lies in the interval. -/
theorem nearest_holds {c step b a : Nat} (hstep : 0 < step) (hb : step ≤ b) (ha : step ≤ a) :
    Holds ⟨c, b, a, v.closed, v.scale⟩ ((c + step / 2) / step * step) := by
  have hdiv : step * ((c + step / 2) / step) + (c + step / 2) % step = c + step / 2 :=
    Nat.div_add_mod _ _
  have hmod : (c + step / 2) % step < step := Nat.mod_lt _ hstep
  have hcomm : (c + step / 2) / step * step = step * ((c + step / 2) / step) := Nat.mul_comm _ _
  constructor
  · left
    dsimp only
    omega
  · left
    dsimp only
    omega

/-- **The search ends with a decimal in the interval.** By induction on the grids that are left;
the last of them is no coarser than the unit of the interval. -/
theorem search_contains {power : ℤ} {fuel : Nat} (hbelow : 0 < v.below) (habove : 0 < v.above)
    (hfine : (10 : ℚ) ^ (power - fuel) ≤ 2 ^ v.scale) :
    v.Contains (((v.search tie power fuel).digits : ℚ) * 10 ^ (v.search tie power fuel).power) := by
  have hup : ∀ p : ℤ, 0 < Nat.pow 2 v.scale.toNat * Nat.pow 10 (-p).toNat :=
    fun p => Nat.mul_pos (Nat.pow_pos (by decide)) (Nat.pow_pos (by decide))
  have hstep : ∀ p : ℤ, 0 < (v.onGrid p).2 :=
    fun p => Nat.mul_pos (Nat.pow_pos (by decide)) (Nat.pow_pos (by decide))
  induction fuel generalizing power with
  | zero =>
      have hunit := v.commonUnit_pos power
      have hle : (v.onGrid power).2 ≤ Nat.pow 2 v.scale.toNat * Nat.pow 10 (-power).toNat := by
        rw [Nat.cast_zero, sub_zero, v.scale_eq power, v.ten_zpow_eq power] at hfine
        exact_mod_cast le_of_mul_le_mul_right hfine hunit
      refine contains_of_holds (nearest_holds (hstep power) ?_ ?_)
      · exact hle.trans (Nat.le_mul_of_pos_left _ hbelow)
      · exact hle.trans (Nat.le_mul_of_pos_left _ habove)
  | succ fuel ih =>
      unfold search
      dsimp only
      split
      case h_1 digits hdigits =>
        refine contains_of_holds (nearest?_holds (hstep power) ?_ ?_ hdigits)
        · exact Nat.mul_pos hbelow (hup power)
        · exact Nat.mul_pos habove (hup power)
      case h_2 =>
        refine ih ?_
        have hpower : power - 1 - (fuel : ℤ) = power - ((fuel + 1 : Nat) : ℤ) := by
          push_cast
          ring
        rw [hpower]
        exact hfine

end Interval

/-- The fraction that a decimal stands for. -/
def Decimal.value (d : Decimal) : ℚ := (d.digits : ℚ) * 10 ^ d.power

/-- Zeros at the end of the digits do not count. -/
theorem Decimal.value_strip (d : Decimal) (fuel : Nat) : (d.strip fuel).value = d.value := by
  induction fuel generalizing d with
  | zero => rfl
  | succ fuel ih =>
      unfold strip
      split
      case isTrue h =>
        simp only [Bool.and_eq_true, bne_iff_ne, beq_iff_eq] at h
        have hdigits : ((d.digits / 10 : Nat) : ℚ) * 10 = d.digits := by
          have : d.digits / 10 * 10 = d.digits := by omega
          exact_mod_cast this
        rw [ih]
        unfold value
        rw [← hdigits, zpow_add₀ (by norm_num), zpow_one]
        ring
      case isFalse => rfl

/-- **The shortest decimal of a number lies in the interval of the number.** -/
theorem shortest_contains {x : Binary64} (hfinite : x.isFinite = true) (hzero : x.isZero = false)
    (tie : Tie) : x.interval.Contains (x.shortest tie).value := by
  have hlog : Nat.log2 x.significand ≤ 52 := by
    have hlt := significand_lt x
    have hbinade : 2 * binade = 2 ^ 53 := rfl
    rw [hbinade] at hlt
    have := (Nat.log2_lt (significand_pos hzero).ne').mpr hlt
    omega
  have he := le_exponent x
  have he' := exponent_le hfinite
  have hbelow : 0 < x.interval.below := by
    unfold interval
    dsimp only
    split <;> omega
  unfold shortest
  dsimp only
  rw [Decimal.value_strip]
  have habove : 0 < x.interval.above := Nat.zero_lt_two
  refine Interval.search_contains hbelow habove ?_
  exact ten_zpow_le_two_zpow (by simp only [interval]; omega) (by simp only [interval]; omega)

end EntityStore.Binary64
