import EntityStore.Timestamp.Calendar

/-!
# Dates and their day numbers

**A valid date is the date of its day number, and every day number is that of a date.** The way back
goes through the parts of the day number one by one: the era of 400 years, the year of the era, the
day of the year and the month, with years that start in March.
-/

namespace EntityStore.Date

/-- The year of the era. The three corrections take away the leap days before a day, and differ
from them on the last days of four years, of a century and of the era alone. -/
theorem yearOfEra_eq {yearOfEra dayOfYear dayOfEra : Int} (hyear : 0 ≤ yearOfEra ∧ yearOfEra ≤ 399)
    (hday : 0 ≤ dayOfYear ∧ dayOfYear ≤ 365)
    (hleap : dayOfYear = 365 → yearOfEra % 4 = 3 ∧ (yearOfEra % 100 ≠ 99 ∨ yearOfEra = 399))
    (h : dayOfEra = yearOfEra * 365 + yearOfEra / 4 - yearOfEra / 100 + dayOfYear) :
    (dayOfEra - dayOfEra / 1460 + dayOfEra / 36524 - dayOfEra / 146096) / 365 = yearOfEra := by
  -- centuries, groups of four years, and years
  obtain ⟨c, q, r, hc, hq, hr, rfl⟩ : ∃ c q r : Int, (0 ≤ c ∧ c ≤ 3) ∧ (0 ≤ q ∧ q ≤ 24) ∧
      (0 ≤ r ∧ r ≤ 3) ∧ yearOfEra = 100 * c + 4 * q + r :=
    ⟨yearOfEra / 100, yearOfEra % 100 / 4, yearOfEra % 4, by omega, by omega, by omega, by omega⟩
  have hsum : dayOfEra = 36524 * c + 1461 * q + 365 * r + dayOfYear := by omega
  have hlast : dayOfYear = 365 → r = 3 ∧ (q ≠ 24 ∨ c = 3) := by
    intro hd
    obtain ⟨h4, h100⟩ := hleap hd
    omega
  clear h hleap
  have hfour : dayOfEra / 1460 = 25 * c + q ∧ 24 * c + q + 365 * r + dayOfYear < 1460 ∨
      dayOfEra / 1460 = 25 * c + q + 1 ∧ 1460 ≤ 24 * c + q + 365 * r + dayOfYear := by omega
  have hera : dayOfEra = 146096 ∧ dayOfEra / 36524 = 4 ∧ dayOfEra / 146096 = 1 ∨
      dayOfEra < 146096 ∧ dayOfEra / 36524 = c ∧ dayOfEra / 146096 = 0 := by
    by_cases hlt : dayOfEra < 146096
    · right
      have hcentury : 1461 * q + 365 * r + dayOfYear < 36524 := by
        by_cases hd : dayOfYear = 365
        · obtain ⟨h3, hcases⟩ := hlast hd
          omega
        · omega
      omega
    · left
      omega
  rcases hfour with ⟨hfour, hlt⟩ | ⟨hfour, hge⟩
  · rcases hera with ⟨hend, hcentury, hera⟩ | ⟨hend, hcentury, hera⟩
    · omega
    · rw [hfour, hcentury, hera]
      by_cases hd : dayOfYear = 365
      · have := hlast hd
        omega
      · omega
  · rcases hera with ⟨hend, hcentury, hera⟩ | ⟨hend, hcentury, hera⟩
    · rw [hfour, hcentury, hera]
      omega
    · rw [hfour, hcentury, hera]
      omega

/-- The days of the months before a month of a year that starts in March. -/
def daysBefore (month : Nat) : Int := (153 * (((month : Int) + 9) % 12) + 2) / 5

/-- The month of a day of the year, and which day is the last one. -/
theorem month_eq {month : Nat} {d : Int} (hmonth : 1 ≤ month ∧ month ≤ 12)
    (hday : 1 ≤ d ∧ d ≤ 31) (hshort : month = 4 ∨ month = 6 ∨ month = 9 ∨ month = 11 → d ≤ 30)
    (hfeb : month = 2 → d ≤ 29) :
    (5 * (daysBefore month + d - 1) + 2) / 153 = ((month : Int) + 9) % 12 ∧
      0 ≤ daysBefore month + d - 1 ∧ daysBefore month + d - 1 ≤ 365 ∧
      (daysBefore month + d - 1 = 365 → month = 2 ∧ d = 29) := by
  have hcases : month = 1 ∨ month = 2 ∨ month = 3 ∨ month = 4 ∨ month = 5 ∨ month = 6 ∨ month = 7 ∨
      month = 8 ∨ month = 9 ∨ month = 10 ∨ month = 11 ∨ month = 12 := by omega
  unfold daysBefore
  rcases hcases with rfl | rfl | rfl | rfl | rfl | rfl | rfl | rfl | rfl | rfl | rfl | rfl <;> omega

/-- The last day of a leap year that starts in March falls in the February of the next one. -/
theorem leap_of_lastDay {year : Int} (hleap : isLeapYear year = true) :
    let y := year - 1
    (y - y / 400 * 400) % 4 = 3 ∧ ((y - y / 400 * 400) % 100 ≠ 99 ∨ y - y / 400 * 400 = 399) := by
  unfold isLeapYear at hleap
  simp only [Bool.and_eq_true, Bool.or_eq_true, beq_iff_eq, bne_iff_ne] at hleap
  obtain ⟨h4, h100⟩ := hleap
  dsimp only
  rcases h100 with h | h
  · omega
  · omega

/-- What the length of its month says of a day. -/
theorem day_of_le_daysInMonth {year : Int} {month day : Nat} (h : day ≤ daysInMonth year month) :
    day ≤ 31 ∧ (month = 4 ∨ month = 6 ∨ month = 9 ∨ month = 11 → day ≤ 30) ∧
      (month = 2 → day ≤ 29 ∧ (day = 29 → isLeapYear year = true)) := by
  unfold daysInMonth at h
  refine ⟨?_, fun hm => ?_, fun hm => ?_⟩
  · split at h
    · split at h <;> omega
    · split at h <;> omega
  · rw [if_neg (by omega), if_pos hm] at h
    exact h
  · rw [if_pos hm] at h
    split at h
    case isTrue hleap => exact ⟨h, fun _ => hleap⟩
    case isFalse => exact ⟨by omega, by omega⟩

/-- **A valid date is the date of its day number.** -/
theorem ofDayNumber_dayNumber {d : Date} (h : d.isValid = true) : ofDayNumber d.dayNumber = d := by
  obtain ⟨year, month, day⟩ := d
  unfold isValid at h
  simp only [Bool.and_eq_true, decide_eq_true_eq] at h
  obtain ⟨⟨-, -, hm1, hm2, hd1⟩, hdays⟩ := h
  obtain ⟨h31, hshort, hfeb⟩ := day_of_le_daysInMonth hdays
  obtain ⟨hmonth, hbefore⟩ := month_eq (d := (day : Int)) ⟨hm1, hm2⟩ ⟨by omega, by omega⟩
    (fun hm => by have := hshort hm; omega) fun hm => by have := (hfeb hm).1; omega
  unfold dayNumber
  dsimp only
  change ofDayNumber (_ / 400 * 146097 + ((_ - _ / 400 * 400) * 365 + (_ - _ / 400 * 400) / 4
    - (_ - _ / 400 * 400) / 100 + (daysBefore month + (day : Int) - 1)) - 719468) = _
  generalize hy : (if month ≤ 2 then year - 1 else year) = y
  generalize hdoy : daysBefore month + (day : Int) - 1 = dayOfYear at hmonth hbefore
  generalize hyoe : y - y / 400 * 400 = yearOfEra
  have hrange : 0 ≤ yearOfEra ∧ yearOfEra ≤ 399 := by omega
  have hleap : dayOfYear = 365 → yearOfEra % 4 = 3 ∧ (yearOfEra % 100 ≠ 99 ∨ yearOfEra = 399) := by
    intro hlast
    obtain ⟨hm, hd⟩ := hbefore.2.2 hlast
    have := leap_of_lastDay ((hfeb hm).2 (by omega))
    rw [if_pos (by omega)] at hy
    subst hy hyoe
    exact this
  generalize hdoe : yearOfEra * 365 + yearOfEra / 4 - yearOfEra / 100 + dayOfYear = dayOfEra
  have hyear := yearOfEra_eq hrange ⟨hbefore.1, hbefore.2.1⟩ hleap hdoe.symm
  have hera : 0 ≤ dayOfEra ∧ dayOfEra < 146097 := by
    by_cases hlast : dayOfYear = 365
    · have := hleap hlast
      omega
    · omega
  -- the parts of the day number, from the era to the day
  unfold ofDayNumber
  have h1 : (y / 400 * 146097 + dayOfEra - 719468 + 719468) / 146097 = y / 400 := by omega
  have h2 : y / 400 * 146097 + dayOfEra - 719468 + 719468 - y / 400 * 146097 = dayOfEra := by omega
  have h3 : dayOfEra - (365 * yearOfEra + yearOfEra / 4 - yearOfEra / 100) = dayOfYear := by omega
  dsimp only
  rw [h1, h2, hyear, h3, hmonth]
  have hmonth' : (if ((month : Int) + 9) % 12 < 10 then ((month : Int) + 9) % 12 + 3
      else ((month : Int) + 9) % 12 - 9) = month := by
    split <;> omega
  have hday' : dayOfYear - (153 * (((month : Int) + 9) % 12) + 2) / 5 + 1 = day := by
    change dayOfYear - daysBefore month + 1 = day
    omega
  have hyear' : yearOfEra + y / 400 * 400 + (if (month : Int) ≤ 2 then 1 else 0) = year := by
    split at hy <;> split <;> omega
  rw [hmonth', hday', hyear']
  rfl

theorem daysInMonth_le (year : Int) (month : Nat) : daysInMonth year month ≤ 31 := by
  unfold daysInMonth
  split
  · split <;> omega
  · split <;> omega

theorem dayNumber_bounds {d : Date} (hyear : 0 ≤ d.year ∧ d.year ≤ 9999) (hday : d.day ≤ 31) :
    -1000000 ≤ d.dayNumber ∧ d.dayNumber ≤ 3000000 := by
  unfold dayNumber
  dsimp only
  split <;> omega

/-! ## The date of a day number -/

/-- A day of the era falls in one of its years. -/
theorem exists_yearOfEra {dayOfEra : Int} (h : 0 ≤ dayOfEra ∧ dayOfEra < 146097) :
    ∃ yearOfEra dayOfYear : Int, (0 ≤ yearOfEra ∧ yearOfEra ≤ 399) ∧ (0 ≤ dayOfYear ∧ dayOfYear ≤ 365) ∧
      (dayOfYear = 365 → yearOfEra % 4 = 3 ∧ (yearOfEra % 100 ≠ 99 ∨ yearOfEra = 399)) ∧
      dayOfEra = yearOfEra * 365 + yearOfEra / 4 - yearOfEra / 100 + dayOfYear := by
  -- the last day of the last century, of four years and of a year does not begin a new one
  obtain ⟨c, ofCentury, hc, hcentury, rfl⟩ : ∃ c d : Int, (0 ≤ c ∧ c ≤ 3) ∧
      (0 ≤ d ∧ d ≤ 36524 ∧ (d = 36524 → c = 3)) ∧ dayOfEra = 36524 * c + d :=
    ⟨min 3 (dayOfEra / 36524), dayOfEra - 36524 * min 3 (dayOfEra / 36524), by omega, by omega, by omega⟩
  obtain ⟨q, ofFour, hq, hfour, rfl⟩ : ∃ q d : Int, (0 ≤ q ∧ q ≤ 24) ∧
      (0 ≤ d ∧ d ≤ 1460 ∧ (d = 1460 → q = 24 → c = 3)) ∧ ofCentury = 1461 * q + d :=
    ⟨ofCentury / 1461, ofCentury % 1461, by omega, by omega, by omega⟩
  obtain ⟨r, ofYear, hr, hyear, rfl⟩ : ∃ r d : Int, (0 ≤ r ∧ r ≤ 3) ∧
      (0 ≤ d ∧ d ≤ 365 ∧ (d = 365 → r = 3)) ∧ ofFour = 365 * r + d :=
    ⟨min 3 (ofFour / 365), ofFour - 365 * min 3 (ofFour / 365), by omega, by omega, by omega⟩
  have h4 : (100 * c + 4 * q + r) / 4 = 25 * c + q := by omega
  have h100 : (100 * c + 4 * q + r) / 100 = c := by omega
  refine ⟨100 * c + 4 * q + r, ofYear, by omega, by omega, fun hlast => ?_, by rw [h4, h100]; omega⟩
  have hr3 := hyear.2.2 hlast
  have hcases := hfour.2.2 (by omega)
  constructor
  · omega
  · by_cases hq24 : q = 24
    · have := hcases hq24
      omega
    · omega

/-- The month and the day of a day of the year, counted from March. -/
theorem month_of_dayOfYear {d : Int} (h : 0 ≤ d ∧ d ≤ 365) :
    ∃ month day : Nat, (1 ≤ month ∧ month ≤ 12) ∧
      (if (5 * d + 2) / 153 < 10 then (5 * d + 2) / 153 + 3 else (5 * d + 2) / 153 - 9) = month ∧
      ((month : Int) + 9) % 12 = (5 * d + 2) / 153 ∧ d - (153 * ((5 * d + 2) / 153) + 2) / 5 + 1 = day ∧
      1 ≤ day ∧ (if month = 2 then day ≤ 29 ∧ (day = 29 → d = 365)
        else day ≤ if month = 4 ∨ month = 6 ∨ month = 9 ∨ month = 11 then 30 else 31) := by
  generalize hm : (5 * d + 2) / 153 = m
  have hcases : m = 0 ∨ m = 1 ∨ m = 2 ∨ m = 3 ∨ m = 4 ∨ m = 5 ∨ m = 6 ∨ m = 7 ∨ m = 8 ∨ m = 9 ∨
      m = 10 ∨ m = 11 := by omega
  refine ⟨(if m < 10 then m + 3 else m - 9).toNat, (d - (153 * m + 2) / 5 + 1).toNat, ?_⟩
  rcases hcases with rfl | rfl | rfl | rfl | rfl | rfl | rfl | rfl | rfl | rfl | rfl | rfl <;>
    simp <;> omega

/-- **Every day number is that of a date, which has a month of the year and a day of that month.** -/
theorem dayNumber_ofDayNumber (n : Int) :
    (ofDayNumber n).dayNumber = n ∧ (1 ≤ (ofDayNumber n).month ∧ (ofDayNumber n).month ≤ 12) ∧
      1 ≤ (ofDayNumber n).day ∧
      (ofDayNumber n).day ≤ daysInMonth (ofDayNumber n).year (ofDayNumber n).month := by
  generalize hera : (n + 719468) / 146097 = era
  have hdayOfEra : 0 ≤ n + 719468 - era * 146097 ∧ n + 719468 - era * 146097 < 146097 := by omega
  obtain ⟨yearOfEra, dayOfYear, hyears, hdays, hlast, hsum⟩ := exists_yearOfEra hdayOfEra
  have hyear := yearOfEra_eq hyears hdays hlast hsum
  obtain ⟨month, day, hmonths, hmonth, hback, hday, hpos, hlength⟩ := month_of_dayOfYear hdays
  have hdate : ofDayNumber n
      = ⟨yearOfEra + era * 400 + (if (month : Int) ≤ 2 then 1 else 0), month, day⟩ := by
    unfold ofDayNumber
    dsimp only
    have hrest : n + 719468 - era * 146097 - (365 * yearOfEra + yearOfEra / 4 - yearOfEra / 100)
        = dayOfYear := by omega
    rw [hera, hyear, hrest, hmonth, hday]
    rfl
  rw [hdate]
  refine ⟨?_, hmonths, hpos, ?_⟩
  · unfold dayNumber
    dsimp only
    have hstart : (if month ≤ 2 then yearOfEra + era * 400 + (if (month : Int) ≤ 2 then 1 else 0) - 1
        else yearOfEra + era * 400 + (if (month : Int) ≤ 2 then 1 else 0)) = yearOfEra + era * 400 := by
      split <;> split <;> omega
    have hback' : (yearOfEra + era * 400) / 400 = era := by omega
    have hcancel : yearOfEra + era * 400 - era * 400 = yearOfEra := by omega
    rw [hstart, hback', hcancel, hback]
    omega
  · unfold daysInMonth
    dsimp only
    by_cases hfeb : month = 2
    · rw [if_pos hfeb] at hlength ⊢
      by_cases h29 : day = 29
      · -- the last day of a year that starts in March
        obtain ⟨h4, h100⟩ := hlast (hlength.2 h29)
        have hleap : isLeapYear (yearOfEra + era * 400 + if (month : Int) ≤ 2 then 1 else 0) = true := by
          rw [if_pos (by omega), isLeapYear]
          simp only [Bool.and_eq_true, Bool.or_eq_true, beq_iff_eq, bne_iff_ne]
          omega
        rw [if_pos hleap]
        exact hlength.1
      · have h28 : day ≤ 28 := by omega
        generalize isLeapYear _ = leap
        cases leap with
        | true => exact Nat.le_succ_of_le h28
        | false => exact h28
    · rw [if_neg hfeb] at hlength ⊢
      split at hlength
      case isTrue h => rwa [if_pos h]
      case isFalse h => rwa [if_neg h]

end EntityStore.Date
