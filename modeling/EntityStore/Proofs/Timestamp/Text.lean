import EntityStore.Proofs.Text.Integer
import EntityStore.Proofs.Timestamp.Calendar
import EntityStore.Timestamp.Printer
import EntityStore.Timestamp.Reader

/-!
# Timestamps read back from their text

A timestamp shows at its own offset the very clock it was made of, and writes that clock out. **A
timestamp is read back from its text as long as its year has four digits**; the strict reader
takes no other years, and no other reader takes an offset.
-/

namespace EntityStore.Timestamp

open Text

/-- A timestamp that can have been read: that of a clock, less than a day off UTC. -/
def Readable (t : Timestamp) : Prop :=
  ∃ c offset, ofClock? c offset = some t ∧ offset.natAbs < 1440

/-- A timestamp there can be: a second of a day, the nanoseconds of it or of a leap second, and less
than a day off UTC. -/
structure Proper (t : Timestamp) : Prop where
  second : t.second < 86400
  nano : t.nano < 2 * nanosPerSecond
  offset : t.offset.natAbs < 1440

/-- A leap second is the last second of its minute running on. -/
def RegularLeap (t : Timestamp) : Prop := t.nano < nanosPerSecond ∨ t.second % 60 = 59

/-- The year the timestamp shows has four digits. -/
def ShortYear (t : Timestamp) : Prop := 0 ≤ t.clock.date.year ∧ t.clock.date.year ≤ 9999

instance (t : Timestamp) : Decidable t.ShortYear := inferInstanceAs (Decidable (_ ∧ _))

/-! ## The clock of a timestamp -/

/-- The second of a clock that is counted, and the nanoseconds since it began: a leap second is
the second before it running on. -/
def Clock.counted (c : Clock) : Nat × Nat :=
  if c.second = 60 then (59, nanosPerSecond + c.nano) else (c.second, c.nano)

/-- The timestamp of a valid clock, in the day and the second that UTC has then. -/
theorem ofClock?_of_isValid {c : Clock} (hvalid : c.isValid = true) (offset : Int) {time : Int}
    (htime : time = c.hour * 3600 + c.minute * 60 + c.counted.1) :
    ofClock? c offset = if Date.inRange (c.date.dayNumber + (time - offset * 60) / 86400) then
      some ⟨c.date.dayNumber + (time - offset * 60) / 86400, ((time - offset * 60) % 86400).toNat,
        c.counted.2, offset⟩ else none := by
  subst htime
  unfold ofClock? Clock.counted
  rw [hvalid]
  by_cases hleap : c.second = 60
  · simp [hleap]
  · simp [hleap]

theorem ofClock?_eq_some {c : Clock} {offset : Int} {t : Timestamp} (h : ofClock? c offset = some t) :
    c.isValid = true ∧
      ∃ time : Int, time = c.hour * 3600 + c.minute * 60 + c.counted.1 ∧
        t = ⟨c.date.dayNumber + (time - offset * 60) / 86400, ((time - offset * 60) % 86400).toNat,
          c.counted.2, offset⟩ := by
  have hvalid : c.isValid = true := by
    by_contra hvalid
    rw [ofClock?, Bool.eq_false_iff.mpr hvalid] at h
    cases h
  refine ⟨hvalid, _, rfl, ?_⟩
  rw [ofClock?_of_isValid hvalid offset rfl] at h
  split at h
  · exact (Option.some.inj h).symm
  · cases h

/-- What is counted shows the second and the nanoseconds it was counted from. -/
theorem Clock.counted_spec {c : Clock} (hsecond : c.second ≤ 60) (hnano : c.nano < nanosPerSecond) :
    c.counted.1 ≤ 59 ∧ c.counted.1 + c.counted.2 / nanosPerSecond = c.second ∧
      c.counted.2 % nanosPerSecond = c.nano := by
  rw [show nanosPerSecond = 1000000000 from rfl] at hnano ⊢
  unfold counted
  rw [show nanosPerSecond = 1000000000 from rfl]
  split
  · dsimp only
    omega
  · refine ⟨by omega, ?_, Nat.mod_eq_of_lt hnano⟩
    rw [Nat.div_eq_of_lt hnano, Nat.add_zero]

/-- **A timestamp shows the clock it was made of.** -/
theorem clock_of_ofClock? {c : Clock} {offset : Int} {t : Timestamp} (h : ofClock? c offset = some t) :
    t.clock = c ∧ t.offset = offset ∧ c.isValid = true := by
  obtain ⟨hvalid, time, htime, rfl⟩ := ofClock?_eq_some h
  refine ⟨?_, rfl, hvalid⟩
  unfold Clock.isValid at hvalid
  simp only [Bool.and_eq_true, decide_eq_true_eq] at hvalid
  obtain ⟨hdate, hhour, hminute, hsecond, hnano⟩ := hvalid
  obtain ⟨h59, hshown, hnanoShown⟩ := Clock.counted_spec hsecond hnano
  have hrange : 0 ≤ time ∧ time < 86400 := by omega
  -- the time of day comes back, and so does the day
  have hback : ((((time - offset * 60) % 86400).toNat : Int) + offset * 60) % 86400 = time := by omega
  have hday : c.date.dayNumber + (time - offset * 60) / 86400
      + ((((time - offset * 60) % 86400).toNat : Int) + offset * 60) / 86400 = c.date.dayNumber := by
    omega
  have h1 : time.toNat / 3600 = c.hour := by omega
  have h2 : time.toNat / 60 % 60 = c.minute := by omega
  have h3 : time.toNat % 60 = c.counted.1 := by omega
  unfold clock
  dsimp only
  rw [hback, hday, Date.ofDayNumber_dayNumber hdate, h1, h2, h3, hshown, hnanoShown]

/-- What has been read is a proper timestamp, and its leap second stands at the end of a minute. -/
theorem Readable.proper {t : Timestamp} (h : Readable t) : t.Proper ∧ t.RegularLeap := by
  obtain ⟨c, offset, hclock, hoffset⟩ := h
  obtain ⟨hvalid, time, htime, rfl⟩ := ofClock?_eq_some hclock
  unfold Clock.isValid at hvalid
  simp only [Bool.and_eq_true, decide_eq_true_eq] at hvalid
  obtain ⟨-, hhour, hminute, hsecond, hnano⟩ := hvalid
  have hn : nanosPerSecond = 1000000000 := rfl
  have hcounted : c.counted = (59, nanosPerSecond + c.nano) ∧ c.second = 60 ∨
      c.counted = (c.second, c.nano) ∧ c.second ≠ 60 := by
    unfold Clock.counted
    split
    case isTrue h => exact .inl ⟨rfl, h⟩
    case isFalse h => exact .inr ⟨rfl, h⟩
  rcases hcounted with ⟨hcounted, -⟩ | ⟨hcounted, -⟩
  · refine ⟨⟨?_, ?_, hoffset⟩, .inr ?_⟩
    · dsimp only
      omega
    · rw [hcounted]
      dsimp only
      omega
    · rw [hcounted] at htime
      dsimp only at htime ⊢
      omega
  · refine ⟨⟨?_, ?_, hoffset⟩, .inl ?_⟩
    · dsimp only
      omega
    · rw [hcounted]
      dsimp only
      omega
    · rw [hcounted]
      exact hnano

/-- The fields of the clock that a proper timestamp shows. -/
theorem Proper.clock_spec {t : Timestamp} (h : t.Proper) :
    (1 ≤ t.clock.date.month ∧ t.clock.date.month ≤ 12 ∧ 1 ≤ t.clock.date.day) ∧
      t.clock.date.day ≤ Date.daysInMonth t.clock.date.year t.clock.date.month ∧
      t.clock.hour ≤ 23 ∧ t.clock.minute ≤ 59 ∧ t.clock.second ≤ 60 ∧
      t.clock.nano < nanosPerSecond := by
  obtain ⟨-, hmonth, hday, hdays⟩ :=
    Date.dayNumber_ofDayNumber (t.day + ((t.second : Int) + t.offset * 60) / 86400)
  have hn : nanosPerSecond = 1000000000 := rfl
  have hnano := h.nano
  rw [hn] at hnano
  refine ⟨⟨hmonth.1, hmonth.2, hday⟩, hdays, ?_, ?_, ?_, ?_⟩
  · unfold clock
    dsimp only
    omega
  · unfold clock
    dsimp only
    omega
  · unfold clock
    rw [hn]
    dsimp only
    omega
  · exact Nat.mod_lt _ (by decide)

/-- The clock of a proper timestamp fits the fields it is written in. -/
theorem Proper.clock_bounds {t : Timestamp} (h : t.Proper) :
    t.clock.date.month < 100 ∧ t.clock.date.day < 100 ∧ t.clock.hour < 100 ∧ t.clock.minute < 100 ∧
      t.clock.second < 100 ∧ t.clock.nano < 1000000000 := by
  obtain ⟨⟨-, hmonth, -⟩, hdays, hhour, hminute, hsecond, hnano⟩ := h.clock_spec
  have hlength := Date.daysInMonth_le t.clock.date.year t.clock.date.month
  exact ⟨by omega, by omega, by omega, by omega, by omega, hnano⟩

/-- **A proper timestamp is that of the clock it shows**, if its year has four digits and its leap
second stands at the end of a minute. -/
theorem Proper.readable {t : Timestamp} (h : t.Proper) (hleap : t.RegularLeap) (hyear : t.ShortYear) :
    Readable t := by
  obtain ⟨⟨hm1, hm2, hd⟩, hdays, hhour, hminute, hsecond, hnano⟩ := h.clock_spec
  have hyears := hyear
  unfold ShortYear at hyears
  have hvalid : t.clock.isValid = true := by
    unfold Clock.isValid Date.isValid Date.firstYear Date.lastYear
    simp only [Bool.and_eq_true, decide_eq_true_eq]
    exact ⟨⟨⟨by omega, by omega, hm1, hm2, hd⟩, hdays⟩, hhour, hminute, hsecond, hnano⟩
  refine ⟨t.clock, t.offset, ?_, h.offset⟩
  -- the seconds since midnight that the clock shows
  generalize hS : (t.second : Int) + t.offset * 60 = shown
  have hdate : t.clock.date.dayNumber = t.day + shown / 86400 := by
    rw [← hS]
    exact (Date.dayNumber_ofDayNumber _).1
  have hclock : t.clock.hour = (shown % 86400).toNat / 3600 ∧
      t.clock.minute = (shown % 86400).toNat / 60 % 60 ∧
      t.clock.second = (shown % 86400).toNat % 60 + t.nano / nanosPerSecond ∧
      t.clock.nano = t.nano % nanosPerSecond := by
    rw [← hS]
    exact ⟨rfl, rfl, rfl, rfl⟩
  obtain ⟨h1, h2, h3, h4⟩ := hclock
  have hn : nanosPerSecond = 1000000000 := rfl
  have hproper := h.nano
  have hutc := h.second
  have hoffset := h.offset
  rw [hn] at h3 h4 hproper
  have hcounted : (t.clock.counted.1 : Int) = (shown % 86400).toNat % 60 ∧ t.clock.counted.2 = t.nano := by
    unfold Clock.counted
    unfold RegularLeap at hleap
    rw [hn] at hleap ⊢
    split
    case isTrue h60 =>
      dsimp only
      omega
    case isFalse h60 =>
      dsimp only
      omega
  have htime : ((shown % 86400).toNat : Int)
      = t.clock.hour * 3600 + t.clock.minute * 60 + t.clock.counted.1 := by omega
  have hday : t.clock.date.dayNumber + (((shown % 86400).toNat : Int) - t.offset * 60) / 86400 = t.day := by
    omega
  have hsecond' : ((((shown % 86400).toNat : Int) - t.offset * 60) % 86400).toNat = t.second := by omega
  have hrange : Date.inRange t.day = true := by
    have hfirst : Date.dayNumber ⟨Date.firstYear, 1, 1⟩ ≤ -2000000 := by decide
    have hlast : 4000000 ≤ Date.dayNumber ⟨Date.lastYear, 12, 31⟩ := by decide
    have hbounds := Date.dayNumber_bounds hyears (hdays.trans (Date.daysInMonth_le _ _))
    unfold Date.inRange
    rw [decide_eq_true_eq]
    omega
  rw [ofClock?_of_isValid hvalid t.offset htime, hday, hsecond', hcounted.2, if_pos hrange]

/-! ## Fields -/

/-- Digits that fill a field are read as their number. -/
theorem scanNumber_append {least most : Nat} {ds rest : List Char} (hds : ∀ c ∈ ds, c.isDigit = true)
    (hmost : ds.length = most) (hleast : least ≤ most) :
    scanNumber least most (ds ++ rest) = some (Binary64.digitsValue ds, rest) := by
  have htake : ((ds ++ rest).take most).takeWhile Char.isDigit = ds := by
    have hself : (ds ++ []).takeWhile Char.isDigit = ds ++ [].takeWhile Char.isDigit :=
      List.takeWhile_append_of_pos hds
    rw [List.append_nil, List.takeWhile_nil, List.append_nil] at hself
    rw [← hmost, List.take_left, hself]
  unfold scanNumber
  dsimp only
  rw [htake, if_neg (by omega), List.drop_left]

theorem scanNumber_padded {w n : Nat} (hwidth : 0 < w) (h : n < 10 ^ w) (rest : List Char) :
    scanNumber w w ((padded w n).toList ++ rest) = some (n, rest) := by
  rw [scanNumber_append isDigit_of_mem_padded (length_padded hwidth h) (Nat.le_refl _),
    digitsValue_padded]

/-- A fraction with all its digits. -/
theorem scanFraction_padded {width n : Nat} (hwidth : 0 < width ∧ width ≤ 9) (h : n < 10 ^ width)
    {rest : List Char} (hrest : ∀ c ∈ rest.head?, c.isDigit = false) :
    scanFraction ((padded width n).toList ++ rest) = some (n * 10 ^ (9 - width), rest) := by
  have hlength := length_padded hwidth.1 h
  have hspan : ((padded width n).toList ++ rest).takeWhile Char.isDigit = (padded width n).toList := by
    rw [List.takeWhile_append_of_pos isDigit_of_mem_padded]
    cases rest with
    | nil => simp
    | cons c rest =>
        rw [List.takeWhile_cons_of_neg (by simp [hrest c rfl]), List.append_nil]
  have hne : (padded width n).toList.isEmpty = false := by
    rw [List.isEmpty_eq_false_iff, ← List.length_pos_iff]
    omega
  have hkept : (padded width n).toList.take 9 = (padded width n).toList :=
    List.take_of_length_le (by omega)
  unfold scanFraction
  dsimp only
  rw [hspan, hne, hkept, digitsValue_padded, List.drop_left, hlength]
  rfl

/-- The written nanoseconds are read back, whatever the number of their digits. -/
theorem scanOptionalFraction_writeFraction {nano : Nat} (h : nano < 1000000000) {rest : List Char}
    (hrest : ∀ c ∈ rest.head?, c.isDigit = false ∧ c ≠ '.') :
    scanOptionalFraction ((writeFraction nano).toList ++ rest) = some (nano, rest) := by
  have hpoint : ∀ cs, scanOptionalFraction (".".toList ++ cs) = scanFraction cs := fun _ => rfl
  have hdigit : ∀ c ∈ rest.head?, c.isDigit = false := fun c hc => (hrest c hc).1
  unfold writeFraction
  split
  case isTrue hzero =>
    rw [hzero]
    unfold scanOptionalFraction
    split
    case h_1 heq =>
      have hdot : ('.' : Char) ∈ rest.head? := by
        rw [String.toList_empty, List.nil_append] at heq
        rw [heq]
        rfl
      exact absurd rfl (hrest '.' hdot).2
    case h_2 => rfl
  case isFalse =>
    split
    case isTrue =>
      rw [String.toList_append, List.append_assoc, hpoint,
        scanFraction_padded (by omega) (by omega) hdigit]
      congr 2
      omega
    case isFalse =>
      split
      case isTrue =>
        rw [String.toList_append, List.append_assoc, hpoint,
          scanFraction_padded (by omega) (by omega) hdigit]
        congr 2
        omega
      case isFalse =>
        rw [String.toList_append, List.append_assoc, hpoint,
          scanFraction_padded (by omega) (by omega) hdigit]
        congr 2
        omega

/-- A written offset is read back, if what is read in the middle is its colon. -/
theorem scanOffset_writeOffset {between : List Char → Option (List Char)} {minutes : Int}
    (hbetween : ∀ n, between (':' :: (padded 2 n).toList) = some (padded 2 n).toList)
    (h : minutes.natAbs < 1440) :
    scanOffset between (writeOffset minutes).toList = some (minutes, []) := by
  have hhours := scanNumber_padded (n := minutes.natAbs / 60) (w := 2) (by decide) (by omega)
  have hminutes := scanNumber_padded (n := minutes.natAbs % 60) (w := 2) (by decide) (by omega) []
  rw [List.append_nil] at hminutes
  unfold writeOffset
  generalize hn : minutes.natAbs = n at h hhours hminutes ⊢
  split
  case isTrue hneg =>
    rw [String.toList_append, String.toList_append, String.toList_append]
    simp only [show "-".toList = ['-'] from rfl, show ":".toList = [':'] from rfl, List.append_assoc,
      List.cons_append, List.nil_append]
    rw [scanOffset.eq_def]
    simp [scanSign, hhours, hbetween, hminutes]
    omega
  case isFalse hneg =>
    rw [String.toList_append, String.toList_append, String.toList_append]
    simp only [show "+".toList = ['+'] from rfl, show ":".toList = [':'] from rfl, List.append_assoc,
      List.cons_append, List.nil_append]
    rw [scanOffset.eq_def]
    simp [scanSign, hhours, hbetween, hminutes]
    omega

theorem writeOffset_ne_nil (minutes : Int) : (writeOffset minutes).toList ≠ [] := by
  unfold writeOffset
  simp only [String.toList_append]
  split <;> simp

/-- An offset begins with its sign. -/
theorem head_writeOffset {minutes : Int} :
    ∀ c ∈ (writeOffset minutes).toList.head?, c.isDigit = false ∧ c ≠ '.' := by
  intro c hc
  have hsign : c = '-' ∨ c = '+' := by
    unfold writeOffset at hc
    split at hc
    · rw [String.toList_append, String.toList_append, String.toList_append] at hc
      exact .inl (Option.some.inj hc).symm
    · rw [String.toList_append, String.toList_append, String.toList_append] at hc
      exact .inr (Option.some.inj hc).symm
  rcases hsign with rfl | rfl
  · exact ⟨rfl, by decide⟩
  · exact ⟨rfl, by decide⟩

/-! ## Whole timestamps -/

/-- What is read first decides how the reader goes on. -/
theorem bind_of_eq_some {α β : Type} {x : Option α} {a : α} (h : x = some a) (f : α → Option β) :
    (x >>= f) = f a := by
  rw [h]
  rfl

/-- The year and the month, the day and the hour, … fit the fields they are written in. -/
theorem Clock.isValid_bounds {c : Clock} (h : c.isValid = true) :
    c.date.month < 100 ∧ c.date.day < 100 ∧ c.hour < 100 ∧ c.minute < 100 ∧ c.second < 100 ∧
      c.nano < 1000000000 := by
  unfold isValid Date.isValid at h
  simp only [Bool.and_eq_true, decide_eq_true_eq] at h
  obtain ⟨⟨⟨-, -, -, hmonth, -⟩, hday⟩, hhour, hminute, hsecond, hnano⟩ := h
  have hdays := Date.daysInMonth_le c.date.year c.date.month
  exact ⟨by omega, by omega, by omega, by omega, by omega, hnano⟩

/-- A clock with an offset is read as what it was written from, if its year has four digits. -/
theorem readStrict?_write {c : Clock} {offset : Int} (hvalid : c.isValid = true)
    (hyear : 0 ≤ c.date.year ∧ c.date.year ≤ 9999) (hoffset : offset.natAbs < 1440) :
    readStrict? (c.write ++ writeOffset offset).toList = ofClock? c offset := by
  obtain ⟨hmonth, hday, hhour, hminute, hsecond, hnano⟩ := Clock.isValid_bounds hvalid
  have htwo : ∀ n < 100, ∀ rest, scanNumber 2 2 ((padded 2 n).toList ++ rest) = some (n, rest) :=
    fun n hn rest => scanNumber_padded (by decide) hn rest
  have hfour : ∀ rest, scanNumber 4 4 ((padded 4 c.date.year.toNat).toList ++ rest)
      = some (c.date.year.toNat, rest) :=
    fun rest => scanNumber_padded (by decide) (by omega) rest
  have hchar : ∀ c cs, scanChar c (c :: cs) = some cs := by
    intro c cs
    rw [scanChar, if_pos rfl]
  have hseparator : ∀ cs, scanSeparator ('T' :: cs) = some cs := fun _ => rfl
  have hyearBack : (c.date.year.toNat : Int) = c.date.year := by omega
  unfold Clock.write writeYear
  rw [if_pos hyear]
  simp only [String.toList_append, show "-".toList = ['-'] from rfl, show "T".toList = ['T'] from rfl,
    show ":".toList = [':'] from rfl, List.append_assoc, List.cons_append, List.nil_append]
  unfold readStrict?
  -- one field after the other, each followed by its separator
  refine (bind_of_eq_some (hfour _) _).trans ?_
  refine (bind_of_eq_some (hchar _ _) _).trans ?_
  refine (bind_of_eq_some (htwo _ hmonth _) _).trans ?_
  refine (bind_of_eq_some (hchar _ _) _).trans ?_
  refine (bind_of_eq_some (htwo _ hday _) _).trans ?_
  refine (bind_of_eq_some (hseparator _) _).trans ?_
  refine (bind_of_eq_some (htwo _ hhour _) _).trans ?_
  refine (bind_of_eq_some (hchar _ _) _).trans ?_
  refine (bind_of_eq_some (htwo _ hminute _) _).trans ?_
  refine (bind_of_eq_some (hchar _ _) _).trans ?_
  refine (bind_of_eq_some (htwo _ hsecond _) _).trans ?_
  refine (bind_of_eq_some (scanOptionalFraction_writeFraction hnano head_writeOffset) _).trans ?_
  refine (bind_of_eq_some (scanOffset_writeOffset (fun _ => hchar ':' _) hoffset) _).trans ?_
  dsimp only
  rw [if_pos List.isEmpty_nil, hyearBack]

/-- **A timestamp whose year has four digits is read back from its text.** -/
theorem ofLiteral?_toText {t : Timestamp} (h : Readable t)
    (hyear : 0 ≤ t.clock.date.year ∧ t.clock.date.year ≤ 9999) :
    ofLiteral? t.toText.toList = some t := by
  obtain ⟨c, offset, hclock, hoffset⟩ := h
  obtain ⟨rfl, rfl, hvalid⟩ := clock_of_ofClock? hclock
  unfold ofLiteral? toText
  rw [readStrict?_write hvalid hyear hoffset, hclock, Option.some_or]

/-! ## What is read from literals -/

theorem natAbs_of_scanOffset {between : List Char → Option (List Char)} {cs rest : List Char}
    {offset : Int} (h : scanOffset between cs = some (offset, rest)) : offset.natAbs < 1440 := by
  unfold scanOffset at h
  split at h
  case h_1 | h_2 =>
    obtain ⟨rfl, -⟩ := Prod.mk.inj (Option.some.inj h)
    decide
  case h_3 =>
    simp only [Option.bind_eq_bind, Option.bind_eq_some_iff, Prod.exists] at h
    obtain ⟨negative, _, -, hours, _, -, _, -, minutes, _, -, h⟩ := h
    split at h
    · cases h
    · obtain ⟨rfl, -⟩ := Prod.mk.inj (Option.some.inj h)
      split
      · omega
      · omega

/-- **What is read from a literal is the time of a clock, less than a day off UTC.** -/
theorem readable_of_ofLiteral? {cs : List Char} {t : Timestamp} (h : ofLiteral? cs = some t) :
    Readable t := by
  have hlocal : ∀ between, readLocalWith? between cs = some t → Readable t := by
    intro between h
    unfold readLocalWith? at h
    simp only [Option.bind_eq_bind, Option.bind_eq_some_iff, Prod.exists] at h
    obtain ⟨date, _, -, _, -, clock, _, -, h⟩ := h
    split at h
    · exact ⟨clock, 0, h, by decide⟩
    · cases h
  unfold ofLiteral? at h
  rcases Option.or_eq_some_iff.mp h with h | ⟨-, h⟩
  · unfold readStrict? at h
    obtain ⟨⟨year, _⟩, -, h⟩ := Option.bind_eq_some_iff.mp h
    obtain ⟨_, -, h⟩ := Option.bind_eq_some_iff.mp h
    obtain ⟨⟨month, _⟩, -, h⟩ := Option.bind_eq_some_iff.mp h
    obtain ⟨_, -, h⟩ := Option.bind_eq_some_iff.mp h
    obtain ⟨⟨day, _⟩, -, h⟩ := Option.bind_eq_some_iff.mp h
    obtain ⟨_, -, h⟩ := Option.bind_eq_some_iff.mp h
    obtain ⟨⟨hour, _⟩, -, h⟩ := Option.bind_eq_some_iff.mp h
    obtain ⟨_, -, h⟩ := Option.bind_eq_some_iff.mp h
    obtain ⟨⟨minute, _⟩, -, h⟩ := Option.bind_eq_some_iff.mp h
    obtain ⟨_, -, h⟩ := Option.bind_eq_some_iff.mp h
    obtain ⟨⟨second, _⟩, -, h⟩ := Option.bind_eq_some_iff.mp h
    obtain ⟨⟨nano, _⟩, -, h⟩ := Option.bind_eq_some_iff.mp h
    obtain ⟨⟨offset, _⟩, hoffset, h⟩ := Option.bind_eq_some_iff.mp h
    dsimp only at h
    split at h
    · exact ⟨_, offset, h, natAbs_of_scanOffset hoffset⟩
    · cases h
  · unfold readLocal? at h
    rcases Option.or_eq_some_iff.mp h with h | ⟨-, h⟩
    · exact hlocal _ h
    · exact hlocal _ h

/-! ## Years that take more than four digits -/

theorem trimStart_of_head {cs : List Char} (h : ∀ c ∈ cs.head?, isBlank c = false) : trimStart cs = cs := by
  unfold trimStart
  cases cs with
  | nil => rfl
  | cons c cs => rw [List.dropWhile_cons_of_neg (by simp [h c rfl])]

theorem isBlank_of_isDigit {c : Char} (h : c.isDigit = true) : isBlank c = false := by
  have h' : '0'.val.toNat ≤ c.toNat ∧ c.toNat ≤ '9'.val.toNat := by
    simp only [Char.isDigit, Bool.and_eq_true, decide_eq_true_eq, ge_iff_le,
      UInt32.le_iff_toNat_le] at h
    exact h
  rw [show '0'.val.toNat = 48 from rfl, show '9'.val.toNat = 57 from rfl] at h'
  unfold isBlank
  simp only [Bool.or_eq_false_iff, Bool.and_eq_false_iff, decide_eq_false_iff_not, beq_eq_false_iff_ne]
  omega

/-- A short field is read from its two digits. -/
theorem scanField_padded {n : Nat} (h : n < 100) (rest : List Char) :
    scanField ((padded 2 n).toList ++ rest) = some (n, rest) := by
  have hlength : (padded 2 n).toList.length = 2 := length_padded (by decide) h
  have htrim : trimStart ((padded 2 n).toList ++ rest) = (padded 2 n).toList ++ rest := by
    refine trimStart_of_head fun c hc => ?_
    cases hp : (padded 2 n).toList with
    | nil =>
        rw [hp] at hlength
        cases hlength
    | cons d ds =>
        rw [hp] at hc
        obtain rfl := Option.some.inj hc
        exact isBlank_of_isDigit (isDigit_of_mem_padded _ (by rw [hp]; exact List.mem_cons_self))
  unfold scanField
  rw [htrim, scanNumber_append isDigit_of_mem_padded hlength (by decide), digitsValue_padded]

/-- The fields of a date are read as they are written, if no hyphen is taken for a gap. -/
theorem scanDate_written {gap : List Char → List Char} (hgap : ∀ cs, gap ('-' :: cs) = '-' :: cs)
    {cs more : List Char} {year : Int} {month day : Nat}
    (hyear : scanYear cs = some (year, '-' :: ((padded 2 month).toList ++
      '-' :: ((padded 2 day).toList ++ more))))
    (hmonth : month < 100) (hday : day < 100) :
    scanDate gap cs = some (⟨year, month, day⟩, more) := by
  have hhyphen : ∀ cs, scanChar '-' (gap ('-' :: cs)) = some cs := by
    intro cs
    rw [hgap, scanChar, if_pos rfl]
  unfold scanDate
  refine (bind_of_eq_some hyear _).trans ?_
  refine (bind_of_eq_some (hhyphen _) _).trans ?_
  refine (bind_of_eq_some (scanField_padded hmonth _) _).trans ?_
  refine (bind_of_eq_some (hhyphen _) _).trans ?_
  exact bind_of_eq_some (scanField_padded hday _) _

/-- So are the fields of a time of day, if no colon is. -/
theorem scanTime_written {gap : List Char → List Char} (hgap : ∀ cs, gap (':' :: cs) = ':' :: cs)
    (date : Date) {hour minute second nano : Nat} (hhour : hour < 100) (hminute : minute < 100)
    (hsecond : second < 100) (hnano : nano < 1000000000) {more : List Char}
    (hmore : ∀ c ∈ more.head?, c.isDigit = false ∧ c ≠ '.') :
    scanTime gap date ((padded 2 hour).toList ++ ':' :: ((padded 2 minute).toList ++
        ':' :: ((padded 2 second).toList ++ ((writeFraction nano).toList ++ more))))
      = some (⟨date, hour, minute, second, nano⟩, more) := by
  have hcolon : ∀ cs, scanChar ':' (gap (':' :: cs)) = some cs := by
    intro cs
    rw [hgap, scanChar, if_pos rfl]
  unfold scanTime
  refine (bind_of_eq_some (scanField_padded hhour _) _).trans ?_
  refine (bind_of_eq_some (hcolon _) _).trans ?_
  refine (bind_of_eq_some (scanField_padded hminute _) _).trans ?_
  refine (bind_of_eq_some (hcolon _) _).trans ?_
  refine (bind_of_eq_some (scanField_padded hsecond _) _).trans ?_
  exact bind_of_eq_some (scanOptionalFraction_writeFraction hnano hmore) _

/-- All digits of a signed year are read. -/
theorem scanNumber_all {ds rest : List Char} (hds : ∀ c ∈ ds, c.isDigit = true) (hne : ds ≠ [])
    (hrest : ∀ c ∈ rest.head?, c.isDigit = false) :
    scanNumber 1 (ds ++ rest).length (ds ++ rest) = some (Binary64.digitsValue ds, rest) := by
  have hspan : (ds ++ rest).takeWhile Char.isDigit = ds := by
    rw [List.takeWhile_append_of_pos hds]
    cases rest with
    | nil => simp
    | cons c rest => rw [List.takeWhile_cons_of_neg (by simp [hrest c rfl]), List.append_nil]
  have hlength := List.length_pos_iff.mpr hne
  unfold scanNumber
  dsimp only
  rw [List.take_length, hspan, if_neg (by omega), List.drop_left]

/-- A signed year is read, of however many digits. -/
theorem scanYear_signed {sign : Char} (hsign : sign = '-' ∨ sign = '+') {ds : List Char}
    (hds : ∀ c ∈ ds, c.isDigit = true) (hne : ds ≠ []) (rest : List Char) :
    ∃ year, scanYear (sign :: (ds ++ '-' :: rest)) = some (year, '-' :: rest) := by
  have hhyphen : ∀ c ∈ ('-' :: rest).head?, c.isDigit = false := by
    rintro c ⟨⟩
    rfl
  have hall := scanNumber_all hds hne hhyphen
  have hminus : ∀ cs, scanYear ('-' :: cs)
      = (scanNumber 1 cs.length cs).map fun read => (-(read.1 : Int), read.2) := fun _ => rfl
  have hplus : ∀ cs, scanYear ('+' :: cs)
      = (scanNumber 1 cs.length cs).map fun read => ((read.1 : Int), read.2) := fun _ => rfl
  rcases hsign with rfl | rfl
  · rw [hminus, hall]
    exact ⟨_, rfl⟩
  · rw [hplus, hall]
    exact ⟨_, rfl⟩

/-- **A timestamp whose year takes more than four digits is not read back.** The strict reader does
not take the sign of the year; the local reader does, and is left with the offset. -/
theorem ofLiteral?_of_longYear {t : Timestamp} (h : t.Proper) (hyear : ¬ t.ShortYear) :
    (∃ sign tail, t.toText.toList = sign :: tail ∧ (sign = '-' ∨ sign = '+')) ∧
      ofLiteral? t.toText.toList = none := by
  unfold ShortYear at hyear
  obtain ⟨hmonth, hday, hhour, hminute, hsecond, hnano⟩ := h.clock_bounds
  obtain ⟨sign, hsign, htext⟩ : ∃ sign, (sign = '-' ∨ sign = '+') ∧
      (writeYear t.clock.date.year).toList = sign :: (padded 4 t.clock.date.year.natAbs).toList := by
    unfold writeYear
    rw [if_neg hyear, String.toList_append]
    split
    · exact ⟨'-', .inl rfl, rfl⟩
    · exact ⟨'+', .inr rfl, rfl⟩
  have hdigits : (padded 4 t.clock.date.year.natAbs).toList ≠ [] := by
    rw [toList_padded]
    exact List.append_ne_nil_of_right_ne_nil _ Nat.toDigits_ne_nil
  unfold toText Clock.write
  simp only [String.toList_append, htext, show "-".toList = ['-'] from rfl, show "T".toList = ['T'] from rfl,
    show ":".toList = [':'] from rfl, List.append_assoc, List.cons_append, List.nil_append]
  refine ⟨⟨sign, _, rfl, hsign⟩, ?_⟩
  generalize htime : (padded 2 t.clock.hour).toList ++ _ = time
  obtain ⟨year, hscan⟩ := scanYear_signed hsign isDigit_of_mem_padded hdigits
    ((padded 2 t.clock.date.month).toList ++ '-' :: ((padded 2 t.clock.date.day).toList ++ 'T' :: time))
  have hstrict : ∀ cs, readStrict? (sign :: cs) = none := by
    rcases hsign with rfl | rfl
    · exact fun _ => rfl
    · exact fun _ => rfl
  rw [ofLiteral?, hstrict, Option.none_or]
  generalize sign :: ((padded 4 t.clock.date.year.natAbs).toList ++ _) = cs at hscan ⊢
  have hdate := scanDate_written (fun cs => id_eq ('-' :: cs)) hscan hmonth hday
  -- after the letter there is a time, and then the offset is left
  have hletter : readLocalWith? (scanChar 'T') cs = none := by
    have hoffset : ¬ (writeOffset t.offset).toList.isEmpty = true := fun hempty =>
      writeOffset_ne_nil t.offset (List.isEmpty_iff.mp hempty)
    refine (bind_of_eq_some hdate _).trans ?_
    refine (bind_of_eq_some (rfl : scanChar 'T' ('T' :: time) = some time) _).trans ?_
    rw [← htime]
    refine (bind_of_eq_some (scanTime_written (fun cs => id_eq (':' :: cs)) _ hhour hminute hsecond
      hnano head_writeOffset) _).trans ?_
    exact if_neg hoffset
  -- where only blanks may be, no time begins with the letter
  have hblanks : readLocalWith? (fun r => some (trimStart r)) cs = none :=
    (bind_of_eq_some hdate _).trans rfl
  rw [readLocal?, hletter, hblanks, Option.none_or]

/-! ## In quotes -/

theorem toText_ne_empty (t : Timestamp) : t.toText ≠ "" := by
  intro h
  have hlist := congrArg String.toList h
  rw [toText, String.toList_append] at hlist
  exact writeOffset_ne_nil t.offset (List.append_eq_nil_iff.mp hlist).2

/-- The characters a timestamp is written with. -/
def isTimePart (c : Char) : Bool := c.isDigit || c == '-' || c == '+' || c == ':' || c == 'T' || c == '.'

theorem all_padded (width n : Nat) : (padded width n).toList.all isTimePart = true := by
  rw [List.all_eq_true]
  intro c hc
  unfold isTimePart
  rw [isDigit_of_mem_padded c hc]
  rfl

theorem all_toText (t : Timestamp) : t.toText.toList.all isTimePart = true := by
  have hyear : (writeYear t.clock.date.year).toList.all isTimePart = true := by
    unfold writeYear
    split
    · exact all_padded _ _
    · rw [String.toList_append, List.all_append, all_padded]
      split <;> rfl
  have hfraction : (writeFraction t.clock.nano).toList.all isTimePart = true := by
    unfold writeFraction
    split
    · rfl
    · split
      · rw [String.toList_append, List.all_append, all_padded]; rfl
      · split
        · rw [String.toList_append, List.all_append, all_padded]; rfl
        · rw [String.toList_append, List.all_append, all_padded]; rfl
  have hoffset : (writeOffset t.offset).toList.all isTimePart = true := by
    unfold writeOffset
    simp only [String.toList_append, List.all_append, all_padded, Bool.and_true]
    split <;> rfl
  unfold toText Clock.write
  simp only [String.toList_append, List.all_append, hyear, hfraction, hoffset, all_padded]
  rfl

end EntityStore.Timestamp
