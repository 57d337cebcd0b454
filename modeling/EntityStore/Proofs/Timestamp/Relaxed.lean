import EntityStore.Proofs.Timestamp.Text

/-!
# Timestamps read back by the relaxed reader

The relaxed reader skips blanks that are not written and takes fields that are shorter than they are
written. **A timestamp whose year has four digits is read back by it from the text that abbreviates
the offset zero**, too.
-/

namespace EntityStore.Timestamp

open Text

/-- No blank comes before the digits of a field. -/
theorem isBlank_of_head_padded {width n : Nat} {rest : List Char} :
    ∀ c ∈ ((padded width n).toList ++ rest).head?, isBlank c = false := by
  intro c hc
  have hne : (padded width n).toList ≠ [] := by
    rw [toList_padded]
    exact List.append_ne_nil_of_right_ne_nil _ Nat.toDigits_ne_nil
  obtain ⟨d, ds, hd⟩ := List.exists_cons_of_ne_nil hne
  rw [hd] at hc
  obtain rfl := Option.some.inj hc
  exact isBlank_of_isDigit (isDigit_of_mem_padded _ (by rw [hd]; exact List.mem_cons_self))

/-- A year of four digits is read without its sign. -/
theorem scanYear_padded {n : Nat} (h : n < 10000) (rest : List Char) :
    scanYear ((padded 4 n).toList ++ rest) = some ((n : Int), rest) := by
  have hlength : (padded 4 n).toList.length = 4 := length_padded (by decide) h
  have hread : scanNumber 1 4 ((padded 4 n).toList ++ rest) = some (n, rest) := by
    rw [scanNumber_append isDigit_of_mem_padded hlength (by decide), digitsValue_padded]
  unfold scanYear
  rw [trimStart_of_head isBlank_of_head_padded]
  split
  case h_1 | h_2 =>
    -- no digit is a sign
    next heq =>
    rw [heq] at hread
    cases hread
  case h_3 => rw [hread]; rfl

/-- The offset as it is written, abbreviated or not. -/
def zuluOffset (minutes : Int) : String := if minutes = 0 then "Z" else writeOffset minutes

theorem head_zuluOffset {minutes : Int} :
    ∀ c ∈ (zuluOffset minutes).toList.head?,
      (c.isDigit = false ∧ c ≠ '.') ∧ isBlank c = false ∧ c.toLower ≠ 'u' := by
  intro c hc
  have hsign : c = 'Z' ∨ c = '-' ∨ c = '+' := by
    unfold zuluOffset writeOffset at hc
    split at hc
    · exact .inl (Option.some.inj hc).symm
    · split at hc <;> rw [String.toList_append, String.toList_append, String.toList_append] at hc
      · exact .inr (.inl (Option.some.inj hc).symm)
      · exact .inr (.inr (Option.some.inj hc).symm)
  rcases hsign with rfl | rfl | rfl <;> decide

theorem scanRelaxedOffset_zuluOffset {minutes : Int} (h : minutes.natAbs < 1440) :
    scanRelaxedOffset (zuluOffset minutes).toList = some (minutes, []) := by
  have hutc : ¬ (((zuluOffset minutes).toList.take 3).map Char.toLower == ['u', 't', 'c']) = true := by
    rw [beq_iff_eq]
    intro heq
    cases hcs : (zuluOffset minutes).toList with
    | nil => rw [hcs] at heq; cases heq
    | cons c cs =>
        rw [hcs] at heq
        exact (head_zuluOffset c (by rw [hcs]; rfl)).2.2 (List.cons.inj heq).1
  unfold scanRelaxedOffset
  rw [if_neg hutc]
  unfold zuluOffset
  split
  case isTrue hzero => rw [hzero]; rfl
  case isFalse =>
    refine scanOffset_writeOffset (fun n => ?_) h
    -- of colons and blanks there is one, and then the minutes
    have hdigits : ∀ c ∈ (padded 2 n).toList.head?, (c == ':' || isBlank c) = false := by
      intro c hc
      have hblank := @isBlank_of_head_padded 2 n [] c (by rwa [List.append_nil])
      have hdigit := isDigit_of_mem_padded c (List.mem_of_mem_head? hc)
      rw [hblank, Bool.or_false, beq_eq_false_iff_ne]
      rintro rfl
      cases hdigit
    rw [List.dropWhile_cons_of_pos rfl]
    cases hcs : (padded 2 n).toList with
    | nil => rfl
    | cons c cs =>
        rw [hcs] at hdigits
        rw [List.dropWhile_cons_of_neg (by simp [hdigits c rfl])]

/-- A clock with an offset is read back by the relaxed reader, if its year has four digits. -/
theorem readRelaxed?_write {c : Clock} {offset : Int} (hvalid : c.isValid = true)
    (hyear : 0 ≤ c.date.year ∧ c.date.year ≤ 9999) (hoffset : offset.natAbs < 1440) :
    readRelaxed? (c.write ++ zuluOffset offset).toList = ofClock? c offset := by
  obtain ⟨hmonth, hday, hhour, hminute, hsecond, hnano⟩ := Clock.isValid_bounds hvalid
  have hscan : ∀ rest, scanYear ((padded 4 c.date.year.toNat).toList ++ rest)
      = some (c.date.year, rest) := by
    intro rest
    rw [scanYear_padded (by omega), Int.toNat_of_nonneg hyear.1]
  have hhyphen : ∀ cs, trimStart ('-' :: cs) = '-' :: cs := fun _ => rfl
  have hcolon : ∀ cs, trimStart (':' :: cs) = ':' :: cs := fun _ => rfl
  have hseparator : ∀ cs, scanSeparator ('T' :: cs) = some cs := fun _ => rfl
  have htrim : trimStart (zuluOffset offset).toList = (zuluOffset offset).toList :=
    trimStart_of_head fun c hc => (head_zuluOffset c hc).2.1
  unfold Clock.write writeYear
  rw [if_pos hyear]
  simp only [String.toList_append, show "-".toList = ['-'] from rfl, show "T".toList = ['T'] from rfl,
    show ":".toList = [':'] from rfl, List.append_assoc, List.cons_append, List.nil_append]
  unfold readRelaxed?
  refine (bind_of_eq_some (scanDate_written hhyphen (hscan _) hmonth hday) _).trans ?_
  refine (bind_of_eq_some (hseparator _) _).trans ?_
  refine (bind_of_eq_some (scanTime_written hcolon _ hhour hminute hsecond hnano
    fun c hc => (head_zuluOffset c hc).1) _).trans ?_
  refine (bind_of_eq_some (htrim ▸ scanRelaxedOffset_zuluOffset hoffset) _).trans ?_
  rfl

/-- **A timestamp whose year has four digits is read back by the relaxed reader.** -/
theorem readRelaxed?_toZuluText {t : Timestamp} (h : Readable t)
    (hyear : 0 ≤ t.clock.date.year ∧ t.clock.date.year ≤ 9999) :
    readRelaxed? t.toZuluText.toList = some t := by
  obtain ⟨c, offset, hclock, hoffset⟩ := h
  obtain ⟨rfl, rfl, hvalid⟩ := clock_of_ofClock? hclock
  have htext : t.toZuluText = t.clock.write ++ zuluOffset t.offset := rfl
  rw [htext, readRelaxed?_write hvalid hyear hoffset, hclock]

end EntityStore.Timestamp
