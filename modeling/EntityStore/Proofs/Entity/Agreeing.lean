import EntityStore.Proofs.Entity.Alike

/-!
# Values that agree

A criterion compares by agreement, which widens: texts agree with addresses of the same characters,
and integers with floats. What agrees with a text is whatever has its characters, and what agrees with
a timestamp is a timestamp of the same instant. Zeros of either sign are one number, and timestamps of
one instant one time: nothing that is compared with one of them can tell it from the other. **Values
that are the same agree with the same values**, so that of several that are the same one is enough in a
list.
-/

namespace EntityStore.Value

variable {v w x : Value}

/-- Texts and addresses agree by their characters. -/
theorem agrees_of_text {s : String} (hv : v.text? = some s) (x : Value) :
    x.agrees v = (x.text? == some s) := by
  have htext : ∀ a : String, (some (compareText a s) == some .eq) = (some a == some s) := by
    intro a
    refine Bool.eq_iff_iff.mpr ?_
    rw [beq_iff_eq, beq_iff_eq, Option.some.injEq, Option.some.injEq, compareText,
      Std.LawfulEqOrd.compare_eq_iff_eq]
  cases v with
  | string t | url t =>
      obtain rfl : t = s := Option.some.inj hv
      cases x <;> first | rfl | exact htext _
  | _ => cases hv

@[inherit_doc agrees_of_text]
theorem string_agrees_iff {s : String} : (Value.string s).agrees v = true ↔ v.text? = some s := by
  cases v with
  | string t | url t => rw [agrees_of_text rfl, beq_iff_eq]; exact eq_comm
  | _ => simp [agrees, compare?, text?, compareNumbers?, number?]

theorem instants_agree_iff {t u : Timestamp} :
    (Value.timestamp u).agrees (.timestamp t) = true ↔ u.instant = t.instant := by
  have hinstant : (u.compare t == .eq) = true ↔ u.instant = t.instant := by
    simp [Timestamp.compare, Timestamp.instant, Ordering.then_eq_eq, and_assoc]
  simpa [agrees, compare?] using hinstant

/-- Timestamps agree by their instants. -/
theorem agrees_timestamp_iff {t : Timestamp} :
    x.agrees (.timestamp t) = true ↔ ∃ u, x = .timestamp u ∧ u.instant = t.instant := by
  cases x with
  | timestamp u => simpa using instants_agree_iff
  | _ => simp [agrees, compare?, text?, compareNumbers?, number?]

@[inherit_doc agrees_timestamp_iff]
theorem timestamp_agrees_iff {t : Timestamp} :
    (Value.timestamp t).agrees v = true ↔ ∃ u, v = .timestamp u ∧ u.instant = t.instant := by
  cases v with
  | timestamp u => simpa using instants_agree_iff.trans eq_comm
  | _ => simp [agrees, compare?, text?, compareNumbers?, number?]

/-- Null agrees with nothing, and nothing with null. -/
theorem agrees_null (x : Value) : x.agrees .null = false := by
  cases x <;> rfl

@[inherit_doc agrees_null]
theorem null_agrees (v : Value) : Value.null.agrees v = false := by
  cases v <;> rfl

/-- Nothing that is compared with a value can tell it from its twin. -/
theorem compare?_of_twins (h : v.Twins w) (x : Value) : x.compare? v = x.compare? w := by
  cases h with
  | @zeros a b ha hb =>
      have hrank : a.rank = b.rank :=
        (Binary64.rank_of_isZero ha).trans (Binary64.rank_of_isZero hb).symm
      have hcompare : ∀ y : Binary64, y.compare? a = y.compare? b := by
        intro y
        unfold Binary64.compare?
        rw [Binary64.not_isNaN_of_isZero ha, Binary64.not_isNaN_of_isZero hb, hrank]
      cases x <;> first | rfl | simp [compare?, text?, compareNumbers?, number?, hcompare]
  | @instants s t h =>
      obtain ⟨hday, hclock⟩ := Prod.mk.inj h
      obtain ⟨hsecond, hnano⟩ := Prod.mk.inj hclock
      have hcompare : ∀ u : Timestamp, u.compare s = u.compare t := by
        intro u
        rw [Timestamp.compare, Timestamp.compare, hday, hsecond, hnano]
      cases x <;> first | rfl | simp [compare?, hcompare]

/-! ## Values that stand for one another -/

theorem Twins.symm (h : v.Twins w) : w.Twins v := by
  cases h with
  | zeros hx hy => exact .zeros hy hx
  | instants h => exact .instants h.symm

/-- Values that stand for one another: identical ones, and twins. -/
def Akin (v w : Value) : Prop := v = w ∨ v.Twins w

theorem Akin.refl (v : Value) : v.Akin v := .inl rfl

theorem Akin.symm (h : v.Akin w) : w.Akin v := h.imp Eq.symm Twins.symm

theorem akin_of_same (h : v.same w = true) : v.Akin w := (same_iff_alike.mp h).imp_left And.left

namespace Akin

theorem kind?_eq (h : v.Akin w) : v.kind? = w.kind? := by
  rcases h with rfl | ⟨_, _⟩ | _ <;> rfl

theorem text?_eq (h : v.Akin w) : v.text? = w.text? := by
  rcases h with rfl | ⟨_, _⟩ | _ <;> rfl

theorem compare?_eq (h : v.Akin w) (x : Value) : x.compare? v = x.compare? w := by
  rcases h with rfl | htwins
  · rfl
  · exact compare?_of_twins htwins x

theorem agrees_eq (h : v.Akin w) (x : Value) : x.agrees v = x.agrees w := by
  rw [agrees, agrees, h.compare?_eq]

end Akin

/-- **Values that are the same agree with the same values.** -/
theorem agrees_of_same (h : v.same w = true) (x : Value) : x.agrees v = x.agrees w :=
  (akin_of_same h).agrees_eq x

end EntityStore.Value
