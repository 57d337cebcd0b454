import EntityStore.Binary64.Text
import EntityStore.Proofs.Binary64.Decimals
import EntityStore.Proofs.Text.Integer

/-!
# Floats read back from their text

A written number is digits, a fraction after a point or none, and an exponent or none. Where the
point stands and what the exponent is only decides how the same digits are scaled, so every layout
writes the decimal it is given, and **a finite number is read back from its literal form**, bit for
bit.
-/

namespace EntityStore.Binary64

open Text

/-- The parts of a written number. -/
structure Numeral where
  whole : List Char
  fraction : List Char
  exponent : Option ℤ

namespace Numeral

def exponentText (n : Numeral) : List Char :=
  match n.exponent with
  | none => []
  | some e => 'e' :: (writeInt e).toList

def text (n : Numeral) : List Char :=
  n.whole ++ ((if n.fraction = [] then [] else '.' :: n.fraction) ++ n.exponentText)

/-- What a numeral has to be: digits on both sides of the point, on the left at least one. -/
structure WellFormed (n : Numeral) : Prop where
  whole_ne : n.whole ≠ []
  whole : ∀ c ∈ n.whole, c.isDigit = true
  fraction : ∀ c ∈ n.fraction, c.isDigit = true

/-- The power of ten the digits are multiplied by. -/
def power (n : Numeral) : ℤ := n.exponent.getD 0 - n.fraction.length

/-- The fraction that the numeral stands for. -/
def value (n : Numeral) : ℚ := (digitsValue (n.whole ++ n.fraction) : ℚ) * 10 ^ n.power

variable {n : Numeral}

/-! ## Reading numerals -/

theorem spanDigits_append {ds rest : List Char} (hds : ∀ c ∈ ds, c.isDigit = true)
    (hrest : ∀ c ∈ rest.head?, c.isDigit = false) : spanDigits (ds ++ rest) = (ds, rest) := by
  unfold spanDigits
  rw [List.takeWhile_append_of_pos hds, List.dropWhile_append_of_pos hds]
  cases rest with
  | nil => simp
  | cons c rest =>
      have hc := hrest c rfl
      rw [List.takeWhile_cons_of_neg (by simp [hc]), List.dropWhile_cons_of_neg (by simp [hc]),
        List.append_nil]

/-- No exponent begins with a digit or a point. -/
theorem head_exponentText (n : Numeral) : ∀ c ∈ n.exponentText.head?, c = 'e' := by
  unfold exponentText
  intro c hc
  cases h : n.exponent with
  | none => rw [h] at hc; cases hc
  | some e =>
      rw [h] at hc
      exact (Option.some.inj hc).symm

/-- An exponent is read back. -/
theorem readExponent?_exponentText (n : Numeral) :
    readExponent? n.exponentText = some (n.exponent.getD 0) := by
  unfold exponentText
  cases n.exponent with
  | none => rfl
  | some e =>
      obtain ⟨d, tail, hd, hdigit⟩ := exists_toDigits e.natAbs
      have hall : (Nat.toDigits 10 e.natAbs).all Char.isDigit = true :=
        List.all_eq_true.mpr isDigit_of_mem_toDigits
      have hvalue := digitsValue_toDigits e.natAbs
      rw [hd] at hall hvalue
      have hminus : d ≠ '-' := by rintro rfl; cases hdigit
      have hplus : d ≠ '+' := by rintro rfl; cases hdigit
      dsimp only
      rw [toList_writeInt, hd]
      split
      case isTrue hneg =>
        unfold readExponent?
        simp only [List.cons_append, List.nil_append, hall, hvalue]
        simp only [beq_self_eq_true, Bool.true_or, if_true, List.isEmpty_cons, Bool.not_true,
          Bool.or_self, Bool.false_eq_true, if_false, Option.getD_some, Option.some.injEq]
        omega
      case isFalse hneg =>
        unfold readExponent?
        simp only [List.nil_append, beq_self_eq_true, Bool.true_or, if_true]
        split
        case h_1 heq => exact absurd (List.cons.inj heq).1 hminus
        case h_2 heq => exact absurd (List.cons.inj heq).1 hplus
        case h_3 =>
          simp only [hall, hvalue, List.isEmpty_cons, Bool.not_true, Bool.or_self,
            Bool.false_eq_true, if_false, Option.getD_some, Option.some.injEq]
          omega

/-- **A numeral is read as the decimal it stands for.** -/
theorem readUnsigned?_text (h : n.WellFormed) (negative : Bool) :
    readUnsigned? negative n.text
      = some (ofDecimal negative (digitsValue (n.whole ++ n.fraction)) n.power) := by
  have hexp : ∀ c ∈ n.exponentText.head?, c.isDigit = false := by
    intro c hc
    rw [n.head_exponentText c hc]
    rfl
  have hwhole : n.whole.isEmpty = false := by
    rw [List.isEmpty_eq_false_iff]
    exact h.whole_ne
  unfold readUnsigned? text power
  by_cases hf : n.fraction = []
  · rw [if_pos hf, List.nil_append, spanDigits_append h.whole hexp]
    dsimp only
    split
    case h_1 heq =>
      have := n.head_exponentText '.' (by rw [heq]; rfl)
      cases this
    case h_2 =>
      dsimp only
      rw [hwhole, Bool.false_and, if_neg (by simp), readExponent?_exponentText, hf]
      rfl
  · rw [if_neg hf, List.cons_append, spanDigits_append h.whole (by rintro c ⟨⟩; rfl)]
    dsimp only
    split
    case h_1 r heq =>
      obtain rfl := (List.cons.inj heq).2
      rw [spanDigits_append h.fraction hexp]
      dsimp only
      rw [hwhole, Bool.false_and, if_neg (by simp), readExponent?_exponentText]
      rfl
    case h_2 hne => exact absurd rfl (hne _)

end Numeral

/-! ## Writing decimals -/

/-- The text is a numeral of the digits, moved by a power of ten. It has a point or an exponent, so
that it is none of an integer. -/
def Spells (cs ds : List Char) (power : ℤ) : Prop :=
  ∃ n : Numeral, n.WellFormed ∧ cs = n.text ∧ n.value = digitsValue ds * 10 ^ power ∧
    (n.fraction ≠ [] ∨ n.exponent ≠ none)

section Spells

variable {ds : List Char} {power : ℤ}

theorem isDigit_of_mem_zeros {n : Nat} : ∀ c ∈ List.replicate n '0', c.isDigit = true := by
  intro c hc
  rw [List.eq_of_mem_replicate hc]
  rfl

/-- A power of ten that is not negative is zeros up to the point. -/
theorem spells_zeros_point (hdigits : ∀ c ∈ ds, c.isDigit = true) (hne : ds ≠ []) (hpower : 0 ≤ power) :
    Spells (ds ++ List.replicate power.toNat '0' ++ ['.', '0']) ds power := by
  refine ⟨⟨ds ++ List.replicate power.toNat '0', ['0'], none⟩, ⟨by simp [hne], ?_, ?_⟩, ?_, ?_, by simp⟩
  · intro c hc
    exact (List.mem_append.mp hc).elim (hdigits c) (isDigit_of_mem_zeros c)
  · intro c hc
    rw [List.mem_singleton.mp hc]
    rfl
  · simp [Numeral.text, Numeral.exponentText]
  · have hpow : (10 : ℚ) ^ power = 10 ^ power.toNat := by
      rw [← zpow_natCast, Int.toNat_of_nonneg hpower]
    have hzero : digitsValue ['0'] = 0 := rfl
    unfold Numeral.value Numeral.power
    dsimp only
    rw [digitsValue_append, digitsValue_append, digitsValue_zeros, hzero, hpow]
    simp

/-- A power of ten that takes some of the digits puts the point among them. -/
theorem spells_point_among (hdigits : ∀ c ∈ ds, c.isDigit = true) (hne : ds ≠ []) (hpower : power < 0)
    (hlead : 0 ≤ (ds.length : ℤ) - 1 + power) :
    Spells (ds.take (((ds.length : ℤ) - 1 + power).toNat + 1)
      ++ '.' :: ds.drop (((ds.length : ℤ) - 1 + power).toNat + 1)) ds power := by
  have hsplit : ds.take (((ds.length : ℤ) - 1 + power).toNat + 1)
      ++ ds.drop (((ds.length : ℤ) - 1 + power).toNat + 1) = ds := List.take_append_drop _ _
  have hcount : ((ds.length - (((ds.length : ℤ) - 1 + power).toNat + 1) : Nat) : ℤ) = -power := by omega
  have hdrop : ds.drop (((ds.length : ℤ) - 1 + power).toNat + 1) ≠ [] := by
    rw [ne_eq, List.drop_eq_nil_iff]
    omega
  refine ⟨⟨ds.take (((ds.length : ℤ) - 1 + power).toNat + 1),
    ds.drop (((ds.length : ℤ) - 1 + power).toNat + 1), none⟩, ⟨by simp [hne], ?_, ?_⟩, ?_, ?_, .inl hdrop⟩
  · exact fun c hc => hdigits c (List.mem_of_mem_take hc)
  · exact fun c hc => hdigits c (List.mem_of_mem_drop hc)
  · unfold Numeral.text Numeral.exponentText
    dsimp only
    rw [if_neg hdrop, List.append_nil]
  · unfold Numeral.value Numeral.power
    dsimp only
    rw [hsplit, List.length_drop, hcount]
    simp

/-- A power of ten that takes more than the digits is zeros after the point. -/
theorem spells_point_zeros (hdigits : ∀ c ∈ ds, c.isDigit = true) (hne : ds ≠ [])
    (hlead : (ds.length : ℤ) - 1 + power < 0) :
    Spells ('0' :: '.' :: List.replicate (-((ds.length : ℤ) - 1 + power) - 1).toNat '0' ++ ds) ds
      power := by
  refine ⟨⟨['0'], List.replicate (-((ds.length : ℤ) - 1 + power) - 1).toNat '0' ++ ds, none⟩,
    ⟨by simp, ?_, ?_⟩, ?_, ?_, by simp [hne]⟩
  · intro c hc
    rw [List.mem_singleton.mp hc]
    rfl
  · intro c hc
    exact (List.mem_append.mp hc).elim (isDigit_of_mem_zeros c) (hdigits c)
  · simp [Numeral.text, Numeral.exponentText, hne]
  · have hcount : (((-((ds.length : ℤ) - 1 + power) - 1).toNat + ds.length : Nat) : ℤ) = -power := by
      omega
    have hzero : digitsValue ['0'] = 0 := rfl
    unfold Numeral.value Numeral.power
    dsimp only
    rw [digitsValue_append, digitsValue_append, digitsValue_zeros, hzero, List.length_append,
      List.length_replicate, hcount]
    simp

/-- The point after the first digit, if there are more, and an exponent. -/
theorem spells_exponent {c : Char} {rest : List Char} (hdigits : ∀ x ∈ c :: rest, x.isDigit = true) :
    Spells ((match c :: rest with
        | [] => []
        | [c] => [c]
        | c :: rest => c :: '.' :: rest) ++ 'e' :: (writeInt (((c :: rest).length : ℤ) - 1 + power)).toList)
      (c :: rest) power := by
  refine ⟨⟨[c], rest, some (((c :: rest).length : ℤ) - 1 + power)⟩, ⟨by simp, ?_, ?_⟩, ?_, ?_, by simp⟩
  · intro x hx
    rw [List.mem_singleton.mp hx]
    exact hdigits c List.mem_cons_self
  · exact fun x hx => hdigits x (List.mem_cons_of_mem _ hx)
  · cases rest with
    | nil => simp [Numeral.text, Numeral.exponentText]
    | cons x rest => simp [Numeral.text, Numeral.exponentText]
  · have hpower : ((c :: rest).length : ℤ) - 1 + power - rest.length = power := by
      rw [List.length_cons]
      push_cast
      ring
    unfold Numeral.value Numeral.power
    dsimp only
    rw [List.singleton_append, Option.getD_some, hpower]

end Spells

/-- **A layout without plus signs writes a numeral of the decimal it is given.** -/
theorem Layout.spells_write {layout : Layout} (hplus : layout.plusSign = false) (d : Decimal) :
    Spells (layout.write d) (Nat.toDigits 10 d.digits) d.power := by
  have hdigits : ∀ c ∈ Nat.toDigits 10 d.digits, c.isDigit = true := isDigit_of_mem_toDigits
  have hne : Nat.toDigits 10 d.digits ≠ [] := Nat.toDigits_ne_nil
  unfold Layout.write
  dsimp only
  rw [toList_toString]
  generalize Nat.toDigits 10 d.digits = ds at hdigits hne
  split
  case isTrue =>
    split
    case isTrue hpower => exact spells_zeros_point hdigits hne hpower
    case isFalse hpower =>
      split
      case isTrue hlead => exact spells_point_among hdigits hne (by omega) hlead
      case isFalse hlead => exact spells_point_zeros hdigits hne (by omega)
  case isFalse =>
    obtain ⟨c, rest, rfl⟩ := List.exists_cons_of_ne_nil hne
    rw [hplus, Bool.false_and, if_neg (by simp), String.empty_append]
    exact spells_exponent hdigits

theorem Layout.exists_numeral {layout : Layout} (hplus : layout.plusSign = false) (d : Decimal) :
    ∃ n : Numeral, n.WellFormed ∧ layout.write d = n.text ∧ n.value = d.value ∧
      (n.fraction ≠ [] ∨ n.exponent ≠ none) := by
  have hspells := Layout.spells_write hplus d
  rw [Spells, digitsValue_toDigits] at hspells
  exact hspells

/-! ## The literal form -/

/-- The literal form of a finite number: a sign, and a numeral that is read as its magnitude. -/
theorem exists_numeral_of_finite {x : Binary64} (hfinite : x.isFinite = true) :
    ∃ n : Numeral, n.WellFormed ∧ (n.fraction ≠ [] ∨ n.exponent ≠ none) ∧
      x.toText.toList = (if x.isNegative then ['-'] else []) ++ n.text ∧
      readUnsigned? x.isNegative n.text = some x := by
  have hsmall : x.magnitude < infiniteMagnitude := by simpa [isFinite] using hfinite
  have hnan : x.isNaN = false := by simpa [isNaN] using hsmall.le
  have hinf : x.isInfinite = false := by simpa [isInfinite] using hsmall.ne
  have htext : x.toText.toList = literalLayout.writeFinite x := by
    unfold toText
    rw [hnan, hinf]
    exact String.toList_ofList
  rw [htext]
  unfold Layout.writeFinite
  cases hzero : x.isZero with
  | true =>
      have hdigits : ∀ c ∈ ['0'], c.isDigit = true := by
        intro c hc
        rw [List.mem_singleton.mp hc]
        rfl
      have hn : Numeral.WellFormed ⟨['0'], ['0'], none⟩ := ⟨by simp, hdigits, hdigits⟩
      refine ⟨⟨['0'], ['0'], none⟩, hn, by simp, rfl, ?_⟩
      have hmag : x.magnitude = 0 := by simpa [isZero] using hzero
      have hself := ofMagnitude_self x
      rw [hmag] at hself
      rw [Numeral.readUnsigned?_text hn]
      exact congrArg some hself
  | false =>
      have hplus : literalLayout.plusSign = false := rfl
      obtain ⟨n, hn, hwrite, hvalue, hmark⟩ := Layout.exists_numeral hplus (x.shortest literalLayout.tie)
      refine ⟨n, hn, hmark, by rw [hwrite]; rfl, ?_⟩
      have hcontains := shortest_contains hfinite hzero literalLayout.tie
      rw [← hvalue] at hcontains
      rw [Numeral.readUnsigned?_text hn, ofDecimal_of_contains hfinite hzero hcontains, ofMagnitude_self]

/-- What begins with a digit is none of the names for special values. -/
theorem ne_of_head_isDigit {d : Char} {tail word : List Char} (hd : d.isDigit = true)
    (hword : ∀ c ∈ word.head?, c.isDigit = false) : (d :: tail).map Char.toLower ≠ word := by
  rintro rfl
  have hlower := hword d.toLower rfl
  have hself : d.toLower = d := by
    unfold Char.isDigit at hd
    unfold Char.toLower
    split
    case isTrue hupper =>
      simp only [Bool.and_eq_true, decide_eq_true_eq] at hd hupper
      have h1 := hd.2
      have h2 := hupper.1
      exact absurd (UInt32.le_trans h2 h1) (by decide)
    case isFalse => rfl
  rw [hself, hd] at hlower
  cases hlower

/-- **A finite number is read back from its literal form.** -/
theorem ofText?_toText {x : Binary64} (hfinite : x.isFinite = true) :
    ofText? x.toText.toList = some x := by
  obtain ⟨n, hn, -, htext, hread⟩ := exists_numeral_of_finite hfinite
  obtain ⟨d, tail, hwhole⟩ := List.exists_cons_of_ne_nil hn.whole_ne
  have hd : d.isDigit = true := hn.whole d (by rw [hwhole]; exact List.mem_cons_self)
  obtain ⟨rest, hrest⟩ : ∃ rest, n.text = d :: rest := by
    unfold Numeral.text
    rw [hwhole]
    exact ⟨_, rfl⟩
  have hinf : ((d :: rest).map Char.toLower == "inf".toList) = false := by
    rw [beq_eq_false_iff_ne]
    exact ne_of_head_isDigit hd (by rintro c ⟨⟩; rfl)
  have hinfinity : ((d :: rest).map Char.toLower == "infinity".toList) = false := by
    rw [beq_eq_false_iff_ne]
    exact ne_of_head_isDigit hd (by rintro c ⟨⟩; rfl)
  have hnan : ((d :: rest).map Char.toLower == "nan".toList) = false := by
    rw [beq_eq_false_iff_ne]
    exact ne_of_head_isDigit hd (by rintro c ⟨⟩; rfl)
  have hminus : d ≠ '-' := by rintro rfl; cases hd
  have hplus : d ≠ '+' := by rintro rfl; cases hd
  rw [hrest] at htext hread
  rw [htext]
  unfold ofText?
  cases hneg : x.isNegative with
  | true =>
      rw [hneg] at hread
      simp only [if_true, List.cons_append, List.nil_append, hinf, hinfinity, hnan, Bool.or_self,
        Bool.false_eq_true, if_false]
      exact hread
  | false =>
      rw [hneg] at hread
      simp only [Bool.false_eq_true, if_false, List.nil_append]
      split
      case h_1 heq => exact absurd (List.cons.inj heq).1 hminus
      case h_2 heq => exact absurd (List.cons.inj heq).1 hplus
      case h_3 =>
        simp only [hinf, hinfinity, hnan, Bool.or_self, Bool.false_eq_true, if_false]
        exact hread

/-! ## What is not a number -/

theorem isNaN_of_readUnsigned? {negative : Bool} {cs : List Char} {x : Binary64}
    (h : readUnsigned? negative cs = some x) : x.isNaN = false := by
  have hmap : ∀ {rest : List Char} {f : ℤ → Binary64}, (∀ e, (f e).isNaN = false) →
      (readExponent? rest).map f = some x → x.isNaN = false := by
    intro rest f hf h
    obtain ⟨e, -, rfl⟩ := Option.map_eq_some_iff.mp h
    exact hf e
  unfold readUnsigned? at h
  dsimp only at h
  split at h
  · split at h
    · cases h
    · exact hmap (fun e => isNaN_ofDecimal _ _ _) h
  · split at h
    · cases h
    · exact hmap (fun e => isNaN_ofDecimal _ _ _) h

/-- No name of a special value has a point or an exponent. -/
theorem isNaN_of_ofText? {cs : List Char} {x : Binary64} (h : ofText? cs = some x)
    (hfloat : (cs.any fun c => c == '.' || c == 'e' || c == 'E') = true) : x.isNaN = false := by
  obtain ⟨c, hc, hmark⟩ := List.any_eq_true.mp hfloat
  have hmark' : (c = '.' ∨ c = 'e') ∨ c = 'E' := by simpa using hmark
  unfold ofText? at h
  split at h
  case h_1 negative body heq =>
    have hbody : c ∈ body := by
      split at heq
      case h_1 =>
        obtain ⟨-, rfl⟩ := Prod.mk.inj heq
        rcases List.mem_cons.mp hc with rfl | hc
        · simp at hmark'
        · exact hc
      case h_2 =>
        obtain ⟨-, rfl⟩ := Prod.mk.inj heq
        rcases List.mem_cons.mp hc with rfl | hc
        · simp at hmark'
        · exact hc
      case h_3 =>
        obtain ⟨-, rfl⟩ := Prod.mk.inj heq
        exact hc
    dsimp only at h
    split at h
    · rw [← Option.some.inj h]
      exact isNaN_ofMagnitude (Nat.le_refl _) negative
    · split at h
      case isTrue hnan =>
        have hmem : c.toLower ∈ "nan".toList := by
          rw [← eq_of_beq hnan]
          exact List.mem_map_of_mem hbody
        rcases hmark' with (rfl | rfl) | rfl <;> exact absurd hmem (by decide)
      case isFalse => exact isNaN_of_readUnsigned? h

end EntityStore.Binary64
