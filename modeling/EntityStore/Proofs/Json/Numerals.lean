import EntityStore.Json.Printer
import EntityStore.Json.Reader
import EntityStore.Proofs.Text.Integer
import Mathlib.Data.List.TakeWhile

/-!
# Numbers read back from JSON

A numeral ends where no character follows that could belong to one, so what is read of it does not
depend on what follows. An integer of 64 bits is read back from its digits. Whether a float is read
back is a matter of its digits alone: the reader keeps nineteen or twenty of them and scales in steps,
each of which rounds, so not every float is.
-/

namespace EntityStore.Json

open Text

/-- The characters that numerals are made of. -/
def isNumeralChar (c : Char) : Bool :=
  c.isDigit || c == '.' || c == 'e' || c == 'E' || c == '+' || c == '-'

/-- A text that no numeral goes on with. -/
def EndsNumeral (rest : List Char) : Prop := ∀ c ∈ rest.head?, isNumeralChar c = false

theorem endsNumeral_nil : EndsNumeral [] := nofun

theorem endsNumeral_cons {c : Char} (hc : isNumeralChar c = false) (rest : List Char) :
    EndsNumeral (c :: rest) := by
  intro d hd
  rwa [← Option.some.inj hd]

theorem EndsNumeral.not_isDigit {rest : List Char} (h : EndsNumeral rest) :
    ∀ c ∈ rest.head?, c.isDigit = false := by
  intro c hc
  have hnot := h c hc
  simp only [isNumeralChar, Bool.or_eq_false_iff] at hnot
  exact hnot.1.1.1.1.1

theorem EndsNumeral.ne_cons {c : Char} (hc : isNumeralChar c = true) {rest : List Char}
    (h : EndsNumeral rest) (tail : List Char) : rest ≠ c :: tail := by
  rintro rfl
  rw [h c rfl] at hc
  cases hc

/-- Digits that are taken from a text are taken from it whatever follows. -/
theorem takeWhile_append_of_ends {cs rest : List Char}
    (hrest : ∀ c ∈ rest.head?, c.isDigit = false) :
    (cs ++ rest).takeWhile Char.isDigit = cs.takeWhile Char.isDigit := by
  induction cs with
  | nil =>
    cases rest with
    | nil => rfl
    | cons c rest => exact List.takeWhile_cons_of_neg (by simp [hrest c rfl])
  | cons c cs ih =>
    rw [List.cons_append, List.takeWhile_cons, List.takeWhile_cons, ih]

theorem drop_takeWhile_append {cs : List Char} (rest : List Char) :
    (cs ++ rest).drop (cs.takeWhile Char.isDigit).length
      = cs.drop (cs.takeWhile Char.isDigit).length ++ rest :=
  List.drop_append_of_le_length (List.takeWhile_prefix _).length_le

/-! ## The parts of a numeral -/

/-- The digits after a point, if there is one. -/
def readFraction? : List Char → Option (Option (List Char) × List Char)
  | '.' :: r =>
    let f := r.takeWhile Char.isDigit
    if f.isEmpty then none else some (some f, r.drop f.length)
  | r => some (none, r)

/-- The exponent, if there is one. -/
def readPower? : List Char → Option (Option (Bool × List Char) × List Char)
  | 'e' :: r => (readExponent? r).map fun (e, r) => (some e, r)
  | 'E' :: r => (readExponent? r).map fun (e, r) => (some e, r)
  | r => some (none, r)

/-- A numeral is read part by part. -/
theorem readNumeral?_eq (negative : Bool) (cs : List Char) :
    readNumeral? negative cs =
      let digits := cs.takeWhile Char.isDigit
      if digits.isEmpty || (digits.head? == some '0' && digits.length != 1) then none
      else (readFraction? (cs.drop digits.length)).bind fun (fraction, cs) =>
        (readPower? cs).map fun (exponent, cs) => (⟨negative, digits, fraction, exponent⟩, cs) := by
  have hpower : ∀ (digits : List Char) (fraction : Option (List Char)) (cs : List Char),
      (do
        let (exponent, cs) ← match cs with
          | 'e' :: r => (readExponent? r).map fun (e, r) => (some e, r)
          | 'E' :: r => (readExponent? r).map fun (e, r) => (some e, r)
          | r => some (none, r)
        some ((⟨negative, digits, fraction, exponent⟩ : Numeral), cs))
      = (readPower? cs).map fun (exponent, cs) => (⟨negative, digits, fraction, exponent⟩, cs) := by
    intro digits fraction cs
    unfold readPower?
    split
    · next r => cases readExponent? r <;> rfl
    · next r => cases readExponent? r <;> rfl
    · rfl
  unfold readNumeral?
  dsimp only
  split
  · rfl
  · split
    · next r heq =>
      rw [heq, readFraction?]
      split
      · rfl
      · exact hpower _ _ _
    · next hne =>
      rw [readFraction?]
      · exact hpower _ _ _
      · exact hne

/-! ## What follows a numeral -/

/-- What has been read, where the given text follows what is left. -/
def followedBy {α : Type} (rest : List Char) (read : α × List Char) : α × List Char :=
  (read.1, read.2 ++ rest)

variable {cs r rest : List Char}

theorem readFraction?_append (hrest : EndsNumeral rest) (cs : List Char) :
    readFraction? (cs ++ rest) = (readFraction? cs).map (followedBy rest) := by
  by_cases hpoint : ∃ s, cs = '.' :: s
  · obtain ⟨s, rfl⟩ := hpoint
    rw [List.cons_append, readFraction?, readFraction?, takeWhile_append_of_ends hrest.not_isDigit,
      drop_takeWhile_append]
    split <;> rfl
  · have hpoint' : ∀ s, cs ++ rest ≠ '.' :: s := by
      intro s heq
      cases cs with
      | nil => exact hrest.ne_cons (c := '.') rfl s heq
      | cons c cs => exact hpoint ⟨cs, congrArg (· :: cs) (List.cons.inj heq).1⟩
    rw [readFraction?, readFraction?]
    · rfl
    · exact fun s heq => hpoint ⟨s, heq⟩
    · exact hpoint'

theorem readFraction?_suffix {fraction : Option (List Char)}
    (h : readFraction? cs = some (fraction, r)) : r <:+ cs := by
  unfold readFraction? at h
  split at h
  · next s =>
    dsimp only at h
    split at h
    · cases h
    · obtain ⟨-, rfl⟩ := Prod.mk.inj (Option.some.inj h)
      exact (List.drop_suffix _ _).trans (List.suffix_cons _ _)
  · obtain ⟨-, rfl⟩ := Prod.mk.inj (Option.some.inj h)
    exact List.suffix_refl _

/-- The digits of an exponent, once its sign has been read. -/
def readPowerDigits? (negative : Bool) (cs : List Char) : Option ((Bool × List Char) × List Char) :=
  let digits := cs.takeWhile Char.isDigit
  if digits.isEmpty then none else some ((negative, digits), cs.drop digits.length)

theorem readExponent?_of_unsigned (hminus : cs.head? ≠ some '-') (hplus : cs.head? ≠ some '+') :
    readExponent? cs = readPowerDigits? false cs := by
  unfold readExponent?
  split
  next negative body hsign =>
    split at hsign
    · exact absurd rfl hminus
    · exact absurd rfl hplus
    · obtain ⟨rfl, rfl⟩ := Prod.mk.inj hsign
      rfl

/-- The digits of an exponent follow its sign, if it has one. -/
theorem readExponent?_eq (cs : List Char) :
    ∃ negative body, readExponent? cs = readPowerDigits? negative body ∧ body <:+ cs ∧
      ∀ {rest : List Char}, EndsNumeral rest →
        readExponent? (cs ++ rest) = readPowerDigits? negative (body ++ rest) := by
  by_cases hminus : cs.head? = some '-'
  · obtain ⟨cs, rfl⟩ := List.head?_eq_some_iff.mp hminus
    exact ⟨true, cs, rfl, List.suffix_cons _ _, fun _ => rfl⟩
  · by_cases hplus : cs.head? = some '+'
    · obtain ⟨cs, rfl⟩ := List.head?_eq_some_iff.mp hplus
      exact ⟨false, cs, rfl, List.suffix_cons _ _, fun _ => rfl⟩
    · refine ⟨false, cs, readExponent?_of_unsigned hminus hplus, List.suffix_refl _, ?_⟩
      intro rest hrest
      have hhead : ∀ c, isNumeralChar c = true → cs.head? ≠ some c →
          (cs ++ rest).head? ≠ some c := by
        intro c hc hne heq
        cases cs with
        | nil =>
          obtain ⟨tail, htail⟩ := List.head?_eq_some_iff.mp heq
          exact hrest.ne_cons hc tail htail
        | cons d cs => exact hne heq
      exact readExponent?_of_unsigned (hhead '-' rfl hminus) (hhead '+' rfl hplus)

theorem readExponent?_append (hrest : EndsNumeral rest) (cs : List Char) :
    readExponent? (cs ++ rest) = (readExponent? cs).map (followedBy rest) := by
  obtain ⟨negative, body, hread, -, happend⟩ := readExponent?_eq cs
  rw [happend hrest, hread]
  unfold readPowerDigits?
  dsimp only
  rw [takeWhile_append_of_ends hrest.not_isDigit, drop_takeWhile_append]
  split <;> rfl

theorem readExponent?_suffix {exponent : Bool × List Char}
    (h : readExponent? cs = some (exponent, r)) : r <:+ cs := by
  obtain ⟨negative, body, hread, hbody, -⟩ := readExponent?_eq cs
  rw [hread] at h
  unfold readPowerDigits? at h
  dsimp only at h
  split at h
  · cases h
  · obtain ⟨-, rfl⟩ := Prod.mk.inj (Option.some.inj h)
    exact (List.drop_suffix _ _).trans hbody

theorem readPower?_append (hrest : EndsNumeral rest) (cs : List Char) :
    readPower? (cs ++ rest) = (readPower? cs).map (followedBy rest) := by
  by_cases hletter : ∃ s, cs = 'e' :: s ∨ cs = 'E' :: s
  · obtain ⟨s, rfl | rfl⟩ := hletter
    · rw [List.cons_append, readPower?, readPower?, readExponent?_append hrest]
      cases readExponent? s <;> rfl
    · rw [List.cons_append, readPower?, readPower?, readExponent?_append hrest]
      cases readExponent? s <;> rfl
  · have hletter' : ∀ c, isNumeralChar c = true → (∀ s, cs ≠ c :: s) → ∀ s, cs ++ rest ≠ c :: s := by
      intro c hc hne s heq
      cases cs with
      | nil => exact hrest.ne_cons hc s heq
      | cons d cs => exact hne cs (congrArg (· :: cs) (List.cons.inj heq).1)
    have hsmall : ∀ s, cs ≠ 'e' :: s := fun s heq => hletter ⟨s, .inl heq⟩
    have hlarge : ∀ s, cs ≠ 'E' :: s := fun s heq => hletter ⟨s, .inr heq⟩
    rw [readPower?, readPower?]
    · rfl
    · exact hsmall
    · exact hlarge
    · exact hletter' 'e' rfl hsmall
    · exact hletter' 'E' rfl hlarge

theorem readPower?_suffix {exponent : Option (Bool × List Char)}
    (h : readPower? cs = some (exponent, r)) : r <:+ cs := by
  unfold readPower? at h
  split at h
  · next s =>
    obtain ⟨⟨e, r'⟩, hread, heq⟩ := Option.map_eq_some_iff.mp h
    obtain ⟨-, rfl⟩ := Prod.mk.inj heq
    exact (readExponent?_suffix hread).trans (List.suffix_cons _ _)
  · next s =>
    obtain ⟨⟨e, r'⟩, hread, heq⟩ := Option.map_eq_some_iff.mp h
    obtain ⟨-, rfl⟩ := Prod.mk.inj heq
    exact (readExponent?_suffix hread).trans (List.suffix_cons _ _)
  · obtain ⟨-, rfl⟩ := Prod.mk.inj (Option.some.inj h)
    exact List.suffix_refl _

/-- **A numeral is read whatever follows**, as long as no numeral goes on with it. -/
theorem readNumeral?_append (hrest : EndsNumeral rest) (negative : Bool) (cs : List Char) :
    readNumeral? negative (cs ++ rest) = (readNumeral? negative cs).map (followedBy rest) := by
  rw [readNumeral?_eq, readNumeral?_eq]
  dsimp only
  rw [takeWhile_append_of_ends hrest.not_isDigit, drop_takeWhile_append, readFraction?_append hrest]
  split
  · rfl
  · rcases readFraction? (cs.drop (cs.takeWhile Char.isDigit).length) with _ | ⟨fraction, cs₁⟩
    · rfl
    · rw [Option.map_some, Option.bind_some, Option.bind_some]
      show (readPower? (cs₁ ++ rest)).map _ = _
      rw [readPower?_append hrest]
      cases readPower? cs₁ <;> rfl

/-- What is left of a text once a numeral has been read. -/
theorem readNumeral?_suffix {negative : Bool} {n : Numeral}
    (h : readNumeral? negative cs = some (n, r)) : r <:+ cs ∧ r.length < cs.length := by
  rw [readNumeral?_eq] at h
  dsimp only at h
  split at h
  · cases h
  · next hdigits =>
    obtain ⟨⟨fraction, cs₁⟩, hfraction, h⟩ := Option.bind_eq_some_iff.mp h
    obtain ⟨⟨exponent, cs₂⟩, hpower, heq⟩ := Option.map_eq_some_iff.mp h
    obtain ⟨-, rfl : cs₂ = r⟩ := Prod.mk.inj heq
    have hsuffix := (readPower?_suffix hpower).trans (readFraction?_suffix hfraction)
    refine ⟨hsuffix.trans (List.drop_suffix _ _), ?_⟩
    -- at least one digit is gone
    have hpos : 0 < (cs.takeWhile Char.isDigit).length := by
      rw [List.length_pos_iff]
      intro hnil
      rw [hnil] at hdigits
      exact hdigits rfl
    have hdigits_le := (List.takeWhile_prefix (l := cs) Char.isDigit).length_le
    have hle := hsuffix.length_le
    rw [List.length_drop] at hle
    omega

/-! ## Integers -/

/-- Only zero is written with a zero in front. -/
theorem eq_zero_of_head?_toDigits {n : Nat} (h : (Nat.toDigits 10 n).head? = some '0') : n = 0 := by
  induction n using Nat.strong_induction_on with
  | _ n ih =>
    rw [Nat.toDigits_eq_if (by decide)] at h
    split at h
    · next hlt =>
      clear ih
      revert n
      decide
    · next hge =>
      rw [List.head?_append, Option.or_of_isSome (List.isSome_head?.mpr Nat.toDigits_ne_nil)] at h
      have hzero := ih (n / 10) (by omega) h
      omega

/-- The digits of a number are read as a numeral. -/
theorem readNumeral?_toDigits (negative : Bool) (n : Nat) {rest : List Char}
    (hrest : EndsNumeral rest) :
    readNumeral? negative (Nat.toDigits 10 n ++ rest)
      = some (⟨negative, Nat.toDigits 10 n, none, none⟩, rest) := by
  have hall : (Nat.toDigits 10 n).takeWhile Char.isDigit = Nat.toDigits 10 n :=
    List.takeWhile_eq_self_iff.mpr fun c hc => isDigit_of_mem_toDigits c hc
  have hnil : readNumeral? negative (Nat.toDigits 10 n)
      = some (⟨negative, Nat.toDigits 10 n, none, none⟩, []) := by
    have hform : ((Nat.toDigits 10 n).isEmpty ||
        ((Nat.toDigits 10 n).head? == some '0' && (Nat.toDigits 10 n).length != 1)) = false := by
      rw [Bool.or_eq_false_iff, Bool.and_eq_false_imp]
      refine ⟨List.isEmpty_eq_false_iff.mpr Nat.toDigits_ne_nil, fun hhead => ?_⟩
      rw [eq_zero_of_head?_toDigits (beq_iff_eq.mp hhead)]
      rfl
    rw [readNumeral?_eq]
    simp only [hall, hform, Bool.false_eq_true, if_false, List.drop_length]
    rfl
  rw [readNumeral?_append hrest, hnil]
  rfl

/-- Digits that amount to no more than the bound are all taken. -/
theorem absorbDigits_of_le {cs : List Char} {acc : Nat}
    (hbound : Nat.ofDigitChars 10 cs acc ≤ exactBound) :
    absorbDigits acc cs = (Nat.ofDigitChars 10 cs acc, []) := by
  induction cs generalizing acc with
  | nil => rfl
  | cons c cs ih =>
    rw [Nat.ofDigitChars_cons] at hbound ⊢
    have hle := le_ofDigitChars cs (10 * acc + (c.toNat - '0'.toNat))
    rw [absorbDigits]
    rw [Nat.mul_comm acc 10, if_pos (Nat.le_trans hle hbound)]
    exact ih hbound

theorem absorbDigits_toDigits {n : Nat} (hn : n ≤ exactBound) :
    absorbDigits 0 (Nat.toDigits 10 n) = (n, []) := by
  rw [absorbDigits_of_le] <;> rw [Nat.ofDigitChars_ten_toDigits]
  exact hn

/-- The integers that JSON keeps as they are: those of 64 bits, with a sign or without. -/
def InRange (i : Int) : Prop := -(largestInt64 : Int) - 1 ≤ i ∧ i ≤ exactBound

/-- **An integer is read back from its text**, whatever follows. -/
theorem toJson?_digits {i : Int} (hi : InRange i) :
    (⟨decide (i < 0), Nat.toDigits 10 i.natAbs, none, none⟩ : Numeral).toJson? = some (.int i) := by
  obtain ⟨hlow, hhigh⟩ := hi
  have hlargest : (largestInt64 : Int) < exactBound := by decide
  have habsorb := absorbDigits_toDigits (n := i.natAbs) (by omega)
  unfold Numeral.toJson?
  simp only [habsorb, Option.isNone_none, Bool.and_self, if_true]
  by_cases hneg : i < 0
  · have hsmall : ¬ (i.natAbs = 0 ∨ largestInt64 + 1 < i.natAbs) := by omega
    have hvalue : -(i.natAbs : Int) = i := by omega
    simp only [hneg, decide_true, Bool.not_true, Bool.false_eq_true, if_false, hsmall, hvalue]
  · have hvalue : (i.natAbs : Int) = i := by omega
    simp only [hneg, decide_false, Bool.not_false, if_true, hvalue]

/-! ## Numerals as values -/

theorem skipSpace_cons {c : Char} {cs : List Char} (hc : isSpace c = false) :
    skipSpace (c :: cs) = c :: cs :=
  List.dropWhile_cons_of_neg (by simp [hc])

theorem skipSpace_of_head {cs : List Char} (h : ∀ c ∈ cs.head?, isSpace c = false) :
    skipSpace cs = cs := by
  cases cs with
  | nil => rfl
  | cons c cs => exact skipSpace_cons (h c rfl)

theorem isSpace_of_isNumeralChar {c : Char} (hc : isNumeralChar c = true) : isSpace c = false := by
  by_contra h
  rw [Bool.not_eq_false, isSpace] at h
  simp only [Bool.or_eq_true, beq_iff_eq] at h
  rcases h with ((rfl | rfl) | rfl) | rfl <;> cases hc

/-- What begins like a numeral is read as one. -/
theorem readValue?_numeral {c : Char} (hc : isNumeralChar c = true) (fuel : Nat) (cs : List Char) :
    readValue? (fuel + 1) (c :: cs) =
      (if c = '-' then readNumeral? true cs else readNumeral? false (c :: cs)).map
        fun (n, r) => (.number n, r) := by
  have hskip : skipSpace (c :: cs) = c :: cs :=
    skipSpace_cons (isSpace_of_isNumeralChar hc)
  have hother : ∀ {d : Char} {r : List Char}, isNumeralChar d = false → c :: cs ≠ d :: r := by
    intro d r hd heq
    rw [(List.cons.inj heq).1, hd] at hc
    cases hc
  unfold readValue?
  rw [hskip]
  split
  · next h => exact absurd h (hother rfl)
  · next h => exact absurd h (hother rfl)
  · next h => exact absurd h (hother rfl)
  · next h => exact absurd h (hother rfl)
  · next h => exact absurd h (hother rfl)
  · next h => exact absurd h (hother rfl)
  · next h =>
    obtain ⟨rfl, rfl⟩ := List.cons.inj h
    rfl
  · next hminus =>
    have hne : c ≠ '-' := by
      rintro rfl
      exact hminus cs rfl
    rw [if_neg hne]

/-- What begins like a numeral is read as one whatever follows. -/
theorem readValue?_numeral_append {text r rest : List Char} {w : Written} {fuel : Nat} (fuel' : Nat)
    (hne : text ≠ []) (htext : ∀ c ∈ text, isNumeralChar c = true)
    (h : readValue? (fuel + 1) text = some (w, r)) (hrest : EndsNumeral rest) :
    readValue? (fuel' + 1) (text ++ rest) = some (w, r ++ rest) ∧ r <:+ text ∧
      ∃ n, w = .number n := by
  obtain ⟨c, cs, rfl⟩ := List.exists_cons_of_ne_nil hne
  have hc := htext c List.mem_cons_self
  rw [readValue?_numeral hc] at h
  rw [List.cons_append, readValue?_numeral hc]
  obtain ⟨⟨n, r'⟩, hread, heq⟩ := Option.map_eq_some_iff.mp h
  obtain ⟨rfl, rfl⟩ := Prod.mk.inj heq
  by_cases hminus : c = '-'
  · rw [if_pos hminus] at hread ⊢
    rw [readNumeral?_append hrest, hread]
    exact ⟨rfl, (readNumeral?_suffix hread).1.trans (List.suffix_cons _ _), n, rfl⟩
  · rw [if_neg hminus] at hread ⊢
    rw [← List.cons_append, readNumeral?_append hrest, hread]
    exact ⟨rfl, (readNumeral?_suffix hread).1, n, rfl⟩

/-- **An integer is read back from its text**, whatever follows. -/
theorem readValue?_writeInt {i : Int} (hi : InRange i) (fuel : Nat) {rest : List Char}
    (hrest : EndsNumeral rest) :
    ∃ n : Numeral, readValue? (fuel + 1) ((writeInt i).toList ++ rest) = some (.number n, rest) ∧
      n.toJson? = some (.int i) := by
  refine ⟨_, ?_, toJson?_digits hi⟩
  obtain ⟨d, tail, hdigits, hd⟩ := exists_toDigits i.natAbs
  rw [toList_writeInt]
  by_cases hneg : i < 0
  · rw [if_pos hneg, List.append_assoc, List.singleton_append, readValue?_numeral rfl, if_pos rfl,
      readNumeral?_toDigits true _ hrest, decide_eq_true hneg]
    rfl
  · have hchar : isNumeralChar d = true := by simp [isNumeralChar, hd]
    have hminus : d ≠ '-' := by
      rintro rfl
      cases hd
    have hread := readNumeral?_toDigits false i.natAbs hrest
    rw [hdigits, List.cons_append] at hread
    rw [if_neg hneg, List.nil_append, hdigits, List.cons_append, readValue?_numeral hchar,
      if_neg hminus, hread, decide_eq_false hneg]
    rfl

/-! ## Floats -/

/-- A float that is read back from its text. -/
def ReadsBack (x : Binary64) : Prop := ofText? (writeFloat x).toList = some (.float x)

instance (x : Binary64) : Decidable (ReadsBack x) :=
  match h : ofText? (writeFloat x).toList with
  | some (.float y) => decidable_of_iff (y = x) (by simp [ReadsBack, h])
  | none => .isFalse (by simp [ReadsBack, h])
  | some .null | some (.bool _) | some (.int _) | some (.text _) | some (.array _)
  | some (.object _) => .isFalse (by simp [ReadsBack, h])

theorem isNumeralChar_of_isDigit {c : Char} (hc : c.isDigit = true) : isNumeralChar c = true := by
  simp [isNumeralChar, hc]

theorem isNumeralChar_writeInt (i : Int) : ∀ c ∈ (writeInt i).toList, isNumeralChar c = true := by
  intro c hc
  rcases isDigit_of_mem_writeInt c hc with rfl | hdigit
  · rfl
  · exact isNumeralChar_of_isDigit hdigit

theorem isNumeralChar_zeros {n : Nat} : ∀ c ∈ List.replicate n '0', isNumeralChar c = true := by
  intro c hc
  rw [List.eq_of_mem_replicate hc]
  rfl

/-- A decimal is written with the characters of numerals. -/
theorem isNumeralChar_write (layout : Binary64.Layout) (d : Binary64.Decimal) :
    layout.write d ≠ [] ∧ ∀ c ∈ layout.write d, isNumeralChar c = true := by
  have hds : ∀ c ∈ Nat.toDigits 10 d.digits, isNumeralChar c = true :=
    fun c hc => isNumeralChar_of_isDigit (isDigit_of_mem_toDigits c hc)
  unfold Binary64.Layout.write
  simp only [toList_toString]
  generalize Nat.toDigits 10 d.digits = ds at hds
  have htake : ∀ n, ∀ c ∈ ds.take n, isNumeralChar c = true :=
    fun n c hc => hds c (List.mem_of_mem_take hc)
  have hdrop : ∀ n, ∀ c ∈ ds.drop n, isNumeralChar c = true :=
    fun n c hc => hds c (List.mem_of_mem_drop hc)
  have happend : ∀ {a b : List Char}, (∀ c ∈ a, isNumeralChar c = true) →
      (∀ c ∈ b, isNumeralChar c = true) → ∀ c ∈ a ++ b, isNumeralChar c = true :=
    fun ha hb c hc => (List.mem_append.mp hc).elim (ha c) (hb c)
  have hcons : ∀ {x : Char} {b : List Char}, isNumeralChar x = true →
      (∀ c ∈ b, isNumeralChar c = true) → ∀ c ∈ x :: b, isNumeralChar c = true :=
    fun hx hb => List.forall_mem_cons.mpr ⟨hx, hb⟩
  split
  · split
    · exact ⟨by simp, happend (happend hds isNumeralChar_zeros) (hcons rfl (hcons rfl nofun))⟩
    · split
      · exact ⟨by simp, happend (htake _) (hcons rfl (hdrop _))⟩
      · exact ⟨by simp, hcons rfl (hcons rfl (happend isNumeralChar_zeros hds))⟩
  · refine ⟨by simp, happend ?_ (hcons rfl ?_)⟩
    · match ds, hds with
      | [], _ => exact nofun
      | [x], hx => exact hx
      | x :: y :: rest, hall =>
        obtain ⟨hx, hrest⟩ := List.forall_mem_cons.mp hall
        exact hcons hx (hcons rfl hrest)
    · rw [String.toList_append]
      refine happend ?_ (isNumeralChar_writeInt _)
      split
      · exact hcons rfl nofun
      · exact nofun

/-- The text of a finite float. -/
theorem isNumeralChar_writeFloat {x : Binary64} (hfinite : x.isFinite = true) :
    (writeFloat x).toList ≠ [] ∧ ∀ c ∈ (writeFloat x).toList, isNumeralChar c = true := by
  obtain ⟨hne, hchars⟩ := isNumeralChar_write Binary64.rowLayout
    (x.shortest Binary64.rowLayout.tie)
  have hzero : ∀ c ∈ ['0', '.', '0'], isNumeralChar c = true := by
    simp only [List.forall_mem_cons]
    exact ⟨rfl, rfl, rfl, nofun⟩
  rw [writeFloat, if_pos hfinite, String.toList_ofList, Binary64.Layout.writeFinite]
  refine ⟨List.append_ne_nil_of_right_ne_nil _ ?_, fun c hc => ?_⟩
  · split
    · exact List.cons_ne_nil _ _
    · exact hne
  · rcases List.mem_append.mp hc with hc | hc
    · split at hc
      · rw [List.mem_singleton.mp hc]
        rfl
      · cases hc
    · split at hc
      · exact hzero c hc
      · exact hchars c hc

theorem isFinite_of_readsBack {x : Binary64} (h : ReadsBack x) : x.isFinite = true := by
  by_contra hfinite
  unfold ReadsBack writeFloat at h
  rw [if_neg hfinite] at h
  cases h

/-- **A float that is read back from its text** is read back whatever follows. -/
theorem readValue?_writeFloat {x : Binary64} (hx : ReadsBack x) (fuel : Nat) {rest : List Char}
    (hrest : EndsNumeral rest) :
    ∃ n : Numeral, readValue? (fuel + 1) ((writeFloat x).toList ++ rest) = some (.number n, rest) ∧
      n.toJson? = some (.float x) := by
  obtain ⟨hne, hchars⟩ := isNumeralChar_writeFloat (isFinite_of_readsBack hx)
  unfold ReadsBack ofText? at hx
  obtain ⟨w, hw, hvalue⟩ := Option.bind_eq_some_iff.mp hx
  unfold Written.ofText? at hw
  split at hw
  · next w' r hread =>
    split at hw
    · next hspace =>
      obtain rfl := Option.some.inj hw
      obtain ⟨happend, hsuffix, n, rfl⟩ := readValue?_numeral_append fuel hne hchars hread hrest
      -- nothing but spaces may be left of the text, and it has none
      have hskip : skipSpace r = r := by
        refine skipSpace_of_head fun c hc => ?_
        exact isSpace_of_isNumeralChar (hchars c (hsuffix.mem (List.mem_of_head? hc)))
      rw [hskip] at hspace
      obtain rfl := List.isEmpty_iff.mp hspace
      exact ⟨n, happend, hvalue⟩
    · cases hw
  · cases hw

end EntityStore.Json
