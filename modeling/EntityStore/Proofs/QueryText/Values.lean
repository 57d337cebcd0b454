import EntityStore.Proofs.Binary64.Text
import EntityStore.Proofs.QueryText.Clauses
import EntityStore.Proofs.QueryText.Literals
import EntityStore.Proofs.Timestamp.Text

/-!
# Values of texts

A value that comes from a text is known not to read as something else: a string that looked like a
timestamp would have become one. Such a value is written so that it reads back, except that there
is no literal for an infinite number, and that the year of a timestamp has to have four digits.
-/

namespace EntityStore.QueryText

/-! ## Floats in query text

A written float is one number to the lexer, whatever follows it, and the reader takes it for a
float because of its point or its exponent.
-/

section Floats

open Text Binary64

variable {n : Numeral}

theorem head_append {a b : List Char} {p : Char → Prop} (ha : ∀ c ∈ a.head?, p c)
    (hb : ∀ c ∈ b.head?, p c) : ∀ c ∈ (a ++ b).head?, p c := by
  cases a with
  | nil => exact hb
  | cons x a => exact ha

/-- A sign in front of the digits of an exponent is counted with them. -/
theorem exponentLength_minus (cs : List Char) :
    exponentLength ('e' :: '-' :: cs)
      = if 0 < countWhile Char.isDigit cs then countWhile Char.isDigit cs + 2 else 0 := by
  unfold exponentLength
  simp only [true_or, or_true, if_true, List.drop_succ_cons, List.drop_zero]
  split <;> omega

theorem exponentLength_digit {d : Char} (hd : d.isDigit = true) (cs : List Char) :
    exponentLength ('e' :: d :: cs)
      = if 0 < countWhile Char.isDigit (d :: cs) then countWhile Char.isDigit (d :: cs) + 1 else 0 := by
  have hplus : d ≠ '+' := by rintro rfl; cases hd
  have hminus : d ≠ '-' := by rintro rfl; cases hd
  unfold exponentLength
  simp only [true_or, if_true, hplus, hminus, or_self, if_false, List.drop_zero]
  split <;> omega

/-- An exponent is counted to its end. -/
theorem exponentLength_exponentText (n : Numeral) {rest : List Char} (hrest : NumberEnd rest) :
    exponentLength (n.exponentText ++ rest) = n.exponentText.length := by
  unfold Numeral.exponentText
  cases n.exponent with
  | none => exact exponentLength_of_numberEnd hrest
  | some e =>
      have hcount : countWhile Char.isDigit (Nat.toDigits 10 e.natAbs ++ rest)
          = (Nat.toDigits 10 e.natAbs).length :=
        countWhile_append isDigit_of_mem_toDigits (head_isDigit_of_numberEnd hrest)
      obtain ⟨d, tail, hd, hdigit⟩ := exists_toDigits e.natAbs
      rw [hd, List.cons_append] at hcount
      dsimp only
      rw [toList_writeInt, hd]
      by_cases hneg : e < 0
      · rw [if_pos hneg, List.singleton_append, List.cons_append, List.cons_append, List.cons_append,
          exponentLength_minus, hcount]
        rfl
      · rw [if_neg hneg, List.nil_append, List.cons_append, List.cons_append,
          exponentLength_digit hdigit, hcount]
        rfl

/-- A point and its digits are counted to their end. -/
theorem fractionLength_append {fraction rest : List Char} (hdigits : ∀ c ∈ fraction, c.isDigit = true)
    (hrest : ∀ c ∈ rest.head?, c.isDigit = false ∧ c ≠ '.') :
    fractionLength ((if fraction = [] then [] else '.' :: fraction) ++ rest)
      = (if fraction = [] then [] else '.' :: fraction).length := by
  by_cases hf : fraction = []
  · rw [if_pos hf, List.nil_append]
    unfold fractionLength
    split
    case h_1 => exact absurd rfl (hrest '.' rfl).2
    case h_2 => rfl
  · have hcount := countWhile_append hdigits fun c hc => (hrest c hc).1
    have hpos : 0 < fraction.length := List.length_pos_iff.mpr hf
    rw [if_neg hf, List.cons_append]
    change (if 0 < countWhile Char.isDigit (fraction ++ rest) then _ else _) = _
    rw [hcount, if_pos hpos, List.length_cons]

/-- **A numeral is cut as one number.** -/
theorem isNumeral_text (h : n.WellFormed) : IsNumeral n.text := by
  obtain ⟨d, tail, hwhole⟩ := List.exists_cons_of_ne_nil h.whole_ne
  have hd : d.isDigit = true := h.whole d (by rw [hwhole]; exact List.mem_cons_self)
  have htail : ∀ c ∈ tail, c.isDigit = true := fun c hc =>
    h.whole c (by rw [hwhole]; exact List.mem_cons_of_mem _ hc)
  refine ⟨d, tail ++ ((if n.fraction = [] then [] else '.' :: n.fraction) ++ n.exponentText), ?_, hd, ?_⟩
  · unfold Numeral.text
    rw [hwhole]
    rfl
  intro rest hrest
  -- what follows the fraction is an exponent or ends the number
  have hexp : ∀ c ∈ (n.exponentText ++ rest).head?, c.isDigit = false ∧ c ≠ '.' := by
    refine head_append (fun c hc => ?_) fun c hc => ⟨(hrest c hc).1, (hrest c hc).2.1⟩
    rw [n.head_exponentText c hc]
    decide
  have hpoint := fractionLength_append h.fraction hexp
  generalize hp : (if n.fraction = [] then [] else '.' :: n.fraction) = point at hpoint ⊢
  have hhead : ∀ c ∈ (point ++ (n.exponentText ++ rest)).head?, c.isDigit = false := by
    refine head_append (fun c hc => ?_) fun c hc => (hexp c hc).1
    rw [← hp] at hc
    split at hc
    · cases hc
    · obtain rfl := Option.some.inj hc
      rfl
  have hcount := countWhile_append htail hhead
  have hdrop : (tail ++ (point ++ (n.exponentText ++ rest))).drop (tail.length + point.length)
      = n.exponentText ++ rest := by
    rw [← List.append_assoc, ← List.length_append, List.drop_left]
  unfold numberLength
  simp only [List.append_assoc, hcount, List.drop_left, hpoint, hdrop,
    exponentLength_exponentText n hrest, List.length_append]
  omega

/-- **A finite float is read back.** -/
theorem readsNumber_float {x : Binary64} (hfinite : x.isFinite = true) :
    ReadsNumber x.toText.toList (.float x) := by
  obtain ⟨n, hn, hmark, htext, -⟩ := exists_numeral_of_finite hfinite
  have hread := ofText?_toText hfinite
  have hnumeral := isNumeral_text hn
  have hfloat : (x.toText.toList.any fun c => c == '.' || c == 'e' || c == 'E') = true := by
    rw [List.any_eq_true]
    rcases hmark with hf | he
    · refine ⟨'.', ?_, rfl⟩
      rw [htext]
      unfold Numeral.text
      rw [if_neg hf]
      simp
    · refine ⟨'e', ?_, rfl⟩
      obtain ⟨e, he⟩ := Option.ne_none_iff_exists'.mp he
      rw [htext]
      unfold Numeral.text Numeral.exponentText
      rw [he]
      simp
  constructor
  · rw [htext]
    split
    · exact .inr ⟨n.text, rfl, hnumeral⟩
    · exact .inl hnumeral
  · intro position
    unfold readNumber
    rw [if_pos hfloat, hread]

end Floats

/-! ## Values -/

/-- What a value is known to be when it comes from a text: a string does not read as anything else,
an address and a timestamp do, and a float is a number. -/
def TextValue : Value → Prop
  | .string s => Timestamp.ofLiteral? s.toList = none ∧ looksLikeUrl s.toList = false
  | .url s => looksLikeUrl s.toList = true
  | .timestamp t => t.Readable
  | .float x => x.isNaN = false
  | .null | .bool _ | .int _ => True

/-- A value that has a literal: numbers are finite, and years have four digits. -/
def StableValue : Value → Prop
  | .float x => x.isFinite = true
  | .timestamp t => 0 ≤ t.clock.date.year ∧ t.clock.date.year ≤ 9999
  | .null | .bool _ | .int _ | .string _ | .url _ => True

instance : (v : Value) → Decidable (StableValue v)
  | .float x => inferInstanceAs (Decidable (x.isFinite = true))
  | .timestamp t => inferInstanceAs (Decidable (0 ≤ t.clock.date.year ∧ t.clock.date.year ≤ 9999))
  | .null | .bool _ | .int _ | .string _ | .url _ => isTrue trivial

/-- What is read as a number is one. -/
theorem isNumber_of_readNumber {cs : List Char} {position : Nat} {v : Value}
    (h : readNumber cs position = .ok v) : isNumber v = true ∧ TextValue v := by
  unfold readNumber at h
  split at h
  case isTrue hfloat =>
    split at h
    case h_1 x hx =>
      rw [← Except.ok.inj h]
      exact ⟨rfl, Binary64.isNaN_of_ofText? hx hfloat⟩
    case h_2 => cases h
  case isFalse =>
    split at h
    · rw [← Except.ok.inj h]
      exact ⟨rfl, trivial⟩
    · cases h

theorem textValue_classify (cs : List Char) : TextValue (classify cs) := by
  unfold classify
  split
  case h_1 t ht => exact Timestamp.readable_of_ofLiteral? ht
  case h_2 hnone =>
    split
    case isTrue hurl =>
      show looksLikeUrl (String.ofList cs).toList = true
      rw [String.toList_ofList]
      exact hurl
    case isFalse hurl =>
      show Timestamp.ofLiteral? (String.ofList cs).toList = none
        ∧ looksLikeUrl (String.ofList cs).toList = false
      rw [String.toList_ofList]
      exact ⟨hnone, Bool.not_eq_true _ ▸ hurl⟩

/-- A text that begins like an address does not begin like a year. -/
theorem ofLiteral?_of_looksLikeUrl {cs : List Char} (h : looksLikeUrl cs = true) :
    Timestamp.ofLiteral? cs = none := by
  obtain ⟨rest, rfl⟩ : ∃ rest, cs = 'h' :: rest := by
    cases cs with
    | nil => cases h
    | cons c rest =>
        have hc : 'h' = c := by
          have h' : ("http://".toList.isPrefixOf (c :: rest)
            || "https://".toList.isPrefixOf (c :: rest)) = true := h
          rcases Bool.or_eq_true_iff.mp h' with h' | h'
          · exact (by simpa [List.isPrefixOf] using h' : 'h' = c ∧ _).1
          · exact (by simpa [List.isPrefixOf] using h' : 'h' = c ∧ _).1
        exact ⟨rest, by rw [hc]⟩
  have hblank : Text.trimStart ('h' :: rest) = 'h' :: rest := rfl
  have hdate : ∀ gap, Timestamp.scanDate gap ('h' :: rest) = none := by
    intro gap
    rw [Timestamp.scanDate, Timestamp.scanYear, hblank]
    rfl
  rw [Timestamp.ofLiteral?, Timestamp.readLocal?, Timestamp.readLocalWith?, Timestamp.readLocalWith?,
    hdate]
  rfl

/-! ## Values read back -/

/-- The text of a timestamp stands in quotes as it is. -/
theorem quoted_toText (t : Timestamp) : Value.quoted t.toText = (Value.timestamp t).toText := by
  have hplain : ∀ cs : List Char, cs.all Timestamp.isTimePart = true →
      cs.flatMap Value.escapeQuoted = cs := by
    intro cs
    induction cs with
    | nil => exact fun _ => rfl
    | cons c cs ih =>
        intro h
        rw [List.all_cons, Bool.and_eq_true] at h
        have hc : ¬ (c = '"' ∨ c = '\\') := by
          rintro (rfl | rfl)
          · exact absurd h.1 (by decide)
          · exact absurd h.1 (by decide)
        rw [List.flatMap_cons, Value.escapeQuoted, if_neg hc, ih h.2, List.singleton_append]
  rw [Value.quoted, hplain _ (Timestamp.all_toText t), String.ofList_toList]
  rfl

/-- **The text of a stable value reads back as that value.** -/
theorem readsLiteral_of_stable {v : Value} (h : TextValue v) (hstable : StableValue v) :
    ReadsLiteral v.toText.toList (.value v) := by
  cases v with
  | null => exact readsLiteral_null
  | bool b =>
      cases b with
      | true => exact readsLiteral_true
      | false => exact readsLiteral_false
  | int i => exact (readsNumber_int i).readsLiteral
  | float x => exact (readsNumber_float hstable).readsLiteral
  | timestamp t =>
      have hread : classify t.toText.toList = .timestamp t := by
        rw [classify, Timestamp.ofLiteral?_toText h hstable]
      rw [← quoted_toText]
      exact readsLiteral_quoted hread
  | string s =>
      obtain ⟨htime, hurl⟩ := h
      refine readsLiteral_quoted ?_
      rw [classify, htime]
      simp [hurl]
  | url s =>
      have hurl : looksLikeUrl s.toList = true := h
      refine readsLiteral_quoted ?_
      rw [classify, ofLiteral?_of_looksLikeUrl hurl]
      simp [hurl]

theorem readsNumber_of_stable {v : Value} (h : isNumber v = true) (hstable : StableValue v) :
    ReadsNumber v.toText.toList v := by
  cases v with
  | int i => exact readsNumber_int i
  | float x => exact readsNumber_float hstable
  | _ => cases h

/-! ## Literals -/

/-- A literal of values of the given sort. The bounds of a range are numbers. -/
def Literal.Formed (q : Value → Prop) : Literal → Prop
  | .value v => q v
  | .range low high => (isNumber low = true ∧ isNumber high = true) ∧ q low ∧ q high

/-- A literal of stable values. -/
def Literal.Stable : Literal → Prop
  | .value v => StableValue v
  | .range low high => StableValue low ∧ StableValue high

instance : (l : Literal) → Decidable l.Stable
  | .value v => inferInstanceAs (Decidable (StableValue v))
  | .range low high => inferInstanceAs (Decidable (StableValue low ∧ StableValue high))

/-- **The text of a literal of stable values reads back as that literal.** -/
theorem Literal.Formed.readsLiteral {l : Literal} (h : l.Formed TextValue) (hstable : l.Stable) :
    ReadsLiteral l.text.toList l := by
  cases l with
  | value v => exact readsLiteral_of_stable h hstable
  | range low high =>
      obtain ⟨⟨hlow, hhigh⟩, -⟩ := h
      have htext : (Literal.range low high).text.toList = low.toText.toList ++ '-' :: high.toText.toList := by
        simp [Literal.text]
      rw [htext]
      exact readsLiteral_range (readsNumber_of_stable hlow hstable.1)
        (readsNumber_of_stable hhigh hstable.2)

end EntityStore.QueryText
