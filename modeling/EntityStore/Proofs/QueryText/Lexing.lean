import EntityStore.QueryText.Token
import EntityStore.Value.Printer

/-!
# Tokens of written texts

What a writer puts down is cut again where the writer meant it to be. Each lemma is about one
token with more text after it: as long as the next character cannot belong to it, the token ends
there. Positions are left to `tokensFrom`; nothing depends on where a token begins.
-/

namespace EntityStore.QueryText

open Text

/-- `cs` is one token when `rest` follows. -/
def IsToken (kind : TokenKind) (cs rest : List Char) : Prop :=
  ∃ c tail, cs = c :: tail ∧ isGap c = false ∧ extent c (tail ++ rest) = .ok (kind, tail.length)

/-- A token is cut off the text it begins. -/
theorem IsToken.tokensFrom_eq {kind : TokenKind} {cs rest : List Char} (h : IsToken kind cs rest)
    (position : Nat) :
    tokensFrom position (cs ++ rest)
      = (tokensFrom (position + byteLength cs) rest).map (⟨kind, cs, position⟩ :: ·) := by
  obtain ⟨c, tail, rfl, hgap, hext⟩ := h
  rw [List.cons_append, tokensFrom, hgap, hext]
  simp only [Bool.false_eq_true, if_false, List.take_left, List.drop_left]
  cases tokensFrom (position + byteLength (c :: tail)) rest <;> rfl

/-- Cutting a token off in front of a text that is cut. -/
theorem IsToken.tokensFrom_ok {kind : TokenKind} {cs rest : List Char} (h : IsToken kind cs rest)
    {position : Nat} {ts : List Token}
    (hrest : tokensFrom (position + byteLength cs) rest = .ok ts) :
    tokensFrom position (cs ++ rest) = .ok (⟨kind, cs, position⟩ :: ts) := by
  rw [h.tokensFrom_eq, hrest]
  rfl

theorem tokensFrom_gap {c : Char} (h : isGap c = true) (position : Nat) (rest : List Char) :
    tokensFrom position (c :: rest) = tokensFrom (position + c.utf8Size) rest := by
  rw [tokensFrom, h]
  rfl

/-- No token begins before the text does. -/
theorem start_of_tokensFrom {position : Nat} {cs : List Char} {ts : List Token}
    (h : tokensFrom position cs = .ok ts) : ∀ t ∈ ts, position ≤ t.start := by
  fun_induction tokensFrom position cs generalizing ts with
  | case1 => simp_all
  | case2 position c rest hgap ih =>
      intro t ht
      have := ih h t ht
      omega
  | case3 => cases h
  | case4 => cases h
  | case5 position c rest hgap kind n hext tokens hrest ih =>
      obtain rfl := Except.ok.inj h
      intro t ht
      rcases List.mem_cons.mp ht with rfl | ht
      · exact Nat.le_refl _
      · have := ih hrest t ht
        omega

/-! ## Characters -/

theorem punctuation?_of_isAlpha {c : Char} (h : c.isAlpha = true) : punctuation? c = none := by
  unfold punctuation?
  split <;> first | rfl | exact absurd h (by decide)

theorem punctuation?_of_isDigit {c : Char} (h : c.isDigit = true) : punctuation? c = none := by
  unfold punctuation?
  split <;> first | rfl | exact absurd h (by decide)

theorem isDigit_of_isAlpha {c : Char} (h : c.isAlpha = true) : c.isDigit = false := by
  have hletter : (decide (c.val ≥ 'A'.val ∧ c.val ≤ 'Z'.val) ||
      decide (c.val ≥ 'a'.val) && decide (c.val ≤ 'z'.val)) = true := h
  simp only [Char.isDigit, Bool.or_eq_true, Bool.and_eq_true, decide_eq_true_eq, ge_iff_le,
    UInt32.le_iff_toNat_le, Bool.and_eq_false_iff, decide_eq_false_iff_not] at hletter ⊢
  have h9 : '9'.val.toNat = 57 := rfl
  have hA : 'A'.val.toNat = 65 := rfl
  have ha : 'a'.val.toNat = 97 := rfl
  omega

theorem isGap_of_isAlpha {c : Char} (h : c.isAlpha = true) : isGap c = false := by
  rw [Bool.eq_false_iff]
  intro hgap
  simp only [isGap, Bool.or_eq_true, beq_iff_eq] at hgap
  rcases hgap with ((rfl | rfl) | rfl) | rfl <;> exact absurd h (by decide)

theorem isGap_of_isDigit {c : Char} (h : c.isDigit = true) : isGap c = false := by
  rw [Bool.eq_false_iff]
  intro hgap
  simp only [isGap, Bool.or_eq_true, beq_iff_eq] at hgap
  rcases hgap with ((rfl | rfl) | rfl) | rfl <;> exact absurd h (by decide)

theorem ne_of_class {p : Char → Bool} {c d : Char} (hc : p c = true) (hd : p d = false) : c ≠ d := by
  intro h
  rw [h, hd] at hc
  cases hc

/-! ## How far to count -/

theorem takeWhile_append_of_head {p : Char → Bool} {cs rest : List Char} (hcs : ∀ c ∈ cs, p c = true)
    (hrest : ∀ c ∈ rest.head?, p c = false) : (cs ++ rest).takeWhile p = cs := by
  rw [List.takeWhile_append_of_pos hcs]
  cases rest with
  | nil => simp
  | cons c rest => rw [List.takeWhile_cons_of_neg (by simp [hrest c rfl]), List.append_nil]

theorem countWhile_append {p : Char → Bool} {cs rest : List Char} (hcs : ∀ c ∈ cs, p c = true)
    (hrest : ∀ c ∈ rest.head?, p c = false) : countWhile p (cs ++ rest) = cs.length := by
  rw [countWhile, takeWhile_append_of_head hcs hrest]

/-! ## Words -/

/-- A word: a letter, then letters, digits, underscores and hyphens. -/
def IsWord (w : List Char) : Prop :=
  ∃ c tail, w = c :: tail ∧ isWordStart c = true ∧ ∀ x ∈ tail, isWordPart x = true

/-- A word ends where this follows: its characters cannot go on, and it does not turn out to be
the scheme of an address. -/
structure WordEnd (rest : List Char) : Prop where
  head : ∀ c ∈ rest.head?, isWordPart c = false
  scheme : ¬ "://".toList <+: rest

/-- No address begins with a word that ends. -/
theorem urlLength?_of_word {tail rest : List Char} (htail : ∀ x ∈ tail, isWordPart x = true)
    (hrest : WordEnd rest) : urlLength? (tail ++ rest) = none := by
  have htake := takeWhile_append_of_head htail hrest.head
  have hscheme : ∀ scheme : List Char, (∀ x ∈ scheme, isWordPart x = true) →
      (scheme ++ "://".toList).isPrefixOf (tail ++ rest) = false := by
    intro scheme hword
    rw [Bool.eq_false_iff, ne_eq, List.isPrefixOf_iff_prefix]
    intro ⟨more, hmore⟩
    have hcolon : ∀ c ∈ ("://".toList ++ more).head?, isWordPart c = false := by rintro c ⟨⟩; rfl
    -- the scheme and the word are the same run of word characters, so `://` would follow the word
    have htake' := takeWhile_append_of_head hword hcolon
    rw [← List.append_assoc, hmore, htake] at htake'
    rw [htake', List.append_assoc] at hmore
    exact hrest.scheme ⟨more, List.append_cancel_left hmore⟩
  have h1 := hscheme "ttp".toList (List.all_eq_true.mp rfl)
  have h2 := hscheme "ttps".toList (List.all_eq_true.mp rfl)
  rw [urlLength?]
  simp only [show "ttp://".toList = "ttp".toList ++ "://".toList from rfl, h1,
    show "ttps://".toList = "ttps".toList ++ "://".toList from rfl, h2]
  rfl

theorem isToken_word {w rest : List Char} (hw : IsWord w) (hrest : WordEnd rest) :
    IsToken .word w rest := by
  obtain ⟨c, tail, rfl, hc, htail⟩ := hw
  have hminus : c ≠ '-' := ne_of_class hc (by decide)
  have hquote : ¬ (c = '"' ∨ c = '\'') := by
    rintro (rfl | rfl) <;> exact absurd hc (by decide)
  refine ⟨c, tail, rfl, isGap_of_isAlpha hc, ?_⟩
  rw [extent.eq_def, punctuation?_of_isAlpha hc]
  simp only [isDigit_of_isAlpha hc, hminus, hquote, hc, urlLength?_of_word htail hrest, ite_self,
    countWhile_append htail hrest.head, Bool.false_eq_true, if_false, if_true]

/-! ## Marks -/

theorem isToken_mark {c : Char} {kind : TokenKind} (h : punctuation? c = some kind)
    (rest : List Char) : IsToken kind [c] rest := by
  have hgap : isGap c = false := by
    rw [Bool.eq_false_iff]
    intro hgap
    simp only [isGap, Bool.or_eq_true, beq_iff_eq] at hgap
    rcases hgap with ((rfl | rfl) | rfl) | rfl <;> cases h
  refine ⟨c, [], rfl, hgap, ?_⟩
  rw [extent.eq_def, h]
  rfl

/-- A hyphen stands alone unless a digit follows. -/
theorem isToken_minus {rest : List Char} (h : ∀ c ∈ rest.head?, c.isDigit = false) :
    IsToken .minus ['-'] rest := by
  refine ⟨'-', [], rfl, rfl, ?_⟩
  cases rest with
  | nil => rfl
  | cons d rest =>
      have hd : d.isDigit = false := h d rfl
      rw [extent.eq_def]
      simp only [List.nil_append, show punctuation? '-' = none from rfl, hd]
      rfl

/-! ## Numbers -/

/-- A number ends where this follows: no digit, no point and no exponent. -/
def NumberEnd (rest : List Char) : Prop :=
  ∀ c ∈ rest.head?, c.isDigit = false ∧ c ≠ '.' ∧ c ≠ 'e' ∧ c ≠ 'E'

/-- A number without a sign, as the reader would cut it. -/
def IsNumeral (cs : List Char) : Prop :=
  ∃ d tail, cs = d :: tail ∧ d.isDigit = true ∧
    ∀ rest, NumberEnd rest → numberLength (tail ++ rest) = tail.length

theorem fractionLength_of_numberEnd {rest : List Char} (h : NumberEnd rest) :
    fractionLength rest = 0 := by
  cases rest with
  | nil => rfl
  | cons c rest =>
      have hc := (h c rfl).2.1
      rw [fractionLength.eq_def]
      split
      · rename_i heq
        exact absurd (List.cons.inj heq).1 hc
      · rfl

theorem exponentLength_of_numberEnd {rest : List Char} (h : NumberEnd rest) :
    exponentLength rest = 0 := by
  cases rest with
  | nil => rfl
  | cons c rest =>
      obtain ⟨-, -, he, hE⟩ := h c rfl
      rw [exponentLength.eq_def]
      simp [he, hE]

theorem head_isDigit_of_numberEnd {rest : List Char} (h : NumberEnd rest) :
    ∀ c ∈ rest.head?, c.isDigit = false := fun c hc => (h c hc).1

/-- Digits alone are a number. -/
theorem isNumeral_digits {cs : List Char} (hne : cs ≠ []) (h : ∀ c ∈ cs, c.isDigit = true) :
    IsNumeral cs := by
  obtain ⟨d, tail, rfl⟩ := List.exists_cons_of_ne_nil hne
  refine ⟨d, tail, rfl, h d List.mem_cons_self, fun rest hrest => ?_⟩
  have hcount := countWhile_append (fun c hc => h c (List.mem_cons_of_mem _ hc))
    (head_isDigit_of_numberEnd hrest)
  rw [numberLength]
  simp only [hcount, List.drop_left, fractionLength_of_numberEnd hrest, Nat.add_zero,
    exponentLength_of_numberEnd hrest]

theorem isToken_number {cs rest : List Char} (h : IsNumeral cs) (hrest : NumberEnd rest) :
    IsToken .number cs rest := by
  obtain ⟨d, tail, rfl, hd, hlength⟩ := h
  refine ⟨d, tail, rfl, isGap_of_isDigit hd, ?_⟩
  rw [extent.eq_def, punctuation?_of_isDigit hd]
  simp only [hd, hlength rest hrest, if_true]

theorem isToken_negative {cs rest : List Char} (h : IsNumeral cs) (hrest : NumberEnd rest) :
    IsToken .number ('-' :: cs) rest := by
  obtain ⟨d, tail, rfl, hd, hlength⟩ := h
  refine ⟨'-', d :: tail, rfl, rfl, ?_⟩
  rw [extent.eq_def]
  simp only [List.cons_append, show punctuation? '-' = none from rfl, hd, hlength rest hrest,
    List.length_cons, if_true]
  rfl

/-! ## Quoted texts -/

/-- An escaped text goes on to the closing quote. -/
theorem quotedLength_escaped (cs rest : List Char) :
    quotedLength '"' (cs.flatMap Value.escapeQuoted ++ '"' :: rest)
      = ((cs.flatMap Value.escapeQuoted).length + 1, true) := by
  induction cs with
  | nil =>
      rw [List.flatMap_nil, List.nil_append, quotedLength.eq_def]
      rfl
  | cons c cs ih =>
      rw [List.flatMap_cons, List.append_assoc, Value.escapeQuoted]
      split
      case isTrue hc =>
        have hline : c ≠ '\n' := by rintro rfl; simp at hc
        simp only [List.cons_append, List.nil_append, List.length_cons]
        rw [quotedLength.eq_def]
        simp [hline, ih]
      case isFalse hc =>
        rw [not_or] at hc
        simp only [List.cons_append, List.nil_append, List.length_cons]
        rw [quotedLength.eq_def]
        simp [hc.1, hc.2, ih]

theorem isToken_quoted (cs rest : List Char) :
    IsToken .quoted ('"' :: (cs.flatMap Value.escapeQuoted ++ ['"'])) rest := by
  refine ⟨'"', cs.flatMap Value.escapeQuoted ++ ['"'], rfl, rfl, ?_⟩
  rw [extent.eq_def, List.append_assoc]
  simp only [show punctuation? '"' = none from rfl, List.cons_append, List.nil_append,
    quotedLength_escaped]
  simp

end EntityStore.QueryText
