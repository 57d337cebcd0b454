import EntityStore.Proofs.QueryText.Orderly
import EntityStore.Proofs.QueryText.Parsed

/-!
# Numbers without a literal

An infinite number is written as a word that no literal begins with. Wherever it stands, the tokens
of the text are not in order: after it comes no dot that a word follows and no colon, or it is the
bound of a range and the hyphen before it has no number. **A text in which an infinite number is
written is not read.**
-/

namespace EntityStore.QueryText

open Text

/-! ## Texts that are cut into tokens

To know what follows a token of a text one has to know that the pieces of the text are cut where
they were written, whether they can be read or not. A piece whose tokens are not in order spoils
every text it stands in, so that no such text is read.
-/

section Cutting

/-- The text is cut off whatever follows it, if that is one of the texts that may follow. -/
def Cuts (follows : List Char → Prop) (cs : List Char) : Prop :=
  ∀ position rest ts, follows rest → tokensFrom (position + byteLength cs) rest = .ok ts →
    ∃ toks, tokensFrom position (cs ++ rest) = .ok (toks ++ ts)

/-- The text is cut off, into tokens that are not in order. -/
def Breaks (follows : List Char → Prop) (cs : List Char) : Prop :=
  ∀ position rest ts, follows rest → tokensFrom (position + byteLength cs) rest = .ok ts →
    ∃ toks, tokensFrom position (cs ++ rest) = .ok (toks ++ ts) ∧ ¬ Orderly (toks ++ ts)

variable {follows before after : List Char → Prop} {a b : List Char}

theorem Breaks.cuts (h : Breaks follows a) : Cuts follows a := by
  intro position rest ts hrest hts
  obtain ⟨toks, hcut, -⟩ := h position rest ts hrest hts
  exact ⟨toks, hcut⟩

/-- One text after another. What follows the first may be known to be cut. -/
theorem Cuts.append (ha : Cuts before a) (hb : Cuts after b)
    (hbefore : ∀ position rest ts, after rest → tokensFrom position (b ++ rest) = .ok ts → before (b ++ rest)) :
    Cuts after (a ++ b) := by
  intro position rest ts hrest hts
  rw [byteLength_append, ← Nat.add_assoc] at hts
  obtain ⟨tb, hcutb⟩ := hb _ rest ts hrest hts
  obtain ⟨ta, hcuta⟩ := ha position _ _ (hbefore _ rest _ hrest hcutb) hcutb
  refine ⟨ta ++ tb, ?_⟩
  rw [List.append_assoc, List.append_assoc]
  exact hcuta

/-- A text that breaks spoils the text it stands in the end of. -/
theorem Breaks.prepend (hb : Breaks after b) (ha : Cuts before a)
    (hbefore : ∀ position rest ts, after rest → tokensFrom position (b ++ rest) = .ok ts → before (b ++ rest)) :
    Breaks after (a ++ b) := by
  intro position rest ts hrest hts
  rw [byteLength_append, ← Nat.add_assoc] at hts
  obtain ⟨tb, hcutb, hbreaks⟩ := hb _ rest ts hrest hts
  obtain ⟨ta, hcuta⟩ := ha position _ _ (hbefore _ rest _ hrest hcutb) hcutb
  refine ⟨ta ++ tb, ?_, fun horder => hbreaks ?_⟩
  · rw [List.append_assoc, List.append_assoc]
    exact hcuta
  · rw [List.append_assoc] at horder
    exact horder.right

/-- A text that breaks spoils the text it stands in the beginning of. -/
theorem Breaks.append (ha : Breaks before a) (hb : Cuts after b)
    (hbefore : ∀ position rest ts, after rest → tokensFrom position (b ++ rest) = .ok ts → before (b ++ rest)) :
    Breaks after (a ++ b) := by
  intro position rest ts hrest hts
  rw [byteLength_append, ← Nat.add_assoc] at hts
  obtain ⟨tb, hcutb⟩ := hb _ rest ts hrest hts
  obtain ⟨ta, hcuta, hbreaks⟩ := ha position _ _ (hbefore _ rest _ hrest hcutb) hcutb
  refine ⟨ta ++ tb, ?_, ?_⟩
  · rw [List.append_assoc, List.append_assoc]
    exact hcuta
  · rw [List.append_assoc]
    exact hbreaks

/-- A token is cut off what it ends before. -/
theorem cuts_token (kind : TokenKind) (cs : List Char) : Cuts (IsToken kind cs) cs :=
  fun position _ _ hrest hts => ⟨[⟨kind, cs, position⟩], hrest.tokensFrom_ok hts⟩

theorem cuts_mark {c : Char} {kind : TokenKind} (h : punctuation? c = some kind) :
    Cuts (fun _ => True) [c] :=
  fun position rest _ _ hts => ⟨[⟨kind, [c], position⟩], (isToken_mark h rest).tokensFrom_ok hts⟩

/-- **Pieces with separators between them are cut one by one.** -/
theorem cuts_intercalate {separator : List Char} (hends : ∀ rest, after rest → before rest)
    (hbefore : ∀ rest, before (separator ++ rest)) (hseparator : Cuts (fun _ => True) separator)
    {css : List (List Char)} (h : ∀ cs ∈ css, Cuts before cs) : Cuts after (separator.intercalate css) := by
  induction css with
  | nil => exact fun _ _ ts _ hts => ⟨[], hts⟩
  | cons cs css ih =>
      have hcs := h cs List.mem_cons_self
      have hcss := ih fun c hc => h c (List.mem_cons_of_mem _ hc)
      cases css with
      | nil =>
          rw [List.intercalate_singleton]
          exact fun position rest ts hrest hts => hcs position rest ts (hends rest hrest) hts
      | cons cs' css =>
          rw [List.intercalate_cons_cons, List.append_assoc]
          refine hcs.append (hseparator.append hcss fun _ _ _ _ _ => trivial) fun _ rest _ _ _ => ?_
          rw [List.append_assoc]
          exact hbefore _

/-- **One of the pieces spoils the whole.** -/
theorem breaks_intercalate {separator : List Char} (hends : ∀ rest, after rest → before rest)
    (hbefore : ∀ rest, before (separator ++ rest)) (hseparator : Cuts (fun _ => True) separator)
    {css : List (List Char)} (h : ∀ cs ∈ css, Cuts before cs) (hbreaks : ∃ cs ∈ css, Breaks before cs) :
    Breaks after (separator.intercalate css) := by
  induction css with
  | nil =>
      obtain ⟨cs, hcs, -⟩ := hbreaks
      cases hcs
  | cons cs css ih =>
      have hcs := h cs List.mem_cons_self
      have hcss := fun c hc => h c (List.mem_cons_of_mem _ hc)
      obtain ⟨bad, hmem, hbad⟩ := hbreaks
      cases css with
      | nil =>
          obtain rfl := List.mem_singleton.mp hmem
          rw [List.intercalate_singleton]
          exact fun position rest ts hrest hts => hbad position rest ts (hends rest hrest) hts
      | cons cs' css =>
          have hfollow : ∀ position rest ts, after rest →
              tokensFrom position (separator ++ separator.intercalate (cs' :: css) ++ rest) = .ok ts →
                before (separator ++ separator.intercalate (cs' :: css) ++ rest) := by
            intro _ rest _ _ _
            rw [List.append_assoc]
            exact hbefore _
          rw [List.intercalate_cons_cons, List.append_assoc]
          -- what spoils is the first piece, or one further on
          rcases List.mem_cons.mp hmem with rfl | hmem
          · have htail := cuts_intercalate hends hbefore hseparator hcss
            exact hbad.append (hseparator.append htail fun _ _ _ _ _ => trivial) hfollow
          · have htail := ih hcss ⟨bad, hmem, hbad⟩
            exact (htail.prepend hseparator fun _ _ _ _ _ => trivial).prepend hcs hfollow

end Cutting

/-! ## What follows a literal -/

/-- What follows a literal of a written list. -/
inductive ValueEnd : List Char → Prop
  | comma (rest : List Char) : ValueEnd (',' :: rest)
  | ends {rest : List Char} (h : Ends rest) : ValueEnd rest

theorem ValueEnd.boundary {rest : List Char} (h : ValueEnd rest) : Boundary rest := by
  cases h with
  | comma rest => exact boundary_comma rest
  | ends h => exact h.boundary

/-- What follows a literal does not make a path of it. -/
theorem ValueEnd.next {rest : List Char} (h : ValueEnd rest) {position : Nat} {ts : List Token}
    (hts : tokensFrom position rest = .ok ts) :
    ts.head?.map Token.kind ≠ some .dot ∧ ts.head?.map Token.kind ≠ some .colon := by
  have hmark : ∀ {c : Char} {more : List Char} (kind : TokenKind), punctuation? c = some kind →
      kind ≠ .dot ∧ kind ≠ .colon → tokensFrom position (c :: more) = .ok ts →
        ts.head?.map Token.kind ≠ some .dot ∧ ts.head?.map Token.kind ≠ some .colon := by
    intro c more kind hkind hne hts
    obtain ⟨ts', -, rfl⟩ := mark_of_tokensFrom kind hkind hts
    rw [List.head?_cons, Option.map_some]
    exact ⟨fun heq => hne.1 (Option.some.inj heq), fun heq => hne.2 (Option.some.inj heq)⟩
  cases h with
  | comma rest => exact hmark .comma rfl (by decide) hts
  | ends h =>
      cases h with
      | stop =>
          rw [tokensFrom] at hts
          obtain rfl := Except.ok.inj hts
          exact ⟨by simp, by simp⟩
      | tilde rest => exact hmark .tilde rfl (by decide) hts
      | close rest => exact hmark .closeParen rfl (by decide) hts
      | or rest =>
          cases hrest : tokensFrom (position + 4) rest with
          | error e =>
              rw [tokensFrom_or_error hrest] at hts
              cases hts
          | ok ts' =>
              rw [tokensFrom_or hrest] at hts
              obtain rfl := Except.ok.inj hts
              exact ⟨by simp, by simp⟩

/-- A literal that is read is cut. -/
theorem ReadsLiteral.cuts {cs : List Char} {l : Literal} (h : ReadsLiteral cs l) : Cuts ValueEnd cs := by
  intro position rest ts hrest hts
  obtain ⟨t, more, hcut, -, -⟩ := h position rest ts hrest.boundary hts
  exact ⟨t :: more, hcut⟩

/-! ## Words in the place of a literal -/

/-- A word that is not reserved is no literal. -/
theorem breaks_word {w : List Char} (hword : IsWord w)
    (hreserved : ∀ position, Token.isReserved ⟨.word, w, position⟩ = false) : Breaks ValueEnd w := by
  intro position rest ts hrest hts
  refine ⟨[⟨.word, w, position⟩], (isToken_word hword hrest.boundary.wordEnd).tokensFrom_ok hts, ?_⟩
  intro horder
  obtain ⟨hdot, hcolon⟩ := hrest.next hts
  -- in order, the word would be reserved or go on as a path
  rcases horder.1.word rfl with h | h | h
  · rw [hreserved position] at h
    cases h
  · exact hdot h
  · exact hcolon h

/-- Neither is a word with a fraction after it: no word begins with a digit. -/
theorem breaks_word_fraction {w fraction : List Char} (hword : IsWord w) (hfraction : IsNumeral fraction) :
    Breaks ValueEnd (w ++ '.' :: fraction) := by
  have hnumber : Breaks ValueEnd ('.' :: fraction) := by
    intro position rest ts hrest hts
    rw [byteLength_cons, ← Nat.add_assoc] at hts
    have hcut := (isToken_number hfraction hrest.boundary.numberEnd).tokensFrom_ok hts
    refine ⟨[⟨.dot, ['.'], position⟩, ⟨.number, fraction, position + 1⟩], ?_, fun horder => ?_⟩
    · exact (isToken_mark rfl _).tokensFrom_ok hcut
    · cases horder.1.dot rfl
  refine hnumber.prepend (cuts_token .word w) fun _ rest _ _ _ => ?_
  exact isToken_word hword (wordEnd_dot _)

/-- A hyphen has a number after it, or is part of one. -/
theorem breaks_minus {cs : List Char} (hcs : Breaks ValueEnd cs)
    (hhead : ∃ c tail, cs = c :: tail ∧ c.isDigit = false) : Breaks ValueEnd ('-' :: cs) := by
  obtain ⟨c, tail, rfl, hc⟩ := hhead
  refine hcs.prepend (cuts_token .minus ['-']) fun _ rest _ _ _ => ?_
  refine isToken_minus ?_
  rintro d ⟨⟩
  exact hc

/-! ## Numbers without a literal -/

/-- A number that is not finite is infinite, and is written as a word. -/
theorem toText_of_infinite {x : Binary64} (hnan : x.isNaN = false) (hinf : ¬ x.isFinite = true) :
    x.toText = if x.isNegative then "-inf" else "inf" := by
  have hinfinite : x.isInfinite = true := by
    unfold Binary64.isNaN at hnan
    unfold Binary64.isFinite at hinf
    unfold Binary64.isInfinite
    rw [decide_eq_false_iff_not] at hnan
    rw [decide_eq_true_eq] at hinf
    rw [beq_iff_eq]
    omega
  unfold Binary64.toText
  rw [hnan, hinfinite]
  rfl

/-- The word an infinite number is written as, with what belongs to the word. -/
theorem isWord_inf {tail : List Char} (h : ∀ c ∈ tail, isWordPart c = true) :
    IsWord ('i' :: 'n' :: 'f' :: tail) := by
  refine ⟨'i', 'n' :: 'f' :: tail, rfl, rfl, fun c hc => ?_⟩
  rcases List.mem_cons.mp hc with rfl | hc
  · rfl
  · rcases List.mem_cons.mp hc with rfl | hc
    · rfl
    · exact h c hc

theorem breaks_inf {tail : List Char} (h : ∀ c ∈ tail, isWordPart c = true) :
    Breaks ValueEnd ('i' :: 'n' :: 'f' :: tail) :=
  breaks_word (isWord_inf h) fun _ => rfl

theorem isWordPart_of_isDigit {c : Char} (hc : c.isDigit = true) : isWordPart c = true := by
  simp [isWordPart, Char.isAlphanum, hc]

theorem isWordPart_writeInt (i : Int) : ∀ c ∈ (writeInt i).toList, isWordPart c = true := by
  intro c hc
  rcases isDigit_of_mem_writeInt c hc with rfl | hdigit
  · rfl
  · exact isWordPart_of_isDigit hdigit

theorem isWordPart_exponentText (n : Binary64.Numeral) : ∀ c ∈ n.exponentText, isWordPart c = true := by
  intro c hc
  unfold Binary64.Numeral.exponentText at hc
  split at hc
  · cases hc
  · rcases List.mem_cons.mp hc with rfl | hc
    · rfl
    · exact isWordPart_writeInt _ c hc

/-- The text of a number is of word characters, or up to its point, after which comes a number. -/
theorem exists_wordParts {v : Value} (h : isNumber v = true) (htext : TextValue v) :
    ∃ u w, v.toText.toList = u ++ w ∧ (∀ c ∈ u, isWordPart c = true) ∧
      (w = [] ∨ ∃ fraction, w = '.' :: fraction ∧ IsNumeral fraction) := by
  cases v with
  | int i => exact ⟨_, [], (List.append_nil _).symm, isWordPart_writeInt i.toInt, .inl rfl⟩
  | float x =>
      by_cases hfinite : x.isFinite = true
      · obtain ⟨n, hn, -, hx, -⟩ := Binary64.exists_numeral_of_finite hfinite
        have hsign : ∀ c ∈ (if x.isNegative then ['-'] else []), isWordPart c = true := by
          intro c hc
          split at hc
          · rw [List.mem_singleton.mp hc]
            rfl
          · cases hc
        have hwhole : ∀ c ∈ (if x.isNegative then ['-'] else []) ++ n.whole, isWordPart c = true := by
          intro c hc
          rcases List.mem_append.mp hc with hc | hc
          · exact hsign c hc
          · exact isWordPart_of_isDigit (hn.whole c hc)
        by_cases hpoint : n.fraction = []
        · refine ⟨x.toText.toList, [], (List.append_nil _).symm, ?_, .inl rfl⟩
          rw [hx, Binary64.Numeral.text, if_pos hpoint, List.nil_append, ← List.append_assoc]
          intro c hc
          rcases List.mem_append.mp hc with hc | hc
          · exact hwhole c hc
          · exact isWordPart_exponentText n c hc
        · -- the digits after the point are a number of their own
          have hrest : Binary64.Numeral.WellFormed ⟨n.fraction, [], n.exponent⟩ :=
            ⟨hpoint, hn.fraction, fun c hc => (by cases hc)⟩
          refine ⟨_, _, ?_, hwhole, .inr ⟨_, rfl, isNumeral_text hrest⟩⟩
          change x.toText.toList = _
          rw [hx, Binary64.Numeral.text, if_neg hpoint, List.append_assoc]
          rfl
      · refine ⟨x.toText.toList, [], (List.append_nil _).symm, ?_, .inl rfl⟩
        rw [toText_of_infinite htext hfinite]
        split
        · exact List.all_eq_true.mp rfl
        · exact List.all_eq_true.mp rfl
  | _ => cases h

/-- An infinite number, as text: a word, or a hyphen and a word. -/
theorem toList_of_infinite {v : Value} (h : isNumber v = true) (htext : TextValue v)
    (hinf : ¬ StableValue v) : v.toText.toList = "-inf".toList ∨ v.toText.toList = "inf".toList := by
  cases v with
  | int i => exact absurd trivial hinf
  | float x =>
      change x.toText.toList = _ ∨ x.toText.toList = _
      rw [toText_of_infinite htext hinf]
      split
      · exact .inl rfl
      · exact .inr rfl
  | _ => cases h

/-- **An infinite number is not read back.** -/
theorem breaks_infinite {v : Value} (h : isNumber v = true) (htext : TextValue v)
    (hinf : ¬ StableValue v) :
    Breaks ValueEnd v.toText.toList ∧ ∃ c tail, v.toText.toList = c :: tail ∧ c.isDigit = false := by
  have hword : Breaks ValueEnd "inf".toList := breaks_inf fun c hc => (by cases hc)
  rcases toList_of_infinite h htext hinf with htext | htext
  · rw [htext]
    exact ⟨breaks_minus hword ⟨'i', ['n', 'f'], rfl, rfl⟩, '-', ['i', 'n', 'f'], rfl, rfl⟩
  · rw [htext]
    exact ⟨hword, 'i', ['n', 'f'], rfl, rfl⟩

/-- **Neither is a range with an infinite bound.** As the lower bound the word goes on to the upper
one; as the upper bound it stands after a hyphen. -/
theorem breaks_range {low high : Value} (hlow : isNumber low = true ∧ TextValue low)
    (hhigh : isNumber high = true ∧ TextValue high) (hinf : ¬ (StableValue low ∧ StableValue high)) :
    Breaks ValueEnd (low.toText.toList ++ '-' :: high.toText.toList) := by
  by_cases hstable : StableValue low
  · obtain ⟨hbreaks, hhead⟩ := breaks_infinite hhigh.1 hhigh.2 fun h => hinf ⟨hstable, h⟩
    -- the hyphen cannot be part of the upper bound, which begins with no digit
    refine (breaks_minus hbreaks hhead).prepend (cuts_token .number low.toText.toList) fun _ rest _ _ _ => ?_
    exact (readsNumber_of_stable hlow.1 hstable).isToken (numberEnd_minus _)
  · -- the hyphen and what follows it belong to the word, up to a point
    have hword : Breaks ValueEnd ("inf".toList ++ '-' :: high.toText.toList) := by
      obtain ⟨u, w, hsplit, hu, hw⟩ := exists_wordParts hhigh.1 hhigh.2
      have hparts : ∀ c ∈ '-' :: u, isWordPart c = true := by
        intro c hc
        rcases List.mem_cons.mp hc with rfl | hc
        · rfl
        · exact hu c hc
      rw [hsplit]
      rcases hw with rfl | ⟨fraction, rfl, hfraction⟩
      · rw [List.append_nil]
        exact breaks_inf hparts
      · exact breaks_word_fraction (isWord_inf hparts) hfraction
    rcases toList_of_infinite hlow.1 hlow.2 hstable with hlow | hlow
    · rw [hlow]
      exact breaks_minus hword ⟨'i', _, rfl, rfl⟩
    · rw [hlow]
      exact hword

/-- **Every value is written as a text that is cut.** -/
theorem cuts_value {v : Value} (htext : TextValue v) : Cuts ValueEnd v.toText.toList := by
  by_cases hstable : StableValue v
  · exact (readsLiteral_of_stable htext hstable).cuts
  · cases v with
    | float x => exact (breaks_infinite rfl htext hstable).1.cuts
    | timestamp t =>
        have hquoted : ReadsLiteral (Value.quoted t.toText).toList (.value (classify t.toText.toList)) :=
          readsLiteral_quoted rfl
        rw [quoted_toText] at hquoted
        exact hquoted.cuts
    | _ => exact absurd trivial hstable

/-- A literal with a number that is not finite. -/
def Literal.Infinite : Literal → Prop
  | .value (.float x) => ¬ x.isFinite = true
  | .range low high => ¬ (StableValue low ∧ StableValue high)
  | .value _ => False

/-- **Every literal is written as a text that is cut, and spoiled by an infinite number.** -/
theorem cuts_literal {l : Literal} (h : l.Formed TextValue) :
    Cuts ValueEnd l.text.toList ∧ (l.Infinite → Breaks ValueEnd l.text.toList) := by
  cases l with
  | value v =>
      refine ⟨cuts_value h, fun hinf => ?_⟩
      cases v with
      | float x =>
          have htext : TextValue (.float x) := h
          exact (breaks_infinite rfl htext hinf).1
      | _ => exact hinf.elim
  | range low high =>
      obtain ⟨⟨hlow, hhigh⟩, htextLow, htextHigh⟩ := h
      have htext : (Literal.range low high).text.toList = low.toText.toList ++ '-' :: high.toText.toList := by
        simp [Literal.text]
      have hbreaks := breaks_range ⟨hlow, htextLow⟩ ⟨hhigh, htextHigh⟩
      rw [htext]
      refine ⟨?_, hbreaks⟩
      by_cases hstable : StableValue low ∧ StableValue high
      · exact (readsLiteral_range (readsNumber_of_stable hlow hstable.1)
          (readsNumber_of_stable hhigh hstable.2)).cuts
      · exact (hbreaks hstable).cuts

end EntityStore.QueryText
