import EntityStore.Proofs.QueryText.Lexing
import EntityStore.Proofs.Text.Integer
import EntityStore.QueryText.Expression

/-!
# Literals read back

A written literal is followed by a comma, by a separator of criteria, by a parenthesis or by
nothing. Before each of these it is read as the literal it stands for. A number asks for the most
care: the sign of an upper bound is glued to it by the lexer, so the reader has to look at the
token after a number, and whatever may follow a literal has to be told from a bound.
-/

namespace EntityStore.QueryText

open Text

/-- What may follow a literal. -/
def Boundary (rest : List Char) : Prop :=
  ∀ c ∈ rest.head?, c = ',' ∨ c = '~' ∨ c = ')' ∨ c = ' '

/-- The text is read as the literal wherever a literal may stand. -/
def ReadsLiteral (cs : List Char) (l : Literal) : Prop :=
  ∀ position rest ts, Boundary rest → tokensFrom (position + byteLength cs) rest = .ok ts →
    ∃ t more, tokensFrom position (cs ++ rest) = .ok (t :: (more ++ ts)) ∧
      startsLiteral t = true ∧ readLiteral t (more ++ ts) = .ok (l, more.length)

theorem Boundary.wordEnd {rest : List Char} (h : Boundary rest) : WordEnd rest where
  head := by
    intro c hc
    rcases h c hc with rfl | rfl | rfl | rfl <;> rfl
  scheme := by
    intro ⟨more, hmore⟩
    have hc := h ':' (by rw [← hmore]; rfl)
    revert hc
    decide

theorem Boundary.numberEnd {rest : List Char} (h : Boundary rest) : NumberEnd rest := by
  intro c hc
  rcases h c hc with rfl | rfl | rfl | rfl <;> decide

/-- What follows a literal begins with a mark, or further on in the text. -/
theorem Boundary.head_token {rest : List Char} (h : Boundary rest) {position : Nat}
    {ts : List Token} (hts : tokensFrom position rest = .ok ts) :
    ∀ t ∈ ts.head?, (t.kind = .comma ∨ t.kind = .tilde ∨ t.kind = .closeParen) ∨
      position < t.start := by
  intro t ht
  cases rest with
  | nil =>
      rw [tokensFrom] at hts
      obtain rfl := Except.ok.inj hts
      cases ht
  | cons c rest =>
      have hmark : ∀ kind, punctuation? c = some kind → t.kind = kind := by
        intro kind hkind
        have hcut := (isToken_mark hkind rest).tokensFrom_eq position
        rw [List.singleton_append, hts] at hcut
        cases hrest : tokensFrom (position + byteLength [c]) rest with
        | error e => rw [hrest] at hcut; cases hcut
        | ok ts' =>
            rw [hrest] at hcut
            obtain rfl := Except.ok.inj hcut
            obtain rfl : _ = t := by simpa using ht
            rfl
      rcases h c rfl with rfl | rfl | rfl | rfl
      · exact .inl (.inl (hmark .comma rfl))
      · exact .inl (.inr (.inl (hmark .tilde rfl)))
      · exact .inl (.inr (.inr (hmark .closeParen rfl)))
      · rw [tokensFrom_gap rfl] at hts
        have hle := start_of_tokensFrom hts t (List.mem_of_mem_head? ht)
        exact .inr hle

/-! ## Words -/

theorem readsLiteral_word {w : List Char} {l : Literal} (hw : IsWord w)
    (hstarts : ∀ position, startsLiteral ⟨.word, w, position⟩ = true)
    (hread : ∀ position ts, readLiteral ⟨.word, w, position⟩ ts = .ok (l, 0)) :
    ReadsLiteral w l := by
  intro position rest ts hrest hts
  exact ⟨⟨.word, w, position⟩, [], (isToken_word hw hrest.wordEnd).tokensFrom_ok hts,
    hstarts position, hread position ts⟩

theorem isWord_of_all {w : List Char} (hhead : (w.head?.map isWordStart).getD false = true)
    (hall : w.all isWordPart = true) : IsWord w := by
  cases w with
  | nil => cases hhead
  | cons c tail =>
      refine ⟨c, tail, rfl, hhead, fun x hx => ?_⟩
      exact List.all_eq_true.mp hall x (List.mem_cons_of_mem _ hx)

theorem readsLiteral_null : ReadsLiteral "null".toList (.value .null) :=
  readsLiteral_word (isWord_of_all rfl rfl) (fun _ => rfl) (fun _ _ => rfl)

theorem readsLiteral_true : ReadsLiteral "true".toList (.value (.bool true)) :=
  readsLiteral_word (isWord_of_all rfl rfl) (fun _ => rfl) (fun _ _ => rfl)

theorem readsLiteral_false : ReadsLiteral "false".toList (.value (.bool false)) :=
  readsLiteral_word (isWord_of_all rfl rfl) (fun _ => rfl) (fun _ _ => rfl)

/-! ## Numbers -/

/-- The text is a number with or without a sign, and is read as the value. -/
structure ReadsNumber (cs : List Char) (v : Value) : Prop where
  numeral : IsNumeral cs ∨ ∃ tail, cs = '-' :: tail ∧ IsNumeral tail
  read : ∀ position, readNumber cs position = .ok v

theorem ReadsNumber.isToken {cs rest : List Char} {v : Value} (h : ReadsNumber cs v)
    (hrest : NumberEnd rest) : IsToken .number cs rest := by
  rcases h.numeral with hnum | ⟨tail, rfl, hnum⟩
  · exact isToken_number hnum hrest
  · exact isToken_negative hnum hrest

/-- Nothing that may follow a literal is the upper bound of a range. -/
theorem readRangeEnd_of_boundary {rest : List Char} (h : Boundary rest) {stop : Nat}
    {ts : List Token} (hts : tokensFrom stop rest = .ok ts) : readRangeEnd stop ts = .ok none := by
  cases ts with
  | nil => rfl
  | cons t ts =>
      rw [readRangeEnd.eq_def]
      dsimp only
      rcases h.head_token hts t rfl with (hk | hk | hk) | hlt
      · simp [hk]
      · simp [hk]
      · simp [hk]
      · rw [if_pos (by omega)]

/-- **A number is read as its value.** -/
theorem ReadsNumber.readsLiteral {cs : List Char} {v : Value} (h : ReadsNumber cs v) :
    ReadsLiteral cs (.value v) := by
  intro position rest ts hrest hts
  refine ⟨⟨.number, cs, position⟩, [], (h.isToken hrest.numberEnd).tokensFrom_ok hts, rfl, ?_⟩
  rw [readLiteral]
  simp only [h.read position, List.nil_append, Token.stop, readRangeEnd_of_boundary hrest hts,
    List.length_nil]

theorem numberEnd_minus (rest : List Char) : NumberEnd ('-' :: rest) := by
  rintro c ⟨⟩
  decide

/-- **Two numbers with a hyphen between them are read as a range.** The hyphen is part of the
second number, unless that has a sign of its own. -/
theorem readsLiteral_range {low high : List Char} {a b : Value} (hlow : ReadsNumber low a)
    (hhigh : ReadsNumber high b) : ReadsLiteral (low ++ '-' :: high) (.range a b) := by
  intro position rest ts hrest hts
  rw [byteLength_append, byteLength_cons, ← Nat.add_assoc, ← Nat.add_assoc] at hts
  have hsize : ('-' : Char).utf8Size = 1 := rfl
  rw [hsize] at hts
  -- an upper bound without a sign takes the hyphen for its own
  rcases hhigh.numeral with hnum | ⟨tail, rfl, hnum⟩
  · have hbound : tokensFrom (position + byteLength low) ('-' :: high ++ rest)
        = .ok (⟨.number, '-' :: high, position + byteLength low⟩ :: ts) := by
      refine (isToken_negative hnum hrest.numberEnd).tokensFrom_ok ?_
      rw [byteLength_cons, hsize, ← Nat.add_assoc]
      exact hts
    refine ⟨⟨.number, low, position⟩, [⟨.number, '-' :: high, position + byteLength low⟩], ?_, rfl, ?_⟩
    · rw [List.append_assoc]
      exact (hlow.isToken (numberEnd_minus _)).tokensFrom_ok hbound
    · rw [readLiteral]
      simp [hlow.read position, readRangeEnd, Token.stop, hhigh.read, Except.map]
  · -- one with a sign leaves the hyphen to stand alone
    have hnumber : tokensFrom (position + byteLength low + 1) (('-' :: tail) ++ rest)
        = .ok (⟨.number, '-' :: tail, position + byteLength low + 1⟩ :: ts) :=
      (isToken_negative hnum hrest.numberEnd).tokensFrom_ok hts
    have hminus : tokensFrom (position + byteLength low) (['-'] ++ (('-' :: tail) ++ rest))
        = .ok (⟨.minus, ['-'], position + byteLength low⟩ ::
            ⟨.number, '-' :: tail, position + byteLength low + 1⟩ :: ts) :=
      (isToken_minus (by rintro c ⟨⟩; rfl)).tokensFrom_ok hnumber
    refine ⟨⟨.number, low, position⟩, [⟨.minus, ['-'], position + byteLength low⟩,
      ⟨.number, '-' :: tail, position + byteLength low + 1⟩], ?_, rfl, ?_⟩
    · rw [List.append_assoc]
      exact (hlow.isToken (numberEnd_minus _)).tokensFrom_ok hminus
    · rw [readLiteral]
      simp [hlow.read position, readRangeEnd, Token.stop, hhigh.read, Except.map, hsize]

/-- An integer is read back. -/
theorem readsNumber_int (i : Int64) : ReadsNumber (writeInt64 i).toList (.int i) := by
  have hnum := isNumeral_digits Nat.toDigits_ne_nil (isDigit_of_mem_toDigits (n := i.toInt.natAbs))
  have hplain : (writeInt64 i).toList.any (fun c => c == '.' || c == 'e' || c == 'E') = false := by
    rw [List.any_eq_false, writeInt64]
    intro c hc
    rcases isDigit_of_mem_writeInt c hc with rfl | hdigit
    · decide
    · have h1 : c ≠ '.' := ne_of_class hdigit rfl
      have h2 : c ≠ 'e' := ne_of_class hdigit rfl
      have h3 : c ≠ 'E' := ne_of_class hdigit rfl
      simp [h1, h2, h3]
  constructor
  · rw [writeInt64, toList_writeInt]
    split
    · exact .inr ⟨_, rfl, hnum⟩
    · exact .inl hnum
  · intro position
    rw [readNumber, hplain, readInt64_writeInt64]
    rfl

/-! ## Quoted texts -/

theorem unescape_escaped (cs : List Char) : unescape (cs.flatMap Value.escapeQuoted) = cs := by
  induction cs with
  | nil => rfl
  | cons c cs ih =>
      rw [List.flatMap_cons, Value.escapeQuoted]
      split
      case isTrue => rw [List.cons_append, List.singleton_append, unescape, ih]
      case isFalse hc =>
        rw [not_or] at hc
        rw [List.singleton_append, unescape.eq_def]
        split
        · rename_i heq; cases heq
        · rename_i heq; exact absurd (List.cons.inj heq).1 hc.2
        · rename_i heq; exact absurd (List.cons.inj heq).1 hc.2
        · rename_i heq
          obtain ⟨rfl, rfl⟩ := List.cons.inj heq
          rw [ih]

theorem toList_quoted (s : String) :
    (Value.quoted s).toList = '"' :: (s.toList.flatMap Value.escapeQuoted ++ ['"']) := by
  simp [Value.quoted]

/-- **A quoted text is read as what its characters amount to.** -/
theorem readsLiteral_quoted {s : String} {v : Value} (h : classify s.toList = v) :
    ReadsLiteral (Value.quoted s).toList (.value v) := by
  intro position rest ts _ hts
  rw [toList_quoted] at hts ⊢
  refine ⟨⟨.quoted, '"' :: (s.toList.flatMap Value.escapeQuoted ++ ['"']), position⟩, [],
    (isToken_quoted s.toList rest).tokensFrom_ok hts, rfl, ?_⟩
  rw [readLiteral]
  simp only [unquote, List.tail_cons, List.dropLast_concat, unescape_escaped, h, List.length_nil]

end EntityStore.QueryText
