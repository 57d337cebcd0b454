import EntityStore.Proofs.QueryText.Literals
import EntityStore.QueryText.Meaning
import Mathlib.Data.List.Forall2

/-!
# Texts and what they are read as

A piece of query text stands for branches, each a list of specifications: pieces are put together
with `~`, which joins the last branch of one with the first of the next, with ` or `, which sets
their branches side by side, and with parentheses, which make one specification of a group.
`Reads` says that a piece is read as its branches wherever a piece may stand, and the lemmas here
are the three ways to put pieces together.
-/

namespace EntityStore.QueryText

open Text

/-! ## What may follow -/

/-- What may follow a criterion or a group. -/
inductive Ends : List Char → Prop
  | stop : Ends []
  | tilde (rest : List Char) : Ends ('~' :: rest)
  | close (rest : List Char) : Ends (')' :: rest)
  | or (rest : List Char) : Ends (' ' :: 'o' :: 'r' :: ' ' :: rest)

theorem Ends.boundary {rest : List Char} (h : Ends rest) : Boundary rest := by
  cases h <;> rintro c ⟨⟩ <;> simp

/-- The token with which a literal list is over. -/
def Token.endsValues (t : Token) : Prop := t.kind ≠ .comma ∧ startsLiteral t = false

theorem mark_of_tokensFrom {c : Char} (kind : TokenKind) (hkind : punctuation? c = some kind)
    {position : Nat} {rest : List Char} {ts : List Token}
    (h : tokensFrom position (c :: rest) = .ok ts) :
    ∃ ts', tokensFrom (position + c.utf8Size) rest = .ok ts' ∧ ts = ⟨kind, [c], position⟩ :: ts' := by
  have hcut := (isToken_mark hkind rest).tokensFrom_eq position
  rw [List.singleton_append, h] at hcut
  have hlength : byteLength [c] = c.utf8Size := by simp
  rw [hlength] at hcut
  cases hrest : tokensFrom (position + c.utf8Size) rest with
  | error e => rw [hrest] at hcut; cases hcut
  | ok ts' =>
      rw [hrest] at hcut
      exact ⟨ts', rfl, Except.ok.inj hcut⟩

theorem wordEnd_space (rest : List Char) : WordEnd (' ' :: rest) where
  head := by rintro c ⟨⟩; rfl
  scheme := by rintro ⟨more, hmore⟩; cases hmore

theorem wordEnd_dot (rest : List Char) : WordEnd ('.' :: rest) where
  head := by rintro c ⟨⟩; rfl
  scheme := by rintro ⟨more, hmore⟩; cases hmore

/-- A text that can be cut does not begin with a slash, so a colon before it ends a word. -/
theorem wordEnd_colon {position : Nat} {rest : List Char} {ts : List Token}
    (h : tokensFrom position rest = .ok ts) : WordEnd (':' :: rest) where
  head := by rintro c ⟨⟩; rfl
  scheme := by
    rintro ⟨more, hmore⟩
    obtain rfl : rest = '/' :: '/' :: more := (List.cons.inj hmore).2.symm
    rw [tokensFrom] at h
    cases h

/-- Where a text can be cut that does not go on with a word, the word before it ends. -/
theorem wordEnd_of_tokensFrom {position : Nat} {rest : List Char} {ts : List Token}
    (h : tokensFrom position rest = .ok ts) (hhead : ∀ c ∈ rest.head?, isWordPart c = false) :
    WordEnd rest where
  head := hhead
  scheme := by
    rintro ⟨more, rfl⟩
    obtain ⟨us, hmore, -⟩ := mark_of_tokensFrom .colon rfl h
    exact (wordEnd_colon hmore).scheme ⟨more, rfl⟩

/-- The word `or` between two branches. -/
theorem tokensFrom_or {position : Nat} {rest : List Char} {ts : List Token}
    (h : tokensFrom (position + 4) rest = .ok ts) :
    tokensFrom position (' ' :: 'o' :: 'r' :: ' ' :: rest)
      = .ok (⟨.word, ['o', 'r'], position + 1⟩ :: ts) := by
  have hword : IsWord ['o', 'r'] := isWord_of_all rfl rfl
  rw [tokensFrom_gap rfl]
  refine (isToken_word hword (wordEnd_space rest)).tokensFrom_ok ?_
  rw [tokensFrom_gap rfl]
  exact h

theorem tokensFrom_or_error {position : Nat} {rest : List Char} {e : SyntaxError}
    (h : tokensFrom (position + 4) rest = .error e) :
    tokensFrom position (' ' :: 'o' :: 'r' :: ' ' :: rest) = .error e := by
  have hword : IsWord ['o', 'r'] := isWord_of_all rfl rfl
  have hcut := (isToken_word hword (wordEnd_space rest)).tokensFrom_eq (position + 1)
  have hgap : tokensFrom (position + 1 + byteLength ['o', 'r']) (' ' :: rest) = .error e := by
    rw [tokensFrom_gap rfl]
    exact h
  rw [hgap] at hcut
  rw [tokensFrom_gap rfl]
  exact hcut

/-- What follows a criterion does not go on with its literals. -/
theorem Ends.endsValues {rest : List Char} (h : Ends rest) {position : Nat} {ts : List Token}
    (hts : tokensFrom position rest = .ok ts) : ∀ t ∈ ts.head?, t.endsValues := by
  cases h with
  | stop =>
      rw [tokensFrom] at hts
      obtain rfl := Except.ok.inj hts
      rintro t ⟨⟩
  | tilde rest =>
      obtain ⟨ts', -, rfl⟩ := mark_of_tokensFrom .tilde rfl hts
      rintro t ⟨⟩
      exact ⟨by simp, rfl⟩
  | close rest =>
      obtain ⟨ts', -, rfl⟩ := mark_of_tokensFrom .closeParen rfl hts
      rintro t ⟨⟩
      exact ⟨by simp, rfl⟩
  | or rest =>
      cases hrest : tokensFrom (position + 4) rest with
      | error e => rw [tokensFrom_or_error hrest] at hts; cases hts
      | ok ts' =>
          rw [tokensFrom_or hrest] at hts
          obtain rfl := Except.ok.inj hts
          rintro t ⟨⟩
          exact ⟨by simp, rfl⟩

/-! ## Literals of a criterion -/

/-- The text is read as a list of literals. -/
def ReadsValues (cs : List Char) (ls : List Literal) : Prop :=
  ∀ position rest ts, Ends rest → tokensFrom (position + byteLength cs) rest = .ok ts →
    ∃ toks, tokensFrom position (cs ++ rest) = .ok (toks ++ ts) ∧
      readValues true (toks ++ ts) = .ok (ls, ts)

theorem readValues_of_ends {ts : List Token} (h : ∀ t ∈ ts.head?, t.endsValues) (expecting : Bool) :
    readValues expecting ts = .ok ([], ts) := by
  cases ts with
  | nil => rw [readValues]
  | cons t ts =>
      obtain ⟨hcomma, hstarts⟩ := h t rfl
      rw [readValues]
      simp [hcomma, hstarts]

/-- A literal in front of a list that has been begun. -/
theorem readValues_literal {t : Token} {more ts rest : List Token} {l : Literal}
    {ls : List Literal} (hstarts : startsLiteral t = true)
    (hread : readLiteral t (more ++ ts) = .ok (l, more.length))
    (hrest : readValues false ts = .ok (ls, rest)) :
    readValues true (t :: (more ++ ts)) = .ok (l :: ls, rest) := by
  have hcomma : t.kind ≠ .comma := by
    intro hk
    rw [startsLiteral, hk] at hstarts
    cases hstarts
  rw [readValues]
  simp [hcomma, hstarts, hread, hrest]

theorem boundary_comma (rest : List Char) : Boundary (',' :: rest) := by
  rintro c ⟨⟩
  exact .inl rfl

/-- **Literals with commas between them are read one by one.** -/
theorem readsValues {css : List (List Char)} {ls : List Literal}
    (h : List.Forall₂ ReadsLiteral css ls) : ReadsValues ([','].intercalate css) ls := by
  induction h with
  | nil =>
      intro position rest ts hrest hts
      exact ⟨[], hts, readValues_of_ends (hrest.endsValues hts) true⟩
  | @cons cs l css ls hl hls ih =>
      intro position rest ts hrest hts
      cases hls with
      | nil =>
          rw [List.intercalate_singleton] at hts ⊢
          obtain ⟨t, more, hcut, hstarts, hread⟩ := hl position rest ts hrest.boundary hts
          refine ⟨t :: more, hcut, ?_⟩
          exact readValues_literal hstarts hread (readValues_of_ends (hrest.endsValues hts) false)
      -- the literal ends before a comma, after which the list goes on
      | @cons cs' l' css ls _ _ =>
          rw [List.intercalate_cons_cons] at hts ⊢
          simp only [byteLength_append, byteLength_cons, byteLength_nil, ← Nat.add_assoc] at hts
          obtain ⟨toks, hcut, hread⟩ := ih _ rest ts hrest hts
          have hcomma : tokensFrom (position + byteLength cs)
              (',' :: ([','].intercalate (cs' :: css) ++ rest))
              = .ok (⟨.comma, [','], position + byteLength cs⟩ :: (toks ++ ts)) :=
            (isToken_mark rfl _).tokensFrom_ok hcut
          obtain ⟨t, more, hcut', hstarts, hread'⟩ := hl position _ _ (boundary_comma _) hcomma
          refine ⟨t :: (more ++ ⟨.comma, [','], position + byteLength cs⟩ :: toks), ?_, ?_⟩
          · simpa only [List.append_assoc, List.cons_append, List.nil_append] using hcut'
          · have hgo : readValues false (⟨.comma, [','], position + byteLength cs⟩ :: (toks ++ ts))
                = .ok (l' :: ls, ts) := by
              rw [readValues]
              exact hread
            have := readValues_literal hstarts hread' hgo
            simpa only [List.append_assoc, List.cons_append, List.nil_append] using this

/-! ## Paths and criteria -/

/-- The segments of a path after the first one, each with its dot. -/
def dotted (segments : List (List Char)) : List Char := segments.flatMap ('.' :: ·)

theorem intercalate_dot (first : List Char) (others : List (List Char)) :
    ['.'].intercalate (first :: others) = first ++ dotted others := by
  induction others generalizing first with
  | nil => simp [dotted]
  | cons second others ih => rw [List.intercalate_cons_cons, ih second]; simp [dotted]

theorem wordEnd_dotted {others : List (List Char)} {rest : List Char} (hrest : WordEnd rest) :
    WordEnd (dotted others ++ rest) := by
  cases others with
  | nil => exact hrest
  | cons second others => exact wordEnd_dot _

/-- The segments after the first one are read up to the colon. -/
theorem readPathRest_dotted {others : List (List Char)} (hwords : ∀ w ∈ others, IsWord w)
    {position : Nat} {rest : List Char} {ts : List Token} (hrest : WordEnd rest)
    (hts : tokensFrom (position + byteLength (dotted others)) rest = .ok ts)
    (hdot : ∀ t ∈ ts.head?, t.kind ≠ .dot) :
    ∃ toks, tokensFrom position (dotted others ++ rest) = .ok (toks ++ ts) ∧
      ∀ size, readPathRest size (toks ++ ts) = .ok (others.map String.ofList, ts) := by
  induction others generalizing position with
  | nil =>
      refine ⟨[], hts, fun size => ?_⟩
      cases ts with
      | nil => rfl
      | cons t ts =>
          rw [List.nil_append, readPathRest.eq_def]
          simp [hdot t rfl]
  | cons w others ih =>
      have hsplit : dotted (w :: others) ++ rest = '.' :: (w ++ (dotted others ++ rest)) := by
        simp [dotted]
      have hlength : position + byteLength (dotted (w :: others))
          = position + 1 + byteLength w + byteLength (dotted others) := by
        have hdotsize : ('.' : Char).utf8Size = 1 := rfl
        simp [dotted, Nat.add_assoc, hdotsize]
      rw [hlength] at hts
      obtain ⟨toks, hcut, hread⟩ := ih (fun v hv => hwords v (List.mem_cons_of_mem _ hv)) hts
      have hword := (isToken_word (hwords w List.mem_cons_self) (wordEnd_dotted hrest)).tokensFrom_ok hcut
      have hmark : tokensFrom position ('.' :: (w ++ (dotted others ++ rest)))
          = .ok (⟨.dot, ['.'], position⟩ :: ⟨.word, w, position + 1⟩ :: (toks ++ ts)) :=
        (isToken_mark rfl _).tokensFrom_ok hword
      refine ⟨⟨.dot, ['.'], position⟩ :: ⟨.word, w, position + 1⟩ :: toks, ?_, fun size => ?_⟩
      · rw [hsplit]
        exact hmark
      · rw [List.cons_append, List.cons_append, readPathRest]
        simp [hread size]

/-- The characters of a written criterion. -/
def criterionText (segments : List (List Char)) (operator values : List Char) : List Char :=
  ['.'].intercalate segments ++ ':' :: (operator ++ ':' :: values)

/-- **A written criterion is read as its path, its operator and its literals.** -/
theorem readCriterion_criterionText {first : List Char} {others : List (List Char)}
    {operator values : List Char} {ls : List Literal} (hfirst : IsWord first)
    (hothers : ∀ w ∈ others, IsWord w) (hoperator : IsWord operator) (hvalues : ReadsValues values ls)
    {position : Nat} {rest : List Char} {ts : List Token} (hrest : Ends rest)
    (hts : tokensFrom (position + byteLength (criterionText (first :: others) operator values)) rest
      = .ok ts) :
    ∃ toks, tokensFrom position (criterionText (first :: others) operator values ++ rest)
        = .ok (⟨.word, first, position⟩ :: (toks ++ ts)) ∧
      ∀ size, readCriterion size ⟨.word, first, position⟩ (toks ++ ts)
        = .ok (⟨(first :: others).map String.ofList, String.ofList operator, ls, position⟩, ts) := by
  have hsplit : criterionText (first :: others) operator values ++ rest
      = first ++ (dotted others ++ (':' :: (operator ++ (':' :: (values ++ rest))))) := by
    simp only [criterionText, intercalate_dot, List.append_assoc, List.cons_append]
  have hlength : position + byteLength (criterionText (first :: others) operator values)
      = position + byteLength first + byteLength (dotted others) + 1 + byteLength operator + 1
        + byteLength values := by
    have hcolon : (':' : Char).utf8Size = 1 := rfl
    simp only [criterionText, intercalate_dot, byteLength_append, byteLength_cons, hcolon]
    omega
  rw [hlength] at hts
  obtain ⟨tv, hcutv, hreadv⟩ := hvalues _ rest ts hrest hts
  -- from the back: the colon, the operator, the colon before it, and the path
  obtain ⟨t₃, hcolon, hk₃⟩ : ∃ t : Token, tokensFrom _ (':' :: (values ++ rest))
      = .ok (t :: (tv ++ ts)) ∧ t.kind = .colon :=
    ⟨⟨.colon, [':'], _⟩, (isToken_mark rfl _).tokensFrom_ok hcutv, rfl⟩
  obtain ⟨t₂, hop, hk₂, htext⟩ : ∃ t : Token, tokensFrom _ (operator ++ ':' :: (values ++ rest))
      = .ok (t :: t₃ :: (tv ++ ts)) ∧ t.kind = .word ∧ t.text = operator :=
    ⟨_, (isToken_word hoperator (wordEnd_colon hcutv)).tokensFrom_ok hcolon, rfl, rfl⟩
  obtain ⟨t₁, hcolon', hk₁⟩ : ∃ t : Token,
      tokensFrom _ (':' :: (operator ++ ':' :: (values ++ rest)))
        = .ok (t :: t₂ :: t₃ :: (tv ++ ts)) ∧ t.kind = .colon :=
    ⟨⟨.colon, [':'], _⟩, (isToken_mark rfl _).tokensFrom_ok hop, rfl⟩
  obtain ⟨tp, hcutp, hreadp⟩ := readPathRest_dotted hothers (wordEnd_colon hop) hcolon'
    (by rintro t ⟨⟩; simp [hk₁])
  have hword := (isToken_word hfirst (wordEnd_dotted (wordEnd_colon hop))).tokensFrom_ok hcutp
  refine ⟨tp ++ t₁ :: t₂ :: t₃ :: tv, ?_, fun size => ?_⟩
  · rw [hsplit, hword]
    simp only [List.append_assoc, List.cons_append]
  · have hread := hreadp size
    simp only [List.append_assoc, List.cons_append]
    rw [readCriterion, hread]
    simp [expect, hk₁, hk₂, hk₃, htext, hreadv]

end EntityStore.QueryText
