import EntityStore.Proofs.QueryText.Layout

/-!
# Texts between commas

No token but one in quotes reaches over a comma, and nothing that is read depends on where in a text
it stands. **So what stands between commas is cut into the same tokens as on its own, and they are
read as the same values.**
-/

namespace EntityStore.QueryText

open Text

/-! ## How far a token reaches -/

/-- What is counted lies in the text, and a comma after the text makes no difference. -/
structure StopsAtComma (count : List Char → Nat) : Prop where
  le : ∀ cs, count cs ≤ cs.length
  comma : ∀ cs more, count (cs ++ ',' :: more) = count cs

theorem stopsAtComma_countWhile {p : Char → Bool} (hp : p ',' = false) :
    StopsAtComma (countWhile p) where
  le cs := (List.takeWhile_prefix p).length_le
  comma cs more := by
    rw [countWhile, countWhile, List.takeWhile_append]
    split
    case isTrue hall => rw [List.takeWhile_cons_of_neg (by simp [hp]), List.append_nil, hall]
    case isFalse => rfl

/-- One count after another. -/
theorem StopsAtComma.andThen {f g : List Char → Nat} (hf : StopsAtComma f) (hg : StopsAtComma g) :
    StopsAtComma fun cs => f cs + g (cs.drop (f cs)) where
  le cs := by
    have hrest := hg.le (cs.drop (f cs))
    have hfirst := hf.le cs
    rw [List.length_drop] at hrest
    omega
  comma cs more := by
    rw [hf.comma, List.drop_append_of_le_length (hf.le cs), hg.comma]

theorem stopsAtComma_fractionLength : StopsAtComma fractionLength := by
  have hdigits := stopsAtComma_countWhile (p := Char.isDigit) rfl
  constructor
  · intro cs
    unfold fractionLength
    split
    case h_1 rest =>
      have hle := hdigits.le rest
      rw [List.length_cons]
      split <;> omega
    case h_2 => exact Nat.zero_le _
  · intro cs more
    cases cs with
    | nil => rfl
    | cons c rest =>
        by_cases hpoint : c = '.'
        · rw [hpoint, List.cons_append, fractionLength, fractionLength, hdigits.comma]
        · simp [fractionLength, hpoint]

theorem stopsAtComma_exponentLength : StopsAtComma exponentLength := by
  have hdigits := stopsAtComma_countWhile (p := Char.isDigit) rfl
  constructor
  · intro cs
    unfold exponentLength
    split
    case h_1 e rest =>
      split
      case isTrue =>
        cases rest with
        | nil => simp [countWhile]
        | cons s rest =>
            have hrest := hdigits.le rest
            have hall := hdigits.le (s :: rest)
            simp only [List.length_cons] at hall ⊢
            split <;> simp only [List.drop_succ_cons, List.drop_zero] <;> split <;> omega
      case isFalse => exact Nat.zero_le _
    case h_2 => exact Nat.zero_le _
  · intro cs more
    cases cs with
    | nil => rfl
    | cons e rest =>
        cases rest with
        | nil => simp [exponentLength, countWhile]
        | cons s rest =>
          have hall := hdigits.comma (s :: rest) more
          rw [List.cons_append] at hall
          simp only [exponentLength, List.cons_append]
          split
          · split <;> simp only [List.drop_succ_cons, List.drop_zero, hdigits.comma, hall]
          · rfl

theorem stopsAtComma_numberLength : StopsAtComma numberLength :=
  ((stopsAtComma_countWhile rfl).andThen stopsAtComma_fractionLength).andThen
    stopsAtComma_exponentLength

/-- A quoted text that ends properly ends within the text, whatever follows. -/
theorem quotedLength_append {quote : Char} {cs : List Char} {n : Nat}
    (h : quotedLength quote cs = (n, true)) :
    n ≤ cs.length ∧ ∀ more, quotedLength quote (cs ++ more) = (n, true) := by
  fun_induction quotedLength quote cs generalizing n with
  | case1 => cases h
  | case2 rest =>
      obtain ⟨rfl, -⟩ := Prod.mk.inj h
      refine ⟨by simp, fun more => ?_⟩
      rw [List.cons_append, quotedLength.eq_def]
      simp
  | case3 => cases h
  | case4 => cases h
  | case5 d rest hquote hline ih =>
      obtain ⟨rfl, hend⟩ := Prod.mk.inj h
      obtain ⟨hle, hmore⟩ := ih (Prod.ext rfl hend)
      refine ⟨by simpa using hle, fun more => ?_⟩
      rw [List.cons_append, List.cons_append, quotedLength.eq_def]
      simp [hquote, hline, hmore]
  | case6 c rest hquote hescape ih =>
      obtain ⟨rfl, hend⟩ := Prod.mk.inj h
      obtain ⟨hle, hmore⟩ := ih (Prod.ext rfl hend)
      refine ⟨by simpa using hle, fun more => ?_⟩
      rw [List.cons_append, quotedLength.eq_def]
      simp [hquote, hescape, hmore]

/-- A text without a comma is at the front of another, or is not, whatever follows a comma after it. -/
theorem isPrefixOf_comma {scheme : List Char} (h : ',' ∉ scheme) (cs more : List Char) :
    scheme.isPrefixOf (cs ++ ',' :: more) = scheme.isPrefixOf cs := by
  induction scheme generalizing cs with
  | nil => simp
  | cons s scheme ih =>
      rw [List.mem_cons, not_or] at h
      cases cs with
      | nil => simp [List.isPrefixOf, Ne.symm h.1]
      | cons c cs => simp only [List.cons_append, List.isPrefixOf, ih h.2]

theorem urlLength?_comma (cs more : List Char) :
    urlLength? (cs ++ ',' :: more) = urlLength? cs := by
  have hparts := stopsAtComma_countWhile (p := isUrlPart) rfl
  have hdrop : ∀ scheme : List Char, scheme.isPrefixOf cs = true →
      (cs ++ ',' :: more).drop scheme.length = cs.drop scheme.length ++ ',' :: more :=
    fun scheme h => List.drop_append_of_le_length (List.isPrefixOf_iff_prefix.mp h).length_le
  unfold urlLength?
  rw [isPrefixOf_comma (by decide), isPrefixOf_comma (by decide)]
  dsimp only
  split
  case isTrue h => rw [show 6 = "ttp://".toList.length from rfl, hdrop _ h, hparts.comma]
  case isFalse =>
    split
    case isTrue h => rw [show 7 = "ttps://".toList.length from rfl, hdrop _ h, hparts.comma]
    case isFalse => rfl

theorem le_of_urlLength? {cs : List Char} {n : Nat} (h : urlLength? cs = some n) : n ≤ cs.length := by
  have hparts := stopsAtComma_countWhile (p := isUrlPart) rfl
  have hle : ∀ scheme : List Char, scheme.isPrefixOf cs = true →
      scheme.length + countWhile isUrlPart (cs.drop scheme.length) ≤ cs.length := by
    intro scheme hscheme
    have hlength := (List.isPrefixOf_iff_prefix.mp hscheme).length_le
    have hrest := hparts.le (cs.drop scheme.length)
    rw [List.length_drop] at hrest
    omega
  unfold urlLength? at h
  dsimp only at h
  split at h
  case isTrue hscheme =>
    split at h
    · obtain rfl := Option.some.inj h
      exact hle "ttp://".toList hscheme
    · cases h
  case isFalse =>
    split at h
    case isTrue hscheme =>
      split at h
      · obtain rfl := Option.some.inj h
        exact hle "ttps://".toList hscheme
      · cases h
    case isFalse => cases h

/-- **A token reaches as far with a comma after the text as without.** -/
theorem extent_comma {c : Char} {rest : List Char} {kind : TokenKind} {n : Nat}
    (h : extent c rest = .ok (kind, n)) :
    n ≤ rest.length ∧ ∀ more, extent c (rest ++ ',' :: more) = .ok (kind, n) := by
  have hnumber := stopsAtComma_numberLength
  have hword := stopsAtComma_countWhile (p := isWordPart) rfl
  -- the first character decides how the rest is counted, and every count stops at the comma
  unfold extent at h
  split at h
  case h_1 mark hmark =>
    obtain ⟨rfl, rfl⟩ := Prod.mk.inj (Except.ok.inj h)
    exact ⟨Nat.zero_le _, fun more => by simp [extent, hmark]⟩
  case h_2 hmark =>
    split at h
    case isTrue hdigit =>
      obtain ⟨rfl, rfl⟩ := Prod.mk.inj (Except.ok.inj h)
      exact ⟨hnumber.le rest, fun more => by simp [extent, hmark, hdigit, hnumber.comma]⟩
    case isFalse hdigit =>
      split at h
      case isTrue hhyphen =>
        subst hhyphen
        split at h
        case h_1 d rest' =>
          have hle := hnumber.le rest'
          split at h
          case isTrue hdigit' =>
            obtain ⟨rfl, rfl⟩ := Prod.mk.inj (Except.ok.inj h)
            refine ⟨Nat.succ_le_succ hle, fun more => ?_⟩
            simp [extent, punctuation?, hdigit', hnumber.comma]
          case isFalse hdigit' =>
            obtain ⟨rfl, rfl⟩ := Prod.mk.inj (Except.ok.inj h)
            exact ⟨Nat.zero_le _, fun more => by simp [extent, punctuation?, hdigit']⟩
        case h_2 =>
          obtain ⟨rfl, rfl⟩ := Prod.mk.inj (Except.ok.inj h)
          exact ⟨Nat.zero_le _, fun more => by simp [extent, punctuation?]⟩
      case isFalse hhyphen =>
        split at h
        case isTrue hquote =>
          split at h
          case h_1 m hclosed =>
            obtain ⟨rfl, rfl⟩ := Prod.mk.inj (Except.ok.inj h)
            obtain ⟨hle, hmore⟩ := quotedLength_append hclosed
            exact ⟨hle, fun more => by simp [extent, hmark, hdigit, hhyphen, hquote, hmore]⟩
          case h_2 => cases h
        case isFalse hquote =>
          split at h
          case isFalse => cases h
          case isTrue hstart =>
            split at h
            case h_1 m hurl =>
              obtain ⟨rfl, rfl⟩ := Prod.mk.inj (Except.ok.inj h)
              have haddress : urlLength? rest = some m := by
                split at hurl
                case isTrue => exact hurl
                case isFalse => cases hurl
              refine ⟨le_of_urlLength? haddress, fun more => ?_⟩
              simp [extent, hmark, hdigit, hhyphen, hquote, hstart, urlLength?_comma, hurl]
            case h_2 hurl =>
              obtain ⟨rfl, rfl⟩ := Prod.mk.inj (Except.ok.inj h)
              refine ⟨hword.le rest, fun more => ?_⟩
              simp [extent, hmark, hdigit, hhyphen, hquote, hstart, urlLength?_comma, hurl, hword.comma]

/-! ## Cutting at a comma -/

/-- **What stands before a comma is cut as on its own.** -/
theorem tokensFrom_comma {position : Nat} {cs more : List Char} {ts us : List Token}
    (h : tokensFrom position cs = .ok ts)
    (hmore : tokensFrom (position + byteLength cs + 1) more = .ok us) :
    tokensFrom position (cs ++ ',' :: more)
      = .ok (ts ++ ⟨.comma, [','], position + byteLength cs⟩ :: us) := by
  fun_induction tokensFrom position cs generalizing ts with
  | case1 position =>
      obtain rfl := Except.ok.inj h
      exact (isToken_mark rfl more).tokensFrom_ok hmore
  | case2 position c rest hgap ih =>
      rw [byteLength_cons, ← Nat.add_assoc] at hmore ⊢
      rw [List.cons_append, tokensFrom_gap hgap]
      exact ih h hmore
  | case3 => cases h
  | case4 => cases h
  | case5 position c rest hgap kind n hext tokens hrest ih =>
      -- the token ends before the comma, and so what is left of the text ends there, too
      obtain rfl := Except.ok.inj h
      obtain ⟨hle, hcomma⟩ := extent_comma hext
      have hwhole : position + byteLength (c :: rest)
          = position + byteLength (c :: rest.take n) + byteLength (rest.drop n) := by
        rw [Nat.add_assoc, ← byteLength_append, List.cons_append, List.take_append_drop]
      rw [hwhole] at hmore ⊢
      have htoken : IsToken kind (c :: rest.take n) (rest.drop n ++ ',' :: more) := by
        refine ⟨c, rest.take n, rfl, by simpa using hgap, ?_⟩
        rw [← List.append_assoc, List.take_append_drop, hcomma, List.length_take_of_le hle]
      have hcut := htoken.tokensFrom_ok (ih hrest hmore)
      rw [← List.append_assoc, List.cons_append, List.take_append_drop] at hcut
      exact hcut

/-! ## Cutting further on in a text -/

/-- The token further on in the text. -/
def Token.shift (d : Nat) (t : Token) : Token := { t with start := t.start + d }

@[simp] theorem Token.kind_shift (d : Nat) (t : Token) : (t.shift d).kind = t.kind := rfl

@[simp] theorem Token.text_shift (d : Nat) (t : Token) : (t.shift d).text = t.text := rfl

@[simp] theorem Token.start_shift (d : Nat) (t : Token) : (t.shift d).start = t.start + d := rfl

@[simp] theorem Token.stop_shift (d : Nat) (t : Token) : (t.shift d).stop = t.stop + d := by
  simp only [stop, shift]
  omega

/-- Wherever a text stands it is cut into the same tokens. -/
theorem tokensFrom_shift {position : Nat} {cs : List Char} {ts : List Token}
    (h : tokensFrom position cs = .ok ts) (d : Nat) :
    tokensFrom (position + d) cs = .ok (ts.map (Token.shift d)) := by
  fun_induction tokensFrom position cs generalizing ts with
  | case1 =>
      obtain rfl := Except.ok.inj h
      rw [tokensFrom]
      rfl
  | case2 position c rest hgap ih =>
      rw [tokensFrom_gap hgap, Nat.add_right_comm]
      exact ih h
  | case3 => cases h
  | case4 => cases h
  | case5 position c rest hgap kind n hext tokens hrest ih =>
      obtain rfl := Except.ok.inj h
      have htail := ih hrest
      rw [Nat.add_right_comm] at htail
      rw [tokensFrom, if_neg hgap, hext]
      dsimp only
      rw [htail]
      rfl

/-! ## Reading further on in a text -/

theorem readNumber_toOption (text : List Char) (position position' : Nat) :
    (readNumber text position).toOption = (readNumber text position').toOption := by
  unfold readNumber
  split
  · split <;> rfl
  · split <;> rfl

theorem toOption_map {α β ε : Type} (f : α → β) (x : Except ε α) :
    (x.map f).toOption = x.toOption.map f := by
  cases x <;> rfl

theorem readRangeEnd_shift (d stop : Nat) (ts : List Token) :
    (readRangeEnd (stop + d) (ts.map (Token.shift d))).toOption = (readRangeEnd stop ts).toOption := by
  cases ts with
  | nil => rfl
  | cons t ts =>
      rw [List.map_cons, readRangeEnd.eq_def, readRangeEnd.eq_def]
      simp only [Token.start_shift, Token.kind_shift, Token.text_shift, Token.stop_shift, ne_eq,
        Nat.add_right_cancel_iff]
      by_cases hstart : t.start = stop
      · by_cases hnumber : t.kind = .number
        · simp only [hstart, hnumber, not_true_eq_false, if_false, if_true]
          split
          · rw [toOption_map, toOption_map, readNumber_toOption]
          · rfl
        · by_cases hminus : t.kind = .minus
          · simp only [hstart, hminus, reduceCtorEq, not_true_eq_false, if_false, if_true]
            cases ts with
            | nil => rfl
            | cons u ts =>
                simp only [List.map_cons, Token.start_shift, Token.kind_shift, Token.text_shift,
                  Nat.add_right_cancel_iff]
                split
                · rw [toOption_map, toOption_map, readNumber_toOption]
                · rfl
          · simp only [hstart, hnumber, hminus, not_true_eq_false, if_false]
      · simp only [hstart, not_false_eq_true, if_true]

/-- A number, with the bound after it if there is one. -/
theorem readLiteral_number {t : Token} (h : t.kind = .number) (ts : List Token) :
    (readLiteral t ts).toOption = (readNumber t.text t.start).toOption.bind fun low =>
      (readRangeEnd t.stop ts).toOption.map fun
        | none => (.value low, 0)
        | some (high, n) => (.range low high, n) := by
  unfold readLiteral
  simp only [h]
  cases readNumber t.text t.start with
  | error e => rfl
  | ok low =>
      cases readRangeEnd t.stop ts with
      | error e => rfl
      | ok bound => cases bound <;> rfl

theorem readLiteral_shift (d : Nat) (t : Token) (ts : List Token) :
    (readLiteral (t.shift d) (ts.map (Token.shift d))).toOption = (readLiteral t ts).toOption := by
  by_cases hnumber : t.kind = .number
  · have hnumber' : (t.shift d).kind = .number := hnumber
    rw [readLiteral_number hnumber, readLiteral_number hnumber', Token.text_shift,
      readNumber_toOption t.text _ t.start, Token.stop_shift, readRangeEnd_shift]
  · unfold readLiteral
    simp only [Token.kind_shift, Token.text_shift]
    split
    case h_1 hkind => exact absurd hkind hnumber
    all_goals rfl

theorem startsLiteral_shift (d : Nat) (t : Token) :
    startsLiteral (t.shift d) = startsLiteral t := rfl

/-- One step of reading a list of values. -/
theorem readValues_cons (expecting : Bool) (t : Token) (ts : List Token) :
    (readValues expecting (t :: ts)).toOption =
      if t.kind = .comma then (readValues true ts).toOption
      else if expecting && startsLiteral t then
        (readLiteral t ts).toOption.bind fun (l, n) =>
          (readValues false (ts.drop n)).toOption.map fun (ls, rest) => (l :: ls, rest)
      else some ([], t :: ts) := by
  rw [readValues]
  split
  · rfl
  · split
    · cases readLiteral t ts with
      | error e => rfl
      | ok r =>
          obtain ⟨l, n⟩ := r
          dsimp only
          cases h : readValues false (ts.drop n) with
          | error e => simp [h, Except.toOption]
          | ok r => simp [h, Except.toOption]
    · rfl

/-- **Wherever values stand they are read as the same.** -/
theorem readValues_shift (d : Nat) (expecting : Bool) (ts : List Token) :
    (readValues expecting (ts.map (Token.shift d))).toOption
      = (readValues expecting ts).toOption.map fun (ls, rest) => (ls, rest.map (Token.shift d)) := by
  -- by the length, since a literal may take more than one token
  induction hlength : ts.length using Nat.strong_induction_on generalizing expecting ts with
  | _ length ih =>
    cases ts with
    | nil => simp [readValues, Except.toOption]
    | cons t ts =>
        have hrest : ∀ expecting n, (readValues expecting ((ts.drop n).map (Token.shift d))).toOption
            = (readValues expecting (ts.drop n)).toOption.map fun (ls, rest) =>
                (ls, rest.map (Token.shift d)) := by
          intro expecting n
          refine ih (ts.drop n).length ?_ expecting _ rfl
          rw [← hlength, List.length_drop, List.length_cons]
          omega
        rw [List.map_cons, readValues_cons, readValues_cons, Token.kind_shift, startsLiteral_shift,
          readLiteral_shift]
        split
        · exact hrest true 0
        · split
          · cases (readLiteral t ts).toOption with
            | none => rfl
            | some r =>
                simp only [Option.bind_some, ← List.map_drop, hrest, Option.map_map]
                rfl
          · rfl

end EntityStore.QueryText
