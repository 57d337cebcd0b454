import EntityStore.Proofs.QueryText.Paths
import EntityStore.Proofs.QueryText.Values

/-!
# What the reader makes of tokens

Every value of a filter comes from a token: a number from the digits of one, a text, an address or
a timestamp from what a quoted one holds, an address also from a bare one. The words of a path are
words, and the first of them is no separator. `Formed` collects this for whatever is known of the
values the tokens stand for, and each step of the reader keeps it.
-/

namespace EntityStore.QueryText

open Text

/-! ## Tokens -/

/-- What is known of a token that has been cut out of a text. -/
structure Token.Cut (t : Token) : Prop where
  word : t.kind = .word → IsWord t.text
  url : t.kind = .url → looksLikeUrl t.text = true
  /-- A hyphen that is no part of a number stands alone. -/
  minus : t.kind = .minus → t.text = ['-']
  /-- A quoted text ends with the quote it begins with. -/
  quoted : t.kind = .quoted → ∃ quote body, (quote = '"' ∨ quote = '\'') ∧
    t.text = quote :: (body ++ [quote])

/-- A single character makes no token of several characters, and no hyphen. -/
theorem punctuation?_ne {c : Char} {kind : TokenKind} (h : punctuation? c = some kind) :
    kind ≠ .word ∧ kind ≠ .url ∧ kind ≠ .minus ∧ kind ≠ .quoted := by
  unfold punctuation? at h
  split at h <;> cases h <;> decide

theorem take_countWhile (p : Char → Bool) (cs : List Char) :
    cs.take (countWhile p cs) = cs.takeWhile p :=
  (List.prefix_iff_eq_take.mp (List.takeWhile_prefix p)).symm

/-- The scheme of an address is part of its token. -/
theorem looksLikeUrl_of_urlLength? {rest : List Char} {n : Nat} (h : urlLength? rest = some n) :
    looksLikeUrl ('h' :: rest.take n) = true := by
  have hscheme : ∀ scheme : List Char, scheme.isPrefixOf rest = true → scheme.length ≤ n →
      ('h' :: scheme).isPrefixOf ('h' :: rest.take n) = true := by
    intro scheme hbegins hle
    rw [List.isPrefixOf_iff_prefix] at hbegins ⊢
    rw [List.cons_prefix_cons]
    exact ⟨rfl, List.prefix_take_iff.mpr ⟨hbegins, hle⟩⟩
  unfold urlLength? at h
  unfold looksLikeUrl
  rw [Bool.or_eq_true]
  dsimp only at h
  split at h
  case isTrue hplain =>
    split at h
    · exact .inl (hscheme "ttp://".toList hplain (by rw [← Option.some.inj h]; exact Nat.le_add_right 6 _))
    · cases h
  case isFalse =>
    split at h
    case isTrue hsecure =>
      split at h
      · exact .inr (hscheme "ttps://".toList hsecure
          (by rw [← Option.some.inj h]; exact Nat.le_add_right 7 _))
      · cases h
    case isFalse => cases h

/-- A quoted text that ends properly ends with its quote. -/
theorem take_quotedLength {quote : Char} {cs : List Char} {n : Nat}
    (h : quotedLength quote cs = (n, true)) : ∃ body, cs.take n = body ++ [quote] := by
  fun_induction quotedLength quote cs generalizing n with
  | case1 => cases h
  | case2 =>
      obtain ⟨rfl, -⟩ := Prod.mk.inj h
      exact ⟨[], rfl⟩
  | case3 => cases h
  | case4 => cases h
  | case5 d rest _ _ ih =>
      obtain ⟨rfl, hend⟩ := Prod.mk.inj h
      obtain ⟨body, hbody⟩ := ih (Prod.ext rfl hend)
      exact ⟨'\\' :: d :: body, by rw [List.take_succ_cons, List.take_succ_cons, hbody]; rfl⟩
  | case6 c rest _ _ ih =>
      obtain ⟨rfl, hend⟩ := Prod.mk.inj h
      obtain ⟨body, hbody⟩ := ih (Prod.ext rfl hend)
      exact ⟨c :: body, by rw [List.take_succ_cons, hbody]; rfl⟩

/-- The tokens that can begin with a character, and how much of what follows belongs to them. -/
inductive Extends (c : Char) (rest : List Char) : TokenKind → Nat → Prop
  | mark {kind : TokenKind} (mark : punctuation? c = some kind) : Extends c rest kind 0
  | number (n : Nat) : Extends c rest .number n
  | minus (hyphen : c = '-') : Extends c rest .minus 0
  | quoted {n : Nat} (quote : c = '"' ∨ c = '\'') (closed : quotedLength c rest = (n, true)) :
      Extends c rest .quoted n
  | url {n : Nat} (letter : c = 'h') (address : urlLength? rest = some n) : Extends c rest .url n
  | word (start : isWordStart c = true) : Extends c rest .word (countWhile isWordPart rest)

theorem extends_of_extent {c : Char} {rest : List Char} {kind : TokenKind} {n : Nat}
    (h : extent c rest = .ok (kind, n)) : Extends c rest kind n := by
  unfold extent at h
  split at h
  case h_1 mark hmark =>
    obtain ⟨rfl, rfl⟩ := Prod.mk.inj (Except.ok.inj h)
    exact .mark hmark
  case h_2 =>
    split at h
    · obtain ⟨rfl, rfl⟩ := Prod.mk.inj (Except.ok.inj h)
      exact .number _
    · split at h
      case isTrue hhyphen =>
        split at h
        · split at h
          · obtain ⟨rfl, rfl⟩ := Prod.mk.inj (Except.ok.inj h)
            exact .number _
          · obtain ⟨rfl, rfl⟩ := Prod.mk.inj (Except.ok.inj h)
            exact .minus hhyphen
        · obtain ⟨rfl, rfl⟩ := Prod.mk.inj (Except.ok.inj h)
          exact .minus hhyphen
      case isFalse =>
        split at h
        case isTrue hquote =>
          split at h
          case h_1 m hclosed =>
            obtain ⟨rfl, rfl⟩ := Prod.mk.inj (Except.ok.inj h)
            exact .quoted hquote hclosed
          case h_2 => cases h
        case isFalse =>
          split at h
          case isFalse => cases h
          case isTrue hstart =>
            split at h
            case h_1 m hurl =>
              obtain ⟨rfl, rfl⟩ := Prod.mk.inj (Except.ok.inj h)
              split at hurl
              case isTrue hletter => exact .url hletter hurl
              case isFalse => cases hurl
            case h_2 =>
              obtain ⟨rfl, rfl⟩ := Prod.mk.inj (Except.ok.inj h)
              exact .word hstart

/-- **The extent of a token makes words of words and addresses of addresses.** -/
theorem cut_of_extent {c : Char} {rest : List Char} {kind : TokenKind} {n : Nat}
    (h : extent c rest = .ok (kind, n)) (position : Nat) :
    Token.Cut ⟨kind, c :: rest.take n, position⟩ := by
  cases extends_of_extent h with
  | mark hmark =>
      obtain ⟨hword, hurl, hminus, hquoted⟩ := punctuation?_ne hmark
      exact ⟨fun hk => absurd hk hword, fun hk => absurd hk hurl, fun hk => absurd hk hminus,
        fun hk => absurd hk hquoted⟩
  | number => constructor <;> intro hk <;> cases hk
  | minus hhyphen =>
      refine ⟨fun hk => (by cases hk), fun hk => (by cases hk), fun _ => ?_, fun hk => (by cases hk)⟩
      rw [hhyphen]
      rfl
  | quoted hquote hclosed =>
      refine ⟨fun hk => (by cases hk), fun hk => (by cases hk), fun hk => (by cases hk), fun _ => ?_⟩
      obtain ⟨body, hbody⟩ := take_quotedLength hclosed
      exact ⟨c, body, hquote, by rw [hbody]⟩
  | url hletter haddress =>
      refine ⟨fun hk => (by cases hk), fun _ => ?_, fun hk => (by cases hk), fun hk => (by cases hk)⟩
      rw [hletter]
      exact looksLikeUrl_of_urlLength? haddress
  | word hstart =>
      -- a word is as long as its characters go on
      refine ⟨fun _ => ⟨c, _, rfl, hstart, fun x hx => ?_⟩, fun hk => (by cases hk),
        fun hk => (by cases hk), fun hk => (by cases hk)⟩
      rw [take_countWhile] at hx
      exact List.all_eq_true.mp List.all_takeWhile x hx

theorem cut_of_tokensFrom {position : Nat} {cs : List Char} {ts : List Token}
    (h : tokensFrom position cs = .ok ts) : ∀ t ∈ ts, t.Cut := by
  fun_induction tokensFrom position cs generalizing ts with
  | case1 => simp_all
  | case2 position c rest hgap ih => exact ih h
  | case3 => cases h
  | case4 => cases h
  | case5 position c rest hgap kind n hext tokens hrest ih =>
      obtain rfl := Except.ok.inj h
      intro t ht
      rcases List.mem_cons.mp ht with rfl | ht
      · exact cut_of_extent hext position
      · exact ih hrest t ht

/-- The values a token may stand for. A number that begins with a hyphen may be the upper bound of
a range, and then counts without it. -/
inductive Token.Yields (t : Token) : Value → Prop
  | number {position : Nat} {v : Value} (kind : t.kind = .number)
      (read : readNumber t.text position = .ok v) : Yields t v
  | bound {digits : List Char} {position : Nat} {v : Value} (kind : t.kind = .number)
      (hyphen : t.text = '-' :: digits) (read : readNumber digits position = .ok v) : Yields t v
  | quoted (kind : t.kind = .quoted) : Yields t (classify (unquote t.text))
  | url (kind : t.kind = .url) : Yields t (.url (String.ofList t.text))
  | bool (b : Bool) : Yields t (.bool b)
  | null : Yields t .null

/-! ## What the reader takes -/

/-- The upper bound of a range is a number with a hyphen in front, or a hyphen and a number. -/
inductive RangeEnd (high : Value) : List Token → Nat → Prop
  | glued {t : Token} {rest : List Token} {digits : List Char} {position : Nat}
      (kind : t.kind = .number) (hyphen : t.text = '-' :: digits)
      (read : readNumber digits position = .ok high) : RangeEnd high (t :: rest) 1
  | apart {t u : Token} {rest : List Token} {position : Nat} (minus : t.kind = .minus)
      (kind : u.kind = .number) (read : readNumber u.text position = .ok high) :
      RangeEnd high (t :: u :: rest) 2

theorem rangeEnd_of_readRangeEnd {stop : Nat} {ts : List Token} {high : Value} {n : Nat}
    (h : readRangeEnd stop ts = .ok (some (high, n))) : RangeEnd high ts n := by
  have hmap : ∀ {cs : List Char} {position m : Nat},
      ((readNumber cs position).map fun high => some (high, m)) = .ok (some (high, n)) →
        readNumber cs position = .ok high ∧ m = n := by
    intro cs position m h
    cases hread : readNumber cs position with
    | error e =>
        rw [hread] at h
        cases h
    | ok v =>
        rw [hread] at h
        obtain ⟨rfl, rfl⟩ := Prod.mk.inj (Option.some.inj (Except.ok.inj h))
        exact ⟨rfl, rfl⟩
  unfold readRangeEnd at h
  split at h
  case h_1 => cases h
  case h_2 t rest =>
    split at h
    · cases h
    · split at h
      case isTrue hnumber =>
        split at h
        case h_1 digits hyphen =>
          obtain ⟨hread, rfl⟩ := hmap h
          exact .glued hnumber hyphen hread
        case h_2 => cases h
      case isFalse =>
        split at h
        case isTrue hminus =>
          split at h
          case h_1 u rest =>
            split at h
            case isTrue hu =>
              obtain ⟨hread, rfl⟩ := hmap h
              exact .apart hminus hu.1 hread
            case isFalse => cases h
          case h_2 => cases h
        case isFalse => cases h

/-- A literal is what its first token stands for, or a range that begins with it. -/
inductive TakesLiteral (t : Token) (rest : List Token) : Literal → Nat → Prop
  | value {v : Value} (h : t.Yields v) : TakesLiteral t rest (.value v) 0
  | range {low high : Value} {position n : Nat} (kind : t.kind = .number)
      (read : readNumber t.text position = .ok low) (h : RangeEnd high rest n) :
      TakesLiteral t rest (.range low high) n

theorem takesLiteral_of_readLiteral {t : Token} {rest : List Token} {l : Literal} {n : Nat}
    (h : readLiteral t rest = .ok (l, n)) : TakesLiteral t rest l n := by
  unfold readLiteral at h
  split at h
  case h_1 hnumber =>
    split at h
    · cases h
    case h_2 low hlow =>
      split at h
      · cases h
      · obtain ⟨rfl, rfl⟩ := Prod.mk.inj (Except.ok.inj h)
        exact .value (.number hnumber hlow)
      case h_3 high m hhigh =>
        obtain ⟨rfl, rfl⟩ := Prod.mk.inj (Except.ok.inj h)
        exact .range hnumber hlow (rangeEnd_of_readRangeEnd hhigh)
  case h_2 hquoted =>
    obtain ⟨rfl, rfl⟩ := Prod.mk.inj (Except.ok.inj h)
    exact .value (.quoted hquoted)
  case h_3 hurl =>
    obtain ⟨rfl, rfl⟩ := Prod.mk.inj (Except.ok.inj h)
    exact .value (.url hurl)
  case h_4 =>
    split at h
    · obtain ⟨rfl, rfl⟩ := Prod.mk.inj (Except.ok.inj h)
      exact .value (.bool true)
    · split at h
      · obtain ⟨rfl, rfl⟩ := Prod.mk.inj (Except.ok.inj h)
        exact .value (.bool false)
      · obtain ⟨rfl, rfl⟩ := Prod.mk.inj (Except.ok.inj h)
        exact .value .null

theorem expect_eq_ok {size : Nat} {kind : TokenKind} {what : Expected} {t : Token}
    {ts rest : List Token} (h : expect size kind what ts = .ok (t, rest)) :
    ts = t :: rest ∧ t.kind = kind := by
  unfold expect at h
  split at h
  · split at h
    case isTrue hkind =>
      obtain ⟨rfl, rfl⟩ := Prod.mk.inj (Except.ok.inj h)
      exact ⟨rfl, hkind⟩
    case isFalse => cases h
  · cases h

/-- A criterion is a path, a colon, the name of an operator, a colon and literals. -/
structure TakesCriterion (size : Nat) (w : Token) (ts : List Token) (c : RawCriterion)
    (rest : List Token) where
  segments : List String
  colon : Token
  operator : Token
  colon' : Token
  more : List Token
  path : readPathRest size ts = .ok (segments, colon :: operator :: colon' :: more)
  kinds : colon.kind = .colon ∧ operator.kind = .word ∧ colon'.kind = .colon
  values : readValues true more = .ok (c.values, rest)
  path_eq : c.path = String.ofList w.text :: segments
  operator_eq : c.operator = String.ofList operator.text

theorem takesCriterion_of_readCriterion {size : Nat} {w : Token} {ts rest : List Token}
    {c : RawCriterion} (h : readCriterion size w ts = .ok (c, rest)) :
    Nonempty (TakesCriterion size w ts c rest) := by
  unfold readCriterion at h
  split at h
  · cases h
  case h_2 segments ts₁ hpath =>
    split at h
    · cases h
    case h_2 colon ts₂ hcolon =>
      obtain ⟨rfl, hcolonKind⟩ := expect_eq_ok hcolon
      split at h
      · cases h
      case h_2 operator ts₃ hoperator =>
        obtain ⟨rfl, hoperatorKind⟩ := expect_eq_ok hoperator
        split at h
        · cases h
        case h_2 colon' ts₄ hcolon' =>
          obtain ⟨rfl, hcolonKind'⟩ := expect_eq_ok hcolon'
          split at h
          · cases h
          case h_2 values ts₅ hvalues =>
            obtain ⟨rfl, rfl⟩ := Prod.mk.inj (Except.ok.inj h)
            exact ⟨⟨segments, colon, operator, colon', ts₄, hpath,
              ⟨hcolonKind, hoperatorKind, hcolonKind'⟩, hvalues, rfl, rfl⟩⟩

/-! ## Literals -/

variable {q : Value → Prop}

/-- All values the tokens may stand for are of the given sort. -/
def YieldOnly (q : Value → Prop) (ts : List Token) : Prop := ∀ t ∈ ts, ∀ v, t.Yields v → q v

theorem YieldOnly.mono {ts us : List Token} (h : YieldOnly q ts) (hsub : us ⊆ ts) : YieldOnly q us :=
  fun t ht => h t (hsub ht)

theorem RangeEnd.formed {high : Value} {ts : List Token} {n : Nat} (h : RangeEnd high ts n)
    (hts : YieldOnly q ts) : isNumber high = true ∧ q high := by
  cases h with
  | @glued t rest digits position kind hyphen read =>
      exact ⟨(isNumber_of_readNumber read).1, hts t List.mem_cons_self _ (.bound kind hyphen read)⟩
  | @apart t u rest position minus kind read =>
      have hmem : u ∈ t :: u :: rest := List.mem_cons_of_mem _ List.mem_cons_self
      exact ⟨(isNumber_of_readNumber read).1, hts u hmem _ (.number kind read)⟩

theorem formed_of_readLiteral {t : Token} {rest : List Token} {l : Literal} {n : Nat}
    (hts : YieldOnly q (t :: rest)) (h : readLiteral t rest = .ok (l, n)) : l.Formed q := by
  have ht := hts t List.mem_cons_self
  cases takesLiteral_of_readLiteral h with
  | value hv => exact ht _ hv
  | range kind read hhigh =>
      obtain ⟨hnum, hq⟩ := hhigh.formed (hts.mono (List.subset_cons_self _ _))
      exact ⟨⟨(isNumber_of_readNumber read).1, hnum⟩, ht _ (.number kind read), hq⟩

/-- **The literals of a list are of the sort the tokens are**, and what is left are tokens of the
text. -/
theorem formed_of_readValues {expecting : Bool} {ts rest : List Token} {ls : List Literal}
    (hts : YieldOnly q ts) (h : readValues expecting ts = .ok (ls, rest)) :
    (∀ l ∈ ls, l.Formed q) ∧ rest ⊆ ts := by
  fun_induction readValues expecting ts generalizing ls rest with
  | case1 =>
      obtain ⟨rfl, rfl⟩ := Prod.mk.inj (Except.ok.inj h)
      exact ⟨fun l hl => (by cases hl), List.Subset.refl _⟩
  | case2 expecting t ts hcomma ih =>
      obtain ⟨hls, hrest⟩ := ih (hts.mono (List.subset_cons_self _ _)) h
      exact ⟨hls, List.Subset.trans hrest (List.subset_cons_self _ _)⟩
  | case3 => cases h
  | case4 => cases h
  | case5 expecting t ts hcomma hstarts l n hread ls' rest' hrest ih =>
      obtain ⟨rfl, rfl⟩ := Prod.mk.inj (Except.ok.inj h)
      have hdrop : ts.drop n ⊆ t :: ts := List.Subset.trans (List.drop_subset n ts) (List.subset_cons_self _ _)
      obtain ⟨hls, hsub⟩ := ih (hts.mono hdrop) hrest
      refine ⟨fun k hk => ?_, List.Subset.trans hsub hdrop⟩
      rcases List.mem_cons.mp hk with rfl | hk
      · exact formed_of_readLiteral hts hread
      · exact hls k hk
  | case6 =>
      obtain ⟨rfl, rfl⟩ := Prod.mk.inj (Except.ok.inj h)
      exact ⟨fun l hl => (by cases hl), List.Subset.refl _⟩

/-! ## Criteria -/

/-- A criterion as the reader makes it: a path of words that does not begin with a separator, and
literals of the given sort. -/
structure RawCriterion.Formed (q : Value → Prop) (c : RawCriterion) : Prop where
  path : ∃ first others, c.path = (first :: others).map String.ofList ∧
    (∀ w ∈ first :: others, IsWord w) ∧ sameWord first "and".toList = false ∧
    sameWord first "or".toList = false
  values : ∀ l ∈ c.values, l.Formed q

/-- The segments of a path are words of the text. -/
theorem isWord_of_readPathRest {size : Nat} {ts rest : List Token} {segments : List String}
    (hts : ∀ t ∈ ts, t.Cut) (h : readPathRest size ts = .ok (segments, rest)) :
    (∃ ws : List (List Char), segments = ws.map String.ofList ∧ ∀ w ∈ ws, IsWord w) ∧ rest ⊆ ts := by
  fun_induction readPathRest size ts generalizing segments rest with
  | case1 => cases h
  | case2 t hdot w ts hword segments' rest' hrest ih =>
      obtain ⟨rfl, rfl⟩ := Prod.mk.inj (Except.ok.inj h)
      have hsub : ts ⊆ t :: w :: ts :=
        List.Subset.trans (List.subset_cons_self _ _) (List.subset_cons_self _ _)
      obtain ⟨⟨ws, rfl, hws⟩, hsub'⟩ := ih (fun u hu => hts u (hsub hu)) hrest
      refine ⟨⟨w.text :: ws, rfl, fun v hv => ?_⟩, List.Subset.trans hsub' hsub⟩
      rcases List.mem_cons.mp hv with rfl | hv
      · exact (hts w (List.mem_cons_of_mem _ List.mem_cons_self)).word hword
      · exact hws v hv
  | case3 => cases h
  | case4 => cases h
  | case5 =>
      obtain ⟨rfl, rfl⟩ := Prod.mk.inj (Except.ok.inj h)
      exact ⟨⟨[], rfl, fun w hw => (by cases hw)⟩, List.Subset.refl _⟩
  | case6 =>
      obtain ⟨rfl, rfl⟩ := Prod.mk.inj (Except.ok.inj h)
      exact ⟨⟨[], rfl, fun w hw => (by cases hw)⟩, List.Subset.refl _⟩

/-- **What is read as a criterion is formed as one.** -/
theorem formed_of_readCriterion {size : Nat} {w : Token} {ts rest : List Token} {c : RawCriterion}
    (hcut : ∀ t ∈ w :: ts, t.Cut) (hts : YieldOnly q (w :: ts)) (hword : w.kind = .word)
    (hand : w.isKeyword "and" = false) (hor : w.isKeyword "or" = false)
    (h : readCriterion size w ts = .ok (c, rest)) : c.Formed q ∧ rest ⊆ ts := by
  have hfirst := (hcut w List.mem_cons_self).word hword
  rw [Token.isKeyword, hword, beq_self_eq_true, Bool.true_and] at hand hor
  obtain ⟨taken⟩ := takesCriterion_of_readCriterion h
  obtain ⟨⟨others, hsegments, hothers⟩, hsub⟩ :=
    isWord_of_readPathRest (fun t ht => hcut t (List.mem_cons_of_mem _ ht)) taken.path
  -- the literals stand behind the path, the operator and their colons
  have hmore : taken.more ⊆ ts := fun t ht =>
    hsub (List.mem_cons_of_mem _ (List.mem_cons_of_mem _ (List.mem_cons_of_mem _ ht)))
  obtain ⟨hliterals, hrest⟩ :=
    formed_of_readValues (hts.mono fun t ht => List.mem_cons_of_mem w (hmore ht)) taken.values
  refine ⟨⟨⟨w.text, others, ?_, fun v hv => ?_, hand, hor⟩, hliterals⟩, List.Subset.trans hrest hmore⟩
  · rw [taken.path_eq, hsegments, List.map_cons]
  · rcases List.mem_cons.mp hv with rfl | hv
    · exact hfirst
    · exact hothers v hv

/-! ## Groups -/

/-- An expression as the reader makes it. -/
inductive FilterExpr.Formed (q : Value → Prop) : FilterExpr → Prop
  | criterion {c : RawCriterion} (h : c.Formed q) : Formed q (.criterion c)
  | and {terms : List FilterExpr} (some_term : terms ≠ []) (h : ∀ e ∈ terms, Formed q e) :
      Formed q (.and terms)
  | or {branches : List FilterExpr} (some_branch : branches ≠ []) (h : ∀ e ∈ branches, Formed q e) :
      Formed q (.or branches)

/-- A group of expressions that are formed. -/
structure Group.Formed (q : Value → Prop) (g : Group) : Prop where
  branches : ∀ e ∈ g.branches, e.Formed q
  terms : ∀ e ∈ g.terms, e.Formed q

theorem formed_of_joined? {wrap : List FilterExpr → FilterExpr} {terms : List FilterExpr}
    {e : FilterExpr} (hwrap : terms ≠ [] → (∀ e ∈ terms, e.Formed q) → (wrap terms).Formed q)
    (hterms : ∀ e ∈ terms, e.Formed q) (h : e ∈ joined? wrap terms) : e.Formed q := by
  unfold joined? at h
  split at h
  case h_1 => cases h
  case h_2 only =>
    obtain rfl := Option.some.inj h
    exact hterms _ (List.mem_singleton_self _)
  case h_3 hnil _ =>
    obtain rfl := Option.some.inj h
    exact hwrap (fun hn => hnil hn) hterms

namespace Group.Formed

variable {g : Group}

theorem empty : Group.empty.Formed q := ⟨fun e he => (by cases he), fun e he => (by cases he)⟩

theorem separate (h : g.Formed q) : g.separate.Formed q := ⟨h.branches, h.terms⟩

theorem addTerm (h : g.Formed q) {term : Option FilterExpr} (hterm : ∀ e ∈ term, e.Formed q) :
    (g.addTerm term).Formed q := by
  refine ⟨h.branches, fun e he => ?_⟩
  rcases List.mem_append.mp he with he | he
  · exact h.terms e he
  · exact hterm e (Option.mem_toList.mp he)

theorem endBranch (h : g.Formed q) : g.endBranch.Formed q := by
  refine ⟨fun e he => ?_, fun e he => (by cases he)⟩
  rcases List.mem_append.mp he with he | he
  · exact h.branches e he
  · exact formed_of_joined? .and h.terms (Option.mem_toList.mp he)

theorem result (h : g.Formed q) : ∀ e ∈ g.result, e.Formed q :=
  fun _ he => formed_of_joined? .or h.endBranch.branches he

end Group.Formed

/-- **What is read as a filter is formed as one.** By induction on the steps of the reader; every
group that is open stays formed. -/
theorem formed_of_readGroups {size : Nat} {outer : List Group} {group : Group} {ts : List Token}
    (hcut : ∀ t ∈ ts, t.Cut) (hts : YieldOnly q ts) (houter : ∀ g ∈ outer, g.Formed q)
    (hgroup : group.Formed q) {e : FilterExpr}
    (h : readGroups size outer group ts = .ok (some e)) : e.Formed q := by
  fun_induction readGroups size outer group ts generalizing e with
  | case1 group =>
      exact hgroup.result e (Except.ok.inj h)
  | case2 => cases h
  | case3 outer group t rest hand ih =>
      exact ih (fun u hu => hcut u (List.mem_cons_of_mem _ hu)) (hts.mono (List.subset_cons_self _ _))
        houter hgroup.separate h
  | case4 outer group t rest hand hor ih =>
      exact ih (fun u hu => hcut u (List.mem_cons_of_mem _ hu)) (hts.mono (List.subset_cons_self _ _))
        houter hgroup.endBranch h
  | case5 outer group t rest hand hor hopen hseparated ih =>
      refine ih (fun u hu => hcut u (List.mem_cons_of_mem _ hu)) (hts.mono (List.subset_cons_self _ _))
        (fun g hg => ?_) .empty h
      rcases List.mem_cons.mp hg with rfl | hg
      · exact hgroup
      · exact houter g hg
  | case6 => cases h
  | case7 => simp_all
  -- a criterion becomes a term of the open group
  | case8 outer group t rest hand hor hopen hword hseparated c rest' hread hlength ih =>
      rw [Bool.or_eq_true, not_or, Bool.not_eq_true, Bool.not_eq_true] at hand
      rw [Bool.not_eq_true] at hor
      obtain ⟨hc, hsub⟩ := formed_of_readCriterion hcut hts hword hand.2 hor hread
      have hsub' : rest' ⊆ t :: rest := List.Subset.trans hsub (List.subset_cons_self _ _)
      refine ih (fun u hu => hcut u (hsub' hu)) (hts.mono hsub') houter (hgroup.addTerm ?_) h
      intro e he
      rw [← Option.some.inj he]
      exact .criterion hc
  | case9 => cases h
  | case10 => cases h
  -- the group that is closed becomes a term of the one around it
  | case11 group t rest hand hor hopen hword head tail hclose ih =>
      refine ih (fun u hu => hcut u (List.mem_cons_of_mem _ hu)) (hts.mono (List.subset_cons_self _ _))
        (fun g hg => houter g (List.mem_cons_of_mem _ hg)) ?_ h
      exact (houter head List.mem_cons_self).addTerm hgroup.result
  | case12 => cases h

/-- **The expression of a text is formed**, of values of any sort its tokens are of. -/
theorem formed_of_readFilter {s : String} {ts : List Token} (hcut : tokens s = .ok ts)
    (hts : YieldOnly q ts) {e : FilterExpr} (h : readFilter s = .ok e) : e.Formed q := by
  unfold readFilter at h
  rw [hcut] at h
  dsimp only at h
  split at h
  · cases h
  case h_2 e' hread =>
    obtain rfl := Except.ok.inj h
    exact formed_of_readGroups (cut_of_tokensFrom hcut) hts (fun g hg => (by cases hg)) .empty hread
  case h_3 => cases h

end EntityStore.QueryText
