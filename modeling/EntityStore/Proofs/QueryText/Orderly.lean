import EntityStore.Proofs.QueryText.Formed
import EntityStore.QueryText.Meaning

/-!
# What follows a token

The reader asks for certain tokens after others: a number after a hyphen that stands alone, a word
after a dot, and a dot or a colon after a word that is none of the five it reserves. Whatever text
is read has its tokens in this order, so a text in which they are not is not read.
-/

namespace EntityStore.QueryText

open Text

/-- A word with a meaning of its own. -/
def Token.isReserved (t : Token) : Bool :=
  t.isKeyword "and" || t.isKeyword "or" || startsLiteral t

/-- What may come next after the token. -/
structure Token.Leads (t : Token) (next : Option TokenKind) : Prop where
  minus : t.kind = .minus → next = some .number
  dot : t.kind = .dot → next = some .word
  word : t.kind = .word → t.isReserved = true ∨ next = some .dot ∨ next = some .colon

/-- Every token is followed by one that may come next. -/
def Orderly : List Token → Prop
  | [] => True
  | t :: ts => t.Leads (ts.head?.map Token.kind) ∧ Orderly ts

/-- What follows is in order if the whole is. -/
theorem Orderly.right {ts us : List Token} (h : Orderly (ts ++ us)) : Orderly us := by
  induction ts with
  | nil => exact h
  | cons t ts ih => exact ih h.2

theorem leads_of_kind {t : Token} (h : t.kind ≠ .minus ∧ t.kind ≠ .dot ∧ t.kind ≠ .word)
    (next : Option TokenKind) : t.Leads next :=
  ⟨fun hk => absurd hk h.1, fun hk => absurd hk h.2.1, fun hk => absurd hk h.2.2⟩

theorem leads_of_isReserved {t : Token} (hword : t.kind = .word) (h : t.isReserved = true)
    (next : Option TokenKind) : t.Leads next := by
  refine ⟨fun hk => ?_, fun hk => ?_, fun _ => .inl h⟩
  · rw [hword] at hk
    cases hk
  · rw [hword] at hk
    cases hk

/-! ## Literals -/

/-- A token that begins a literal may be followed by anything. -/
theorem leads_of_startsLiteral {t : Token} (h : startsLiteral t = true) (next : Option TokenKind) :
    t.Leads next := by
  by_cases hword : t.kind = .word
  · refine leads_of_isReserved hword ?_ next
    rw [Token.isReserved, h, Bool.or_true]
  · refine leads_of_kind ⟨fun hk => ?_, fun hk => ?_, hword⟩ next
    · rw [startsLiteral, hk] at h
      cases h
    · rw [startsLiteral, hk] at h
      cases h

/-- What belongs to a literal is in order if what follows it is. -/
theorem orderly_of_readLiteral {t : Token} {rest : List Token} {l : Literal} {n : Nat}
    (h : readLiteral t rest = .ok (l, n)) (hrest : Orderly (rest.drop n)) : Orderly rest := by
  have hnumber : ∀ {u : Token}, u.kind = .number → ∀ next, u.Leads next := by
    intro u hu
    refine leads_of_kind ?_
    rw [hu]
    decide
  cases takesLiteral_of_readLiteral h with
  | value => exact hrest
  | range _ _ hhigh =>
      cases hhigh with
      | glued kind => exact ⟨hnumber kind _, hrest⟩
      | @apart u v rest position minus kind =>
          -- the one hyphen that stands alone has its number behind it
          refine ⟨⟨fun _ => ?_, fun hk => ?_, fun hk => ?_⟩, hnumber kind _, hrest⟩
          · rw [List.head?_cons, Option.map_some, kind]
          · rw [minus] at hk
            cases hk
          · rw [minus] at hk
            cases hk

theorem orderly_of_readValues {expecting : Bool} {ts rest : List Token} {ls : List Literal}
    (h : readValues expecting ts = .ok (ls, rest)) (hrest : Orderly rest) : Orderly ts := by
  fun_induction readValues expecting ts generalizing ls rest with
  | case1 => trivial
  | case2 expecting t ts hcomma ih =>
      refine ⟨leads_of_kind ?_ _, ih h hrest⟩
      rw [hcomma]
      decide
  | case3 => cases h
  | case4 => cases h
  | case5 expecting t ts hcomma hstarts l n hread ls' rest' hvalues ih =>
      obtain ⟨-, rfl⟩ := Prod.mk.inj (Except.ok.inj h)
      rw [Bool.and_eq_true] at hstarts
      exact ⟨leads_of_startsLiteral hstarts.2 _, orderly_of_readLiteral hread (ih hvalues hrest)⟩
  | case6 =>
      obtain ⟨-, rfl⟩ := Prod.mk.inj (Except.ok.inj h)
      exact hrest

/-! ## Criteria and groups -/

/-- A word with a dot or a colon after it. -/
theorem leads_of_word {w t : Token} (hword : w.kind = .word) (h : t.kind = .dot ∨ t.kind = .colon) :
    w.Leads (some t.kind) := by
  refine ⟨fun hk => ?_, fun hk => ?_, fun _ => .inr ?_⟩
  · rw [hword] at hk
    cases hk
  · rw [hword] at hk
    cases hk
  · rcases h with h | h
    · exact .inl (congrArg some h)
    · exact .inr (congrArg some h)

/-- A path is in order up to the colon after it. -/
theorem orderly_of_readPathRest {size : Nat} {ts rest : List Token} {segments : List String}
    {colon : Token} (h : readPathRest size ts = .ok (segments, colon :: rest))
    (hcolon : colon.kind = .colon) (hrest : Orderly (colon :: rest)) :
    ∀ w : Token, w.kind = .word → Orderly (w :: ts) := by
  have hend : ∀ {t : Token} {ts : List Token}, t :: ts = colon :: rest →
      ∀ w : Token, w.kind = .word → Orderly (w :: t :: ts) := by
    intro t ts heq w hw
    rw [heq]
    exact ⟨leads_of_word hw (.inr hcolon), hrest⟩
  fun_induction readPathRest size ts generalizing segments with
  | case1 => cases h
  | case2 t hdot w' ts hword segments' rest' hpath ih =>
      obtain ⟨-, rfl⟩ := Prod.mk.inj (Except.ok.inj h)
      intro w hw
      refine ⟨leads_of_word hw (.inl hdot), ⟨fun hk => ?_, fun _ => congrArg some hword, fun hk => ?_⟩,
        ih hpath w' hword⟩
      · rw [hdot] at hk
        cases hk
      · rw [hdot] at hk
        cases hk
  | case3 => cases h
  | case4 => cases h
  | case5 =>
      exact hend (Prod.mk.inj (Except.ok.inj h)).2
  | case6 => cases (Prod.mk.inj (Except.ok.inj h)).2

theorem orderly_of_readCriterion {size : Nat} {w : Token} {ts rest : List Token} {c : RawCriterion}
    (h : readCriterion size w ts = .ok (c, rest)) (hword : w.kind = .word) (hrest : Orderly rest) :
    Orderly (w :: ts) := by
  have hmark : ∀ {t : Token}, t.kind = .colon → ∀ next, t.Leads next := by
    intro t hk
    refine leads_of_kind ?_
    rw [hk]
    decide
  obtain ⟨taken⟩ := takesCriterion_of_readCriterion h
  obtain ⟨hcolon, hoperator, hcolon'⟩ := taken.kinds
  exact orderly_of_readPathRest taken.path hcolon
    ⟨hmark hcolon _, leads_of_word hoperator (.inr hcolon'), hmark hcolon' _,
      orderly_of_readValues taken.values hrest⟩ w hword

/-- **The tokens of a text that is read are in order.** By induction on the steps of the reader. -/
theorem orderly_of_readGroups {size : Nat} {outer : List Group} {group : Group} {ts : List Token}
    {e : Option FilterExpr} (h : readGroups size outer group ts = .ok e) : Orderly ts := by
  fun_induction readGroups size outer group ts generalizing e with
  | case1 => trivial
  | case2 => cases h
  | case3 outer group t rest hand ih =>
      refine ⟨?_, ih h⟩
      rcases Bool.or_eq_true_iff.mp hand with htilde | hand
      · refine leads_of_kind ?_ _
        rw [of_decide_eq_true htilde]
        decide
      · refine leads_of_isReserved (kind_of_isKeyword hand) ?_ _
        rw [Token.isReserved, hand, Bool.true_or, Bool.true_or]
  | case4 outer group t rest hand hor ih =>
      refine ⟨leads_of_isReserved (kind_of_isKeyword hor) ?_ _, ih h⟩
      rw [Token.isReserved, hor, Bool.or_true, Bool.true_or]
  | case5 outer group t rest hand hor hopen hseparated ih =>
      refine ⟨leads_of_kind ?_ _, ih h⟩
      rw [hopen]
      decide
  | case6 => cases h
  | case7 => simp_all
  -- a criterion; what is left after it is in order
  | case8 outer group t rest hand hor hopen hword hseparated c rest' hread hlength ih =>
      exact orderly_of_readCriterion hread hword (ih h)
  | case9 => cases h
  | case10 => cases h
  | case11 group t rest hand hor hopen hword head tail hclose ih =>
      refine ⟨leads_of_kind ?_ _, ih h⟩
      rw [hclose]
      decide
  | case12 => cases h

/-- A text that is understood is cut and read. -/
theorem exists_read_of_parseFilter {s : String} {spec : FilterSpec} (h : parseFilter s = .ok spec) :
    ∃ ts e, tokens s = .ok ts ∧ readGroups (byteLength s.toList) [] .empty ts = .ok e := by
  unfold parseFilter readFilter at h
  cases hcut : tokens s with
  | error e =>
      rw [hcut] at h
      cases h
  | ok ts =>
      rw [hcut] at h
      dsimp only at h
      cases hread : readGroups (byteLength s.toList) [] .empty ts with
      | error e =>
          rw [hread] at h
          cases h
      | ok e => exact ⟨ts, e, rfl, hread⟩

/-- **The tokens of a text that is understood are in order.** -/
theorem orderly_of_parseFilter {s : String} {spec : FilterSpec} (h : parseFilter s = .ok spec) :
    ∃ ts, tokens s = .ok ts ∧ Orderly ts := by
  obtain ⟨ts, e, hcut, hread⟩ := exists_read_of_parseFilter h
  exact ⟨ts, hcut, orderly_of_readGroups hread⟩

end EntityStore.QueryText
