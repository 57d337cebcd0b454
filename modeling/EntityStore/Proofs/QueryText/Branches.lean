import EntityStore.Proofs.QueryText.Reading

/-!
# Putting pieces of text together

A piece of query text stands for branches, each a list of specifications. Pieces are put together
with `~`, which joins the last branch of one with the first of the next, with ` or `, which sets
their branches side by side, and with parentheses, which make one specification of a group.
`Reads` says that a piece is read as its branches wherever a piece may stand; how an open group
grows on the way is all that the reader does with them.
-/

namespace EntityStore.QueryText

open Text

/-! ## Groups -/

namespace Group

/-- Terms that stand next to one another. -/
def addTerms (g : Group) (terms : List FilterExpr) : Group :=
  { g with terms := g.terms ++ terms, separated := false }

/-- Branches, all but the last one ended. -/
def addBranches (g : Group) : List (List FilterExpr) → Group
  | [] => g
  | [terms] => g.addTerms terms
  | terms :: rest => addBranches (g.addTerms terms).endBranch rest

theorem addBranches_cons {g : Group} {terms : List FilterExpr} {rest : List (List FilterExpr)}
    (h : rest ≠ []) : g.addBranches (terms :: rest) = (g.addTerms terms).endBranch.addBranches rest := by
  cases rest with
  | nil => exact absurd rfl h
  | cons next rest => rfl

theorem addBranches_append {g : Group} {a b : List (List FilterExpr)} (ha : a ≠ []) (hb : b ≠ []) :
    g.addBranches (a ++ b) = (g.addBranches a).endBranch.addBranches b := by
  induction a generalizing g with
  | nil => exact absurd rfl ha
  | cons terms rest ih =>
      cases rest with
      | nil => rw [List.singleton_append, addBranches_cons hb]; rfl
      | cons next rest =>
          rw [List.cons_append, addBranches_cons (by simp), addBranches_cons (by simp)]
          exact ih (by simp)

/-- What the branches of a group amount to when it ends. -/
theorem branches_endBranch_addBranches {g : Group} {es : List (List FilterExpr)} (hes : es ≠ [])
    (hg : g.terms = []) :
    (g.addBranches es).endBranch.branches
      = g.branches ++ es.flatMap fun terms => (joined? .and terms).toList := by
  induction es generalizing g with
  | nil => exact absurd rfl hes
  | cons terms rest ih =>
      cases rest with
      | nil => simp [addBranches, addTerms, endBranch, hg]
      | cons next rest =>
          rw [addBranches_cons (by simp), ih (by simp) rfl]
          simp [addTerms, endBranch, hg]

end Group

/-! ## Steps of the reader -/

section Steps

variable {size : Nat} {outer : List Group} {g : Group} {t : Token} {ts : List Token}

theorem isKeyword_of_kind {keyword : String} (ht : t.kind ≠ .word) : t.isKeyword keyword = false := by
  simp [Token.isKeyword, ht]

theorem kind_of_isKeyword {keyword : String} (h : t.isKeyword keyword = true) : t.kind = .word := by
  rw [Token.isKeyword, Bool.and_eq_true] at h
  exact eq_of_beq h.1

/-- A token is one keyword at most. -/
theorem isKeyword_of_ne {keyword other : String} (h : t.isKeyword keyword = true)
    (hne : lowerAscii keyword.toList ≠ lowerAscii other.toList) : t.isKeyword other = false := by
  rw [Token.isKeyword, Bool.and_eq_true, sameWord, beq_iff_eq, beq_iff_eq] at h
  rw [Token.isKeyword, Bool.and_eq_false_iff, sameWord, h.2, beq_eq_false_iff_ne, beq_eq_false_iff_ne]
  exact .inr hne

theorem readGroups_separator (ht : t.kind = .tilde ∨ t.isKeyword "and" = true) :
    readGroups size outer g (t :: ts) = readGroups size outer g.separate ts := by
  rw [readGroups.eq_def]
  simp [ht]

theorem readGroups_or (hor : t.isKeyword "or" = true) :
    readGroups size outer g (t :: ts) = readGroups size outer g.endBranch ts := by
  have hkind := kind_of_isKeyword hor
  have hand : t.isKeyword "and" = false := isKeyword_of_ne hor (by decide)
  rw [readGroups.eq_def]
  simp [hor, hand, hkind]

theorem readGroups_open (ht : t.kind = .openParen) (hg : g.separated = true) :
    readGroups size outer g (t :: ts) = readGroups size (g :: outer) .empty ts := by
  have hword : t.kind ≠ .word := by simp [ht]
  rw [readGroups.eq_def]
  simp [ht, hg, isKeyword_of_kind hword]

theorem readGroups_close (ht : t.kind = .closeParen) {parent : Group} :
    readGroups size (parent :: outer) g (t :: ts)
      = readGroups size outer (parent.addTerm g.result) ts := by
  have hword : t.kind ≠ .word := by simp [ht]
  rw [readGroups.eq_def]
  simp [ht, isKeyword_of_kind hword]

theorem readGroups_criterion (ht : t.kind = .word) (hand : t.isKeyword "and" = false)
    (hor : t.isKeyword "or" = false) (hg : g.separated = true) {c : RawCriterion}
    {rest : List Token} (hread : readCriterion size t ts = .ok (c, rest)) :
    readGroups size outer g (t :: ts)
      = readGroups size outer (g.addTerm (some (.criterion c))) rest := by
  rw [readGroups.eq_def]
  simp only [ht, hand, hor, hg, reduceCtorEq, decide_false, Bool.or_false, Bool.false_eq_true,
    if_false, if_true]
  split
  · rename_i h
    rw [hread] at h
    cases h
  · rename_i h
    rw [hread] at h
    obtain ⟨rfl, rfl⟩ := Prod.mk.inj (Except.ok.inj h)
    rfl

end Steps

/-! ## What branches mean -/

/-- Specifications joined by `wrap`, unless there is only one. -/
def joinSpecs (wrap : List FilterSpec → FilterSpec) : List FilterSpec → FilterSpec
  | [only] => only
  | specs => wrap specs

/-- The specification of a group with these branches. -/
def groupSpec (branches : List (List FilterSpec)) : FilterSpec :=
  joinSpecs .any (branches.map (joinSpecs .all))

/-- Expressions that mean these specifications, one by one. -/
def Mean (es : List FilterExpr) (specs : List FilterSpec) : Prop := FilterExpr.toSpecs es = .ok specs

theorem mean_nil : Mean [] [] := rfl

theorem mean_cons {e : FilterExpr} {es : List FilterExpr} {spec : FilterSpec}
    {specs : List FilterSpec} (he : e.toSpec = .ok spec) (hes : Mean es specs) :
    Mean (e :: es) (spec :: specs) := by
  rw [Mean, FilterExpr.toSpecs, he]
  dsimp only
  rw [hes]

theorem mean_inv {e : FilterExpr} {es : List FilterExpr} {specs : List FilterSpec}
    (h : Mean (e :: es) specs) :
    ∃ spec rest, specs = spec :: rest ∧ e.toSpec = .ok spec ∧ Mean es rest := by
  rw [Mean, FilterExpr.toSpecs] at h
  split at h
  · cases h
  case h_2 spec hspec =>
    split at h
    · cases h
    case h_2 rest hrest =>
      obtain rfl := Except.ok.inj h
      exact ⟨spec, rest, rfl, hspec, hrest⟩

theorem mean_append {a b : List FilterExpr} {sa sb : List FilterSpec} (ha : Mean a sa)
    (hb : Mean b sb) : Mean (a ++ b) (sa ++ sb) := by
  induction a generalizing sa with
  | nil =>
      obtain rfl : [] = sa := Except.ok.inj ha
      exact hb
  | cons e a ih =>
      obtain ⟨spec, rest, rfl, he, hrest⟩ := mean_inv ha
      exact mean_cons he (ih hrest)

theorem mean_ne_nil {es : List FilterExpr} {specs : List FilterSpec} (h : Mean es specs)
    (hspecs : specs ≠ []) : es ≠ [] := by
  rintro rfl
  exact hspecs (Except.ok.inj h).symm

/-- Joined expressions mean joined specifications. -/
theorem exists_joined {wrap : List FilterExpr → FilterExpr} {wrapSpec : List FilterSpec → FilterSpec}
    (hwrap : ∀ es specs, Mean es specs → (wrap es).toSpec = .ok (wrapSpec specs))
    {es : List FilterExpr} {specs : List FilterSpec} (h : Mean es specs) (hspecs : specs ≠ []) :
    ∃ e, joined? wrap es = some e ∧ e.toSpec = .ok (joinSpecs wrapSpec specs) := by
  obtain ⟨e, rest, rfl⟩ := List.exists_cons_of_ne_nil (mean_ne_nil h hspecs)
  obtain ⟨spec, specs', rfl, he, hrest⟩ := mean_inv h
  cases rest with
  | nil =>
      obtain rfl : [] = specs' := Except.ok.inj hrest
      exact ⟨e, rfl, he⟩
  | cons e' rest =>
      obtain ⟨spec', specs'', rfl, -, -⟩ := mean_inv hrest
      exact ⟨wrap (e :: e' :: rest), rfl, hwrap _ _ h⟩

theorem toSpec_and_iff {es : List FilterExpr} {spec : FilterSpec} :
    (FilterExpr.and es).toSpec = .ok spec ↔ ∃ specs, Mean es specs ∧ FilterSpec.all specs = spec := by
  rw [FilterExpr.toSpec]
  unfold Mean
  cases FilterExpr.toSpecs es <;> simp

theorem toSpec_or_iff {es : List FilterExpr} {spec : FilterSpec} :
    (FilterExpr.or es).toSpec = .ok spec ↔ ∃ specs, Mean es specs ∧ FilterSpec.any specs = spec := by
  rw [FilterExpr.toSpec]
  unfold Mean
  cases FilterExpr.toSpecs es <;> simp

theorem toSpec_and {es : List FilterExpr} {specs : List FilterSpec} (h : Mean es specs) :
    (FilterExpr.and es).toSpec = .ok (.all specs) := toSpec_and_iff.mpr ⟨specs, h, rfl⟩

theorem toSpec_or {es : List FilterExpr} {specs : List FilterSpec} (h : Mean es specs) :
    (FilterExpr.or es).toSpec = .ok (.any specs) := toSpec_or_iff.mpr ⟨specs, h, rfl⟩

/-- The finished branches of a group mean what its branches mean. -/
theorem mean_branches {es : List (List FilterExpr)} {bs : List (List FilterSpec)}
    (h : List.Forall₂ Mean es bs) (hbs : ∀ b ∈ bs, b ≠ []) :
    Mean (es.flatMap fun terms => (joined? .and terms).toList) (bs.map (joinSpecs .all)) := by
  induction h with
  | nil => exact mean_nil
  | @cons terms b es bs hhead htail ih =>
      obtain ⟨e, he, hspec⟩ := exists_joined (fun _ _ => toSpec_and) hhead (hbs b List.mem_cons_self)
      rw [List.flatMap_cons, he, List.map_cons]
      exact mean_cons hspec (ih fun b hb => hbs b (List.mem_cons_of_mem _ hb))

/-- **A group amounts to one expression, which means what its branches mean.** -/
theorem Group.exists_result {es : List (List FilterExpr)} {bs : List (List FilterSpec)}
    (h : List.Forall₂ Mean es bs) (hne : bs ≠ []) (hbs : ∀ b ∈ bs, b ≠ []) :
    ∃ e, (Group.empty.addBranches es).result = some e ∧ e.toSpec = .ok (groupSpec bs) := by
  have hes : es ≠ [] := by
    rintro rfl
    cases h
    exact hne rfl
  rw [Group.result, Group.branches_endBranch_addBranches hes rfl]
  exact exists_joined (fun _ _ => toSpec_or) (mean_branches h hbs) (by simpa using hne)

/-! ## Pieces -/

/-- The text is read as branches of specifications wherever a piece of a filter may stand. -/
structure Reads (cs : List Char) (bs : List (List FilterSpec)) : Prop where
  some_branch : bs ≠ []
  some_term : ∀ b ∈ bs, b ≠ []
  read : ∀ position rest ts, Ends rest → tokensFrom (position + byteLength cs) rest = .ok ts →
    ∃ toks es, tokensFrom position (cs ++ rest) = .ok (toks ++ ts) ∧ List.Forall₂ Mean es bs ∧
      ∀ size outer g, g.separated = true →
        readGroups size outer g (toks ++ ts) = readGroups size outer (g.addBranches es) ts

theorem forall₂_ne_nil {es : List (List FilterExpr)} {bs : List (List FilterSpec)}
    (h : List.Forall₂ Mean es bs) (hbs : bs ≠ []) : es ≠ [] := by
  rintro rfl
  cases h
  exact hbs rfl

/-- **Two lists of terms with `~` between them.** -/
theorem Reads.tilde {a b : List Char} {sa sb : List FilterSpec} (ha : Reads a [sa])
    (hb : Reads b [sb]) : Reads (a ++ '~' :: b) [sa ++ sb] where
  some_branch := by simp
  some_term := by
    have hne := ha.some_term sa List.mem_cons_self
    simp [hne]
  read := by
    intro position rest ts hrest hts
    have hsize : ('~' : Char).utf8Size = 1 := rfl
    simp only [byteLength_append, byteLength_cons, hsize, ← Nat.add_assoc] at hts
    obtain ⟨tb, eb, hcutb, hmeanb, hreadb⟩ := hb.read _ rest ts hrest hts
    have htilde : tokensFrom (position + byteLength a) ('~' :: (b ++ rest))
        = .ok (⟨.tilde, ['~'], position + byteLength a⟩ :: (tb ++ ts)) :=
      (isToken_mark rfl _).tokensFrom_ok hcutb
    obtain ⟨ta, ea, hcuta, hmeana, hreada⟩ := ha.read position _ _ (.tilde _) htilde
    cases hmeana with
    | @cons ea₁ _ ea' _ hea hea' =>
    cases hea'
    cases hmeanb with
    | @cons eb₁ _ eb' _ heb heb' =>
    cases heb'
    refine ⟨ta ++ ⟨.tilde, ['~'], position + byteLength a⟩ :: tb, [ea₁ ++ eb₁], ?_,
      .cons (mean_append hea heb) .nil, fun size outer g hg => ?_⟩
    · simpa only [List.append_assoc, List.cons_append] using hcuta
    · rw [List.append_assoc, List.cons_append, hreada size outer g hg, readGroups_separator (.inl rfl),
        hreadb size outer _ rfl]
      simp only [Group.addBranches, Group.addTerms, Group.separate, List.append_assoc]

/-- **Branches side by side.** -/
theorem Reads.or {a b : List Char} {ba bb : List (List FilterSpec)} (ha : Reads a ba)
    (hb : Reads b bb) : Reads (a ++ ' ' :: 'o' :: 'r' :: ' ' :: b) (ba ++ bb) where
  some_branch := by simp [ha.some_branch]
  some_term := by
    intro s hs
    rcases List.mem_append.mp hs with hs | hs
    · exact ha.some_term s hs
    · exact hb.some_term s hs
  read := by
    intro position rest ts hrest hts
    have h1 : (' ' : Char).utf8Size = 1 := rfl
    have h2 : ('o' : Char).utf8Size = 1 := rfl
    have h3 : ('r' : Char).utf8Size = 1 := rfl
    simp only [byteLength_append, byteLength_cons, h1, h2, h3, ← Nat.add_assoc] at hts
    obtain ⟨tb, eb, hcutb, hmeanb, hreadb⟩ := hb.read _ rest ts hrest hts
    have hor : tokensFrom (position + byteLength a) (' ' :: 'o' :: 'r' :: ' ' :: (b ++ rest))
        = .ok (⟨.word, ['o', 'r'], position + byteLength a + 1⟩ :: (tb ++ ts)) := tokensFrom_or hcutb
    obtain ⟨ta, ea, hcuta, hmeana, hreada⟩ := ha.read position _ _ (.or _) hor
    refine ⟨ta ++ ⟨.word, ['o', 'r'], position + byteLength a + 1⟩ :: tb, ea ++ eb, ?_,
      List.rel_append hmeana hmeanb, fun size outer g hg => ?_⟩
    · simpa only [List.append_assoc, List.cons_append] using hcuta
    · rw [List.append_assoc, List.cons_append, hreada size outer g hg, readGroups_or rfl,
        hreadb size outer _ rfl, Group.addBranches_append (forall₂_ne_nil hmeana ha.some_branch)
        (forall₂_ne_nil hmeanb hb.some_branch)]

/-- **A group in parentheses is one term.** -/
theorem Reads.parens {a : List Char} {bs : List (List FilterSpec)} (ha : Reads a bs) :
    Reads ('(' :: (a ++ [')'])) [[groupSpec bs]] where
  some_branch := by simp
  some_term := by simp
  read := by
    intro position rest ts hrest hts
    have h1 : ('(' : Char).utf8Size = 1 := rfl
    have h2 : (')' : Char).utf8Size = 1 := rfl
    simp only [byteLength_append, byteLength_cons, byteLength_nil, h1, h2, ← Nat.add_assoc] at hts
    have hclose : tokensFrom (position + 1 + byteLength a) (')' :: rest)
        = .ok (⟨.closeParen, [')'], position + 1 + byteLength a⟩ :: ts) :=
      (isToken_mark rfl _).tokensFrom_ok hts
    obtain ⟨ta, ea, hcuta, hmeana, hreada⟩ := ha.read (position + 1) _ _ (.close _) hclose
    have hopen : tokensFrom position ('(' :: (a ++ ')' :: rest))
        = .ok (⟨.openParen, ['('], position⟩ ::
            (ta ++ ⟨.closeParen, [')'], position + 1 + byteLength a⟩ :: ts)) :=
      (isToken_mark rfl _).tokensFrom_ok hcuta
    obtain ⟨e, he, hspec⟩ := Group.exists_result hmeana ha.some_branch ha.some_term
    refine ⟨⟨.openParen, ['('], position⟩ ::
      (ta ++ [⟨.closeParen, [')'], position + 1 + byteLength a⟩]), [[e]], ?_,
      .cons (mean_cons hspec mean_nil) .nil, fun size outer g hg => ?_⟩
    · simpa only [List.append_assoc, List.cons_append, List.nil_append] using hopen
    · rw [List.cons_append, List.append_assoc, readGroups_open rfl hg, List.singleton_append,
        hreada size (g :: outer) .empty rfl, readGroups_close rfl, he]
      rfl

/-! ## Whole texts -/

/-- **A text that is read as branches is the text of their group.** -/
theorem Reads.parseFilter_eq {s : String} {bs : List (List FilterSpec)} (h : Reads s.toList bs) :
    parseFilter s = .ok (groupSpec bs) := by
  obtain ⟨toks, es, hcut, hmean, hread⟩ := h.read 0 [] [] .stop (by rw [tokensFrom])
  rw [List.append_nil, List.append_nil] at hcut
  have hread' := hread (byteLength s.toList) [] .empty rfl
  rw [List.append_nil] at hread'
  obtain ⟨e, he, hspec⟩ := Group.exists_result hmean h.some_branch h.some_term
  rw [parseFilter, readFilter, tokens, hcut]
  dsimp only
  rw [hread', readGroups, he]
  exact hspec

end EntityStore.QueryText
