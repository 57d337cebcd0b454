import EntityStore.Proofs.QueryText.Branches
import EntityStore.Proofs.QueryText.Paths

/-!
# Clauses

A written criterion is a clause: one path, one operator, negated or not, and literals. It stands
for one specification, a disjunction of criteria with one literal each, or, for a membership
operator, one criterion with all of them. Of literals that are the same value the reader keeps
the first.
-/

namespace EntityStore.QueryText

open Text

/-! ## Literals that are kept -/

/-- What is kept begins with what was kept before. -/
theorem prefix_distinctLiterals (kept ls : List Literal) : kept <+: distinctLiterals kept ls := by
  induction ls generalizing kept with
  | nil => exact List.prefix_rfl
  | cons l ls ih =>
      rw [distinctLiterals]
      split
      · exact ih kept
      · exact (List.prefix_append kept [l]).trans (ih _)

/-- Literals are dropped and not moved. -/
theorem sublist_distinctLiterals (kept ls : List Literal) :
    List.Sublist (distinctLiterals kept ls) (kept ++ ls) := by
  induction ls generalizing kept with
  | nil =>
      rw [distinctLiterals, List.append_nil]
  | cons l ls ih =>
      rw [distinctLiterals]
      split
      · exact (ih kept).trans ((List.sublist_cons_self l ls).append_left kept)
      · have hrest := ih (kept ++ [l])
        rw [List.append_assoc, List.singleton_append] at hrest
        exact hrest

theorem mem_of_mem_distinctLiterals {kept ls : List Literal} {l : Literal}
    (h : l ∈ distinctLiterals kept ls) : l ∈ kept ∨ l ∈ ls :=
  List.mem_append.mp ((sublist_distinctLiterals kept ls).subset h)

/-- A literal that counts is kept, or one of the same value is. -/
theorem exists_eq_or_same_of_mem {kept ls : List Literal} {l : Literal} (hl : l ∈ ls)
    (hcounts : isEmptyString l = false) :
    ∃ k ∈ distinctLiterals kept ls, k = l ∨ k.same l = true := by
  induction ls generalizing kept with
  | nil => cases hl
  | cons l' ls ih =>
      rw [distinctLiterals]
      rcases List.mem_cons.mp hl with rfl | hl
      · split
        case isTrue hsame =>
          rw [hcounts, Bool.false_or] at hsame
          obtain ⟨k, hk, hsame⟩ := List.any_eq_true.mp hsame
          exact ⟨k, (prefix_distinctLiterals kept ls).subset hk, .inr hsame⟩
        case isFalse =>
          refine ⟨l, (prefix_distinctLiterals (kept ++ [l]) ls).subset ?_, .inl rfl⟩
          exact List.mem_append_right _ (List.mem_singleton_self l)
      · split
        · exact ih hl
        · exact ih hl

theorem exists_same_of_mem {kept ls : List Literal} {l : Literal} (hl : l ∈ ls)
    (hself : l.same l = true) (hcounts : isEmptyString l = false) :
    ∃ k ∈ distinctLiterals kept ls, k.same l = true := by
  obtain ⟨k, hk, rfl | hsame⟩ := @exists_eq_or_same_of_mem kept _ _ hl hcounts
  · exact ⟨k, hk, hself⟩
  · exact ⟨k, hk, hsame⟩

/-- No literal is kept that does not count. -/
theorem isEmptyString_of_mem_distinctLiterals {kept ls : List Literal}
    (hkept : ∀ k ∈ kept, isEmptyString k = false) :
    ∀ l ∈ distinctLiterals kept ls, isEmptyString l = false := by
  induction ls generalizing kept with
  | nil => exact hkept
  | cons l' ls ih =>
      rw [distinctLiterals]
      split
      case isTrue => exact ih hkept
      case isFalse hcond =>
        rw [Bool.or_eq_true, not_or, Bool.not_eq_true] at hcond
        refine ih fun k hk => ?_
        rcases List.mem_append.mp hk with hk | hk
        · exact hkept k hk
        · rw [List.mem_singleton.mp hk]
          exact hcond.1

/-- Literals of different values are all kept. -/
theorem distinctLiterals_of_pairwise {kept ls : List Literal}
    (hempty : ∀ l ∈ ls, isEmptyString l = false)
    (hdistinct : (kept ++ ls).Pairwise fun k l => k.same l = false) :
    distinctLiterals kept ls = kept ++ ls := by
  induction ls generalizing kept with
  | nil => rw [distinctLiterals, List.append_nil]
  | cons l ls ih =>
      -- nothing that is kept is the same as the next literal, so that is kept as well
      have hnone : (kept.any fun k => k.same l) = false := by
        rw [List.any_eq_false]
        intro k hk
        have := (List.pairwise_append.mp hdistinct).2.2 k hk l List.mem_cons_self
        simp [this]
      rw [distinctLiterals, hempty l List.mem_cons_self, hnone, Bool.false_or, if_neg (by simp),
        ih (fun l hl => hempty l (List.mem_cons_of_mem _ hl)), List.append_assoc,
        List.singleton_append]
      rw [List.append_assoc, List.singleton_append]
      exact hdistinct

/-- What is kept is of different values. -/
theorem pairwise_distinctLiterals {kept ls : List Literal}
    (h : kept.Pairwise fun k l => k.same l = false) :
    (distinctLiterals kept ls).Pairwise fun k l => k.same l = false := by
  induction ls generalizing kept with
  | nil => exact h
  | cons l ls ih =>
      rw [distinctLiterals]
      split
      case isTrue => exact ih h
      case isFalse hcond =>
        rw [Bool.or_eq_true, not_or, Bool.not_eq_true, Bool.not_eq_true, List.any_eq_false] at hcond
        refine ih (List.pairwise_append.mpr ⟨h, List.pairwise_singleton _ _, fun k hk k' hk' => ?_⟩)
        rw [List.mem_singleton.mp hk']
        simpa using hcond.2 k hk

theorem distinctLiterals_ne_nil {ls : List Literal} (hne : ls ≠ [])
    (hempty : ∀ l ∈ ls, isEmptyString l = false) : distinctLiterals [] ls ≠ [] := by
  obtain ⟨l, ls, rfl⟩ := List.exists_cons_of_ne_nil hne
  rw [distinctLiterals, hempty l List.mem_cons_self]
  simp only [List.any_nil, Bool.or_false, Bool.false_eq_true, if_false, List.nil_append]
  intro h
  have hmem := (prefix_distinctLiterals [l] ls).subset (List.mem_singleton_self l)
  rw [h] at hmem
  cases hmem

/-! ## Literals and operands -/

namespace Literal

/-- The text of a literal. -/
def text : Literal → String
  | .value v => v.toText
  | .range low high => low.toText ++ "-" ++ high.toText

/-- The operand of a criterion with one literal. -/
def operand : Literal → Operand
  | .value v => .single v
  | .range low high => .range low high

/-- The value of a literal that is none of a range. -/
def value? : Literal → Option Value
  | .value v => some v
  | .range _ _ => none

/-- Whether the literal may stand after an operator of an arity. -/
def fits (arity : Arity) : Literal → Bool
  | .value _ => arity != .pair
  | .range _ _ => arity == .pair

end Literal

/-- The literals an operand is written with. -/
def operandLiterals : Operand → List Literal
  | .single v => [.value v]
  | .range low high => [.range low high]
  | .list vs => vs.map .value

/-! ## Written criteria -/

/-- **The text of a criterion reads back as what its literals make it mean.** -/
theorem reads_written {path : String} {c : WrittenCriterion} {ls : List Literal} {spec : FilterSpec}
    (hpath : IsPathName path) (hc : c.path = writtenPath path) (hoperator : IsWord c.operator.toList)
    (hvalues : List.Forall₂ ReadsLiteral (c.values.map String.toList) ls)
    (hspec : ∀ position, (RawCriterion.mk ((writtenSegments path).map String.ofList) c.operator ls
      position).toSpec = .ok spec) :
    Reads c.text.toList [[spec]] where
  some_branch := by simp
  some_term := by simp
  read := by
    intro position rest ts hrest hts
    obtain ⟨first, others, hsegments, hfirst, hothers, hand, hor⟩ := hpath.exists_words
    have htext : c.text.toList = criterionText (first :: others) c.operator.toList
        ([','].intercalate (c.values.map String.toList)) := by
      simp [WrittenCriterion.text, hc, toList_writtenPath, hsegments, criterionText]
    rw [htext] at hts ⊢
    obtain ⟨toks, hcut, hread⟩ :=
      readCriterion_criterionText hfirst hothers hoperator (readsValues hvalues) hrest hts
    have hspec' := hspec position
    rw [hsegments] at hspec'
    have hand' : Token.isKeyword ⟨.word, first, position⟩ "and" = false := by
      rw [Token.isKeyword, hand, Bool.and_false]
    have hor' : Token.isKeyword ⟨.word, first, position⟩ "or" = false := by
      rw [Token.isKeyword, hor, Bool.and_false]
    refine ⟨⟨.word, first, position⟩ :: toks, [[.criterion ⟨_, _, _, position⟩]], hcut,
      .cons (mean_cons hspec' mean_nil) .nil, fun size outer g hg => ?_⟩
    have hread' := hread size
    rw [String.ofList_toList] at hread'
    exact readGroups_criterion rfl hand' hor' hg hread'

/-! ## Clauses -/

/-- A criterion as it is written: literals of one path and operator. -/
structure Clause where
  path : String
  operator : FilterOperator
  negated : Bool
  literals : List Literal

namespace Clause

def operatorText (c : Clause) : String :=
  if c.negated then "not-" ++ c.operator.name else c.operator.name

/-- How the clause is written. Only literals of their own may be joined by further ones. -/
def written (c : Clause) : WrittenCriterion :=
  ⟨writtenPath c.path, c.operatorText, c.literals.map Literal.text, c.operator.arity != .list⟩

/-- The criterion on an operand, negated if the clause is. -/
def leaf (c : Clause) (operand : Operand) : FilterSpec :=
  if c.negated then .negation (.criterion ⟨c.path, c.operator, operand⟩)
  else .criterion ⟨c.path, c.operator, operand⟩

/-- The criteria of literals. -/
def leaves (c : Clause) (ls : List Literal) : List FilterSpec :=
  if c.operator.arity = .list then [c.leaf (.list (ls.filterMap Literal.value?))]
  else ls.map fun l => c.leaf l.operand

/-- The literals the reader keeps. -/
def kept (c : Clause) : List Literal := distinctLiterals [] c.literals

/-- What is asked of a clause to be read back: a path and literals that are, literals that fit
the operator, at least one of them where one is needed, and a negation that is not taken for
another operator. -/
structure Readable (c : Clause) : Prop where
  path : IsPathName c.path
  literals : ∀ l ∈ c.literals, ReadsLiteral l.text.toList l
  nonempty : ∀ l ∈ c.literals, isEmptyString l = false
  fits : ∀ l ∈ c.literals, l.fits c.operator.arity = true
  some_literal : c.negated = true ∨ c.operator.arity ≠ .list → c.literals ≠ []
  negation : c.negated = true → FilterOperator.ofName? ("not-" ++ c.operator.name) = none

theorem leaf_disjuncts (c : Clause) (operand : Operand) : (c.leaf operand).disjuncts = [c.leaf operand] := by
  rw [leaf]
  split <;> rfl

/-! ### Reading -/

theorem toList_not (s : String) : ("not-" ++ s).toList = "not-".toList ++ s.toList := String.toList_append

theorem stripNot?_not (s : String) : stripNot? ("not-" ++ s) = some s := by
  have hprefix : ("not-".toList).isPrefixOf ("not-" ++ s).toList = true := by
    rw [List.isPrefixOf_iff_prefix, toList_not]
    exact List.prefix_append _ _
  rw [stripNot?, if_pos hprefix, toList_not]
  have hdrop : ("not-".toList ++ s.toList).drop 4 = s.toList := rfl
  rw [hdrop, String.ofList_toList]

/-- The operator of a clause is understood. -/
theorem operatorOf?_operatorText {c : Clause} (h : c.Readable) :
    operatorOf? c.operatorText = some (c.operator, c.negated) := by
  rw [operatorOf?, operatorText]
  cases hneg : c.negated with
  | false => simp [FilterOperator.ofName?_name]
  | true => simp [h.negation hneg, stripNot?_not, FilterOperator.ofName?_name]

theorem isWord_operatorText (c : Clause) : IsWord c.operatorText.toList := by
  rw [operatorText]
  cases c.negated <;> cases c.operator <;> exact isWord_of_all rfl rfl

theorem leaf_eq (c : Clause) (hpath : c.path ≠ "") {operand : Operand}
    (harity : operand.arity = c.operator.arity) :
    QueryText.leaf c.negated c.operator c.path operand = .ok (c.leaf operand) := by
  rw [QueryText.leaf, Criterion.build, if_neg hpath, if_neg (by simpa using harity), leaf]
  rfl

theorem mapM_ok {α β ε : Type} {f : α → Except ε β} {g : α → β} {xs : List α}
    (h : ∀ x ∈ xs, f x = .ok (g x)) : xs.mapM f = .ok (xs.map g) := by
  induction xs with
  | nil => rfl
  | cons x xs ih =>
      rw [List.mapM_cons, h x List.mem_cons_self, ih fun y hy => h y (List.mem_cons_of_mem _ hy)]
      rfl

theorem any_singleton_leaf (c : Clause) (operand : Operand) :
    FilterSpec.any [c.leaf operand] = c.leaf operand := by
  rw [FilterSpec.any, List.flatMap_singleton, leaf_disjuncts, FilterSpec.collapse]

/-- Single literals in a row. -/
theorem mapM_scalar {operator : FilterOperator} {path : String} {ls : List Literal}
    (h : ∀ l ∈ ls, l.fits .list = true) :
    ls.mapM (scalar operator path) = .ok (ls.filterMap Literal.value?) := by
  induction ls with
  | nil => rfl
  | cons l ls ih =>
      have hrest := ih fun l hl => h l (List.mem_cons_of_mem _ hl)
      cases l with
      | value v => rw [List.mapM_cons, hrest]; rfl
      | range low high => cases h _ List.mem_cons_self

theorem arity_list_iff {op : FilterOperator} :
    op.arity = .list ↔ op = .contained ∨ op = .notContained := by
  cases op <;> simp [FilterOperator.arity]

/-- The criteria of a clause of which a literal is kept, or that is one of a membership operator. -/
theorem toSpec_of_kept {c : Clause} (hpath : IsAttributePath c.path)
    (hoperator : operatorOf? c.operatorText = some (c.operator, c.negated))
    (hfits : ∀ l ∈ c.literals, l.fits c.operator.arity = true)
    (hnone : c.kept = [] → c.negated = false ∧ c.operator.arity = .list) (position : Nat) :
    (RawCriterion.mk ((writtenSegments c.path).map String.ofList) c.operatorText c.literals
      position).toSpec = .ok (.any (c.leaves c.kept)) := by
  have hne := hpath.ne_empty
  have hfits : ∀ l ∈ c.kept, l.fits c.operator.arity = true := by
    intro l hl
    rcases mem_of_mem_distinctLiterals hl with hl | hl
    · cases hl
    · exact hfits l hl
  rw [RawCriterion.toSpec, hoperator, hpath.attributePath_eq]
  dsimp only
  rw [show distinctLiterals [] c.literals = c.kept from rfl]
  cases hk : c.kept with
  | nil =>
      obtain ⟨hneg, harity⟩ := hnone hk
      have hop : (if c.operator = .notContained ∧ c.negated = false then FilterOperator.notContained
          else .contained) = c.operator := by
        rcases arity_list_iff.mp harity with hop | hop <;> simp [hop, hneg]
      dsimp only
      rw [hop, leaves, if_pos harity, List.filterMap_nil, any_singleton_leaf, ← hneg]
      exact leaf_eq c hne (by rw [harity]; rfl)
  | cons l ls =>
      rw [hk] at hfits
      cases harity : c.operator.arity with
      | list =>
          rw [harity] at hfits
          dsimp only
          rw [mapM_scalar hfits, leaves, if_pos harity, any_singleton_leaf]
          exact leaf_eq c hne (by rw [harity]; rfl)
      | pair =>
          rw [harity] at hfits
          have hmap : (l :: ls).mapM (fun l => do
                QueryText.leaf c.negated c.operator c.path (← rangeOperand c.operator c.path l))
              = .ok ((l :: ls).map fun l => c.leaf l.operand) := by
            refine mapM_ok fun l hl => ?_
            cases l with
            | value v => cases hfits _ hl
            | range low high => exact leaf_eq c hne (by rw [harity]; rfl)
          dsimp only
          rw [hmap, leaves, if_neg (by simp [harity])]
          rfl
      | single =>
          rw [harity] at hfits
          have hmap : (l :: ls).mapM (fun l => do
                QueryText.leaf c.negated c.operator c.path (.single (← scalar c.operator c.path l)))
              = .ok ((l :: ls).map fun l => c.leaf l.operand) := by
            refine mapM_ok fun l hl => ?_
            cases l with
            | value v => exact leaf_eq c hne (by rw [harity]; rfl)
            | range low high => cases hfits _ hl
          dsimp only
          rw [hmap, leaves, if_neg (by simp [harity])]
          rfl

/-- **A clause is understood as its criteria on the literals that are kept.** -/
theorem toSpec_eq {c : Clause} (h : c.Readable) (position : Nat) :
    (RawCriterion.mk ((writtenSegments c.path).map String.ofList) c.operatorText c.literals
      position).toSpec = .ok (.any (c.leaves c.kept)) := by
  refine toSpec_of_kept h.path.isAttributePath (operatorOf?_operatorText h) h.fits (fun hk => ?_) position
  have hnil : c.literals = [] := by
    by_contra hne
    exact distinctLiterals_ne_nil hne h.nonempty hk
  have hlist : ¬ (c.negated = true ∨ c.operator.arity ≠ .list) := fun hor => h.some_literal hor hnil
  rw [not_or, not_not, Bool.not_eq_true] at hlist
  exact hlist

/-- **A clause reads back as its criteria on the literals that are kept.** -/
theorem reads {c : Clause} (h : c.Readable) :
    Reads c.written.text.toList [[.any (c.leaves c.kept)]] := by
  refine reads_written h.path rfl c.isWord_operatorText ?_ (toSpec_eq h)
  rw [written, List.map_map, List.forall₂_map_left_iff]
  exact List.forall₂_same.mpr h.literals

end Clause

end EntityStore.QueryText
