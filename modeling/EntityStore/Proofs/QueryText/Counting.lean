import EntityStore.Proofs.Filter.Answers
import EntityStore.Proofs.QueryText.Clauses
import EntityStore.Proofs.QueryText.Parsed

/-!
# Literals that count

The reader drops empty strings and, of literals that are the same, all but the first. What is left
is the operand of a membership operator, or makes one criterion each, of which one is enough. Which
of several literals that are the same is left depends on their order; but they stand for one another.
**So what a criterion answers depends only on which literals it has, empty strings aside**, whatever
its operator, and whether it can be answered at all does, too.
-/

namespace EntityStore.QueryText

open Answer

variable {q : Question}

/-! ## Literals that stand for one another -/

/-- Literals that stand for one another: values or bounds that do. -/
inductive Literal.Akin : Literal → Literal → Prop
  | value {v w : Value} (h : v.Akin w) : Akin (.value v) (.value w)
  | range {a b c d : Value} (hlow : a.Akin c) (hhigh : b.Akin d) : Akin (.range a b) (.range c d)

theorem Literal.Akin.refl (l : Literal) : l.Akin l := by
  cases l with
  | value v => exact .value (.refl v)
  | range low high => exact .range (.refl low) (.refl high)

theorem Literal.akin_of_same {k l : Literal} (h : k.same l = true) : l.Akin k := by
  cases k <;> cases l
  case value.value v w => exact .value (Value.akin_of_same h).symm
  case range.range a b c d =>
    obtain ⟨hlow, hhigh⟩ := Bool.and_eq_true_iff.mp h
    exact .range (Value.akin_of_same hlow).symm (Value.akin_of_same hhigh).symm
  all_goals cases h

theorem Literal.Akin.fits_eq {k l : Literal} (h : k.Akin l) (arity : Arity) :
    k.fits arity = l.fits arity := by
  cases h <;> rfl

/-- Each of the literals has one among the others that stands for it. -/
def Covered (ls ls' : List Literal) : Prop := ∀ l ∈ ls, ∃ k ∈ ls', l.Akin k

/-- **For every literal that counts one is kept that stands for it.** -/
theorem exists_akin_of_mem {kept ls : List Literal} {l : Literal} (hl : l ∈ ls)
    (hcounts : isEmptyString l = false) : ∃ k ∈ distinctLiterals kept ls, l.Akin k := by
  obtain ⟨k, hk, rfl | hsame⟩ := @exists_eq_or_same_of_mem kept _ _ hl hcounts
  · exact ⟨k, hk, .refl k⟩
  · exact ⟨k, hk, Literal.akin_of_same hsame⟩

/-- Where all literals that count are among others, those that are kept of them are covered. -/
theorem covered_distinctLiterals {ls ls' : List Literal}
    (h : ∀ l ∈ ls, isEmptyString l = false → l ∈ ls') :
    Covered (distinctLiterals [] ls) (distinctLiterals [] ls') := by
  intro l hl
  have hcounts := isEmptyString_of_mem_distinctLiterals (fun k hk => (by cases hk)) l hl
  rcases mem_of_mem_distinctLiterals hl with hnil | hl
  · cases hnil
  · exact exists_akin_of_mem (h l hl hcounts) hcounts

/-! ## Answers where a specification is made -/

/-- What is answered by a specification that may fail to be made. -/
def answered (q : Question) : Except QueryError FilterSpec → Option Bool
  | .ok s => s.answer q
  | .error _ => none

/-- A leaf answers the same whichever of two operands it has that stand for one another. -/
theorem answered_leaf_of_akin {o o' : Operand} (h : o.Akin o') (negated : Bool)
    (operator : FilterOperator) (path : String) :
    answered q (leaf negated operator path o) = answered q (leaf negated operator path o') := by
  have hanswer := FilterSpec.answer_of_akin h q path operator
  rw [leaf, leaf, Criterion.build, Criterion.build, h.arity_eq]
  by_cases hpath : path = ""
  · rw [if_pos hpath, if_pos hpath]
  · rw [if_neg hpath, if_neg hpath]
    by_cases harity : o'.arity = operator.arity
    · rw [if_neg (not_not.mpr harity), if_neg (not_not.mpr harity)]
      cases negated with
      | false => exact hanswer
      | true =>
          change (FilterSpec.negation _).answer q = (FilterSpec.negation _).answer q
          rw [FilterSpec.answer_negation, FilterSpec.answer_negation, hanswer]
    · rw [if_pos harity, if_pos harity]

theorem exists_of_mapM_error {α β ε : Type} {f : α → Except ε β} {xs : List α} {e : ε}
    (h : xs.mapM f = .error e) : ∃ x ∈ xs, f x = .error e := by
  induction xs with
  | nil => cases h
  | cons x xs ih =>
      rw [List.mapM_cons] at h
      cases hx : f x with
      | error e' =>
          rw [hx] at h
          obtain rfl := Except.error.inj h
          exact ⟨x, List.mem_cons_self, hx⟩
      | ok y =>
          cases hxs : xs.mapM f with
          | error e' =>
              rw [hx, hxs] at h
              obtain rfl := Except.error.inj h
              obtain ⟨x', hx', hf⟩ := ih hxs
              exact ⟨x', List.mem_cons_of_mem x hx', hf⟩
          | ok ys =>
              rw [hx, hxs] at h
              cases h

/-- What one of several criteria answers, each made of a literal. -/
theorem answered_any (f : Literal → Except QueryError FilterSpec) (ls : List Literal) :
    answered q (do
      let specs ← ls.mapM f
      pure (.any specs)) = disjoin (ls.map fun l => answered q (f l)) := by
  cases h : ls.mapM f with
  | error e =>
      obtain ⟨l, hl, hf⟩ := exists_of_mapM_error h
      refine (disjoin_eq_none (List.mem_map.mpr ⟨l, hl, ?_⟩)).symm
      rw [hf, answered]
  | ok specs =>
      have heach := forall₂_of_mapM_ok h
      have hmap : specs.map (FilterSpec.answer q) = ls.map fun l => answered q (f l) := by
        clear h
        induction heach with
        | nil => rfl
        | cons hf _ ih => rw [List.map_cons, List.map_cons, ih, hf, answered]
      change (FilterSpec.any specs).answer q = _
      rw [FilterSpec.answer_any, hmap]

/-- In a disjunction it only matters which answers the literals give. -/
theorem disjoin_of_covered {g : Literal → Option Bool} (hg : ∀ l k, l.Akin k → g l = g k)
    {ls ls' : List Literal} (h : Covered ls ls') (h' : Covered ls' ls) :
    disjoin (ls.map g) = disjoin (ls'.map g) := by
  have hforth : ∀ {ls ls' : List Literal}, Covered ls ls' → ∀ x ∈ ls.map g, x ∈ ls'.map g := by
    intro ls ls' h x hx
    obtain ⟨l, hl, rfl⟩ := List.mem_map.mp hx
    obtain ⟨k, hk, hakin⟩ := h l hl
    exact List.mem_map.mpr ⟨k, hk, (hg l k hakin).symm⟩
  exact disjoin_congr fun x => ⟨hforth h x, hforth h' x⟩

/-! ## Criteria as written -/

section

variable {negated : Bool} {operator : FilterOperator} {path : String} {ls ls' : List Literal}

/-- The values of literals that are covered are, too. -/
theorem exists_akin_value (h : Covered ls ls') :
    ∀ v ∈ ls.filterMap Literal.value?, ∃ w ∈ ls'.filterMap Literal.value?, v.Akin w := by
  intro v hv
  obtain ⟨l, hl, hvalue⟩ := List.mem_filterMap.mp hv
  obtain ⟨k, hk, hakin⟩ := h l hl
  cases hakin with
  | @value a w hakin =>
      obtain rfl : a = v := Option.some.inj hvalue
      exact ⟨w, List.mem_filterMap.mpr ⟨_, hk, rfl⟩, hakin⟩
  | range => cases hvalue

/-- Literals in the place of values are values. -/
theorem fits_of_mapM_scalar {values : List Value} (h : ls.mapM (scalar operator path) = .ok values) :
    ∀ l ∈ ls, l.fits .list = true := by
  have heach := forall₂_of_mapM_ok h
  clear h
  induction heach with
  | nil => exact fun l hl => (by cases hl)
  | @cons l _ _ _ hscalar _ ih =>
      refine List.forall_mem_cons.mpr ⟨?_, ih⟩
      cases l with
      | value v => rfl
      | range low high => cases hscalar

/-- A range stands in no list of values. -/
theorem answered_list_of_not_fits (h : ¬ ∀ l ∈ ls, l.fits .list = true) :
    answered q (do
      let values ← ls.mapM (scalar operator path)
      leaf negated operator path (.list values)) = none := by
  cases hvalues : ls.mapM (scalar operator path) with
  | error e => rfl
  | ok values => exact absurd (fits_of_mapM_scalar hvalues) h

/-- A membership criterion answers by which values there are. -/
theorem answered_list_of_covered (h : Covered ls ls') (h' : Covered ls' ls) :
    answered q (do
      let values ← ls.mapM (scalar operator path)
      leaf negated operator path (.list values))
      = answered q (do
        let values ← ls'.mapM (scalar operator path)
        leaf negated operator path (.list values)) := by
  have hforth : ∀ {ls ls' : List Literal}, Covered ls ls' → (∀ l ∈ ls', l.fits .list = true) →
      ∀ l ∈ ls, l.fits .list = true := by
    intro ls ls' h hfits l hl
    obtain ⟨k, hk, hakin⟩ := h l hl
    exact (hakin.fits_eq .list).trans (hfits k hk)
  by_cases hfits : ∀ l ∈ ls, l.fits .list = true
  · rw [Clause.mapM_scalar hfits, Clause.mapM_scalar (hforth h' hfits)]
    exact answered_leaf_of_akin (.list (exists_akin_value h) (exists_akin_value h')) _ _ _
  · have hfits' : ¬ ∀ l ∈ ls', l.fits .list = true := fun hall => hfits (hforth h hall)
    rw [answered_list_of_not_fits hfits, answered_list_of_not_fits hfits']

end

/-- **A criterion answers by which literals it has, empty strings aside**, wherever it begins. -/
theorem answered_toSpec_of_literals {path : List String} {operator : String} {ls ls' : List Literal}
    (h : ∀ l, isEmptyString l = false → (l ∈ ls ↔ l ∈ ls')) (position position' : Nat) (q : Question) :
    answered q (RawCriterion.toSpec ⟨path, operator, ls, position⟩)
      = answered q (RawCriterion.toSpec ⟨path, operator, ls', position'⟩) := by
  have hcovered : Covered (distinctLiterals [] ls) (distinctLiterals [] ls') :=
    covered_distinctLiterals fun l hl hcounts => (h l hcounts).mp hl
  have hcovered' : Covered (distinctLiterals [] ls') (distinctLiterals [] ls) :=
    covered_distinctLiterals fun l hl hcounts => (h l hcounts).mpr hl
  rw [RawCriterion.toSpec, RawCriterion.toSpec]
  dsimp only
  cases operatorOf? operator with
  | none => rfl
  | some op =>
      obtain ⟨op, negated⟩ := op
      dsimp only
      -- either there is nothing left of both lists, or something of both
      cases hkept : distinctLiterals [] ls with
      | nil =>
          rw [hkept] at hcovered'
          cases hkept' : distinctLiterals [] ls' with
          | nil => rfl
          | cons k ks =>
              rw [hkept'] at hcovered'
              obtain ⟨l, hl, -⟩ := hcovered' k List.mem_cons_self
              cases hl
      | cons l rest =>
          rw [hkept] at hcovered hcovered'
          cases hkept' : distinctLiterals [] ls' with
          | nil =>
              rw [hkept'] at hcovered
              obtain ⟨k, hk, -⟩ := hcovered l List.mem_cons_self
              cases hk
          | cons k ks =>
              rw [hkept'] at hcovered hcovered'
              cases op.arity with
              | list => exact answered_list_of_covered hcovered hcovered'
              | pair =>
                  refine (answered_any _ _).trans (Eq.trans ?_ (answered_any _ _).symm)
                  refine disjoin_of_covered (fun l k hakin => ?_) hcovered hcovered'
                  cases hakin with
                  | value => rfl
                  | range hlow hhigh => exact answered_leaf_of_akin (.range hlow hhigh) _ _ _
              | single =>
                  refine (answered_any _ _).trans (Eq.trans ?_ (answered_any _ _).symm)
                  refine disjoin_of_covered (fun l k hakin => ?_) hcovered hcovered'
                  cases hakin with
                  | value hakin => exact answered_leaf_of_akin (.single hakin) _ _ _
                  | range => rfl

end EntityStore.QueryText
