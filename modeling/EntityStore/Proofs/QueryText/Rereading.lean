import EntityStore.Proofs.QueryText.Infinite
import EntityStore.Proofs.QueryText.Shrinking

/-!
# Timestamps that are read as strings

A timestamp whose year takes more than four digits is written as a text that is read as a string.
Putting such strings in the place of such timestamps changes no text, and gives a filter of
writable leaves as long as all numbers are finite. So what is read for the one filter can be told
from the other.
-/

namespace EntityStore.QueryText

/-! ## Values and literals -/

/-- What the text of a value is read as, unless the value is an infinite number. -/
def reread : Value → Value
  | .timestamp t =>
    if 0 ≤ t.clock.date.year ∧ t.clock.date.year ≤ 9999 then .timestamp t else .string t.toText
  | v => v

theorem toText_reread (v : Value) : (reread v).toText = v.toText := by
  cases v with
  | timestamp t =>
      rw [reread]
      split
      · rfl
      · exact quoted_toText t
  | _ => rfl

theorem reread_of_stable {v : Value} (h : StableValue v) : reread v = v := by
  cases v with
  | timestamp t => exact if_pos h
  | _ => rfl

/-- The text of a timestamp with a long year is that of a string, and not of an address. -/
theorem classify_of_longYear {t : Timestamp} (h : t.Proper) (hyear : ¬ t.ShortYear) :
    classify t.toText.toList = .string t.toText ∧ t.toText ≠ "" := by
  obtain ⟨⟨sign, tail, htext, hsign⟩, hread⟩ := Timestamp.ofLiteral?_of_longYear h hyear
  have hurl : looksLikeUrl t.toText.toList = false := by
    rw [htext]
    rcases hsign with rfl | rfl
    · rfl
    · rfl
  refine ⟨?_, fun hempty => ?_⟩
  · rw [classify, hread, hurl]
    simp
  · rw [hempty] at htext
    cases htext

/-- **Every value of a text is read as its rereading**, an infinite number aside. -/
theorem readsLiteral_reread {v : Value} (h : TextValue v) (hfinite : ¬ (Literal.value v).Infinite)
    (hempty : isEmptyString (.value v) = false) :
    ReadsLiteral v.toText.toList (.value (reread v)) ∧ isEmptyString (.value (reread v)) = false := by
  by_cases hstable : StableValue v
  · rw [reread_of_stable hstable]
    exact ⟨readsLiteral_of_stable h hstable, hempty⟩
  · cases v with
    | float x => exact absurd hstable hfinite
    | timestamp t =>
        obtain ⟨hread, hne⟩ := classify_of_longYear (Timestamp.Readable.proper h).1 hstable
        have hreread : reread (.timestamp t) = .string t.toText := if_neg hstable
        rw [hreread, ← quoted_toText]
        exact ⟨readsLiteral_quoted hread, by simpa [isEmptyString] using hne⟩
    | _ => exact absurd trivial hstable

/-- The bounds of a range are numbers and stay. -/
def Literal.reread : Literal → Literal
  | .value v => .value (QueryText.reread v)
  | .range low high => .range low high

theorem Literal.text_reread (l : Literal) : l.reread.text = l.text := by
  cases l with
  | value v => exact toText_reread v
  | range low high => rfl

/-- A literal with finite numbers is stable if it is the same value as its rereading. -/
theorem Literal.stable_of_same_reread {l : Literal} (hfinite : ¬ l.Infinite)
    (hsame : l.reread.same l = true) : l.Stable := by
  cases l with
  | range low high => exact not_not.mp hfinite
  | value v =>
      show StableValue v
      cases v with
      | float x => exact not_not.mp hfinite
      | timestamp t =>
          by_contra hyear
          have hreread : QueryText.reread (.timestamp t) = .string t.toText := if_neg hyear
          rw [Literal.reread, hreread] at hsame
          cases hsame
      | _ => trivial

/-! ## Criteria -/

/-- The operand with strings in the place of timestamps with long years. -/
def rereadOperand : Operand → Operand
  | .single v => .single (reread v)
  | .range low high => .range low high
  | .list vs => .list (vs.map reread)

theorem arity_rereadOperand (operand : Operand) : (rereadOperand operand).arity = operand.arity := by
  cases operand <;> rfl

theorem operandLiterals_rereadOperand (operand : Operand) :
    operandLiterals (rereadOperand operand) = (operandLiterals operand).map Literal.reread := by
  cases operand with
  | list vs => simp [operandLiterals, rereadOperand, Literal.reread]
  | _ => rfl

theorem operandTexts_rereadOperand (operand : Operand) :
    operandTexts (rereadOperand operand) = operandTexts operand := by
  cases operand with
  | single v => rw [rereadOperand, operandTexts, operandTexts, toText_reread]
  | range low high => rfl
  | list vs => simp [operandTexts, rereadOperand, toText_reread]

theorem rereadOperand_of_stable {operand : Operand} (h : ∀ l ∈ operandLiterals operand, l.Stable) :
    rereadOperand operand = operand := by
  cases operand with
  | single v => exact congrArg Operand.single (reread_of_stable (h _ (List.mem_singleton_self _)))
  | range low high => rfl
  | list vs =>
      have hsame : ∀ v ∈ vs, reread v = id v := fun v hv =>
        reread_of_stable (h (.value v) (List.mem_map_of_mem hv))
      rw [rereadOperand, List.map_congr_left hsame, List.map_id]

def rereadCriterion (c : Criterion) : Criterion := { c with operand := rereadOperand c.operand }

/-- **A leaf of a text with finite numbers can be written when it is reread.** -/
theorem ParsedLeaf.writableLeaf_reread {c : Criterion} {negated : Bool}
    (h : ParsedLeaf TextValue c negated) (hfinite : ∀ l ∈ operandLiterals c.operand, ¬ l.Infinite) :
    WritableLeaf (rereadCriterion c) negated := by
  refine writableLeaf h.path ((arity_rereadOperand _).trans h.arity) ?_ ?_ fun hneg => ⟨?_, (h.negation hneg).2⟩
  · rw [rereadCriterion, operandLiterals_rereadOperand, List.forall_mem_map]
    intro l hl
    obtain ⟨hformed, hempty⟩ := h.literals l hl
    rw [Literal.text_reread]
    cases l with
    | value v => exact readsLiteral_reread hformed (hfinite _ hl) hempty
    | range low high => exact ⟨hformed.readsLiteral (not_not.mp (hfinite _ hl)), hempty⟩
  · intro low high hop
    cases hoperand : c.operand with
    | range low' high' =>
        rw [rereadCriterion, hoperand] at hop
        obtain ⟨rfl, rfl⟩ := Operand.range.inj hop
        exact h.bounds _ _ hoperand
    | single v =>
        rw [rereadCriterion, hoperand] at hop
        cases hop
    | list vs =>
        rw [rereadCriterion, hoperand] at hop
        cases hop
  · intro hop
    have hliterals := operandLiterals_rereadOperand c.operand
    change rereadOperand c.operand = .list [] at hop
    -- an operand without literals has none before it is reread
    rw [hop] at hliterals
    exact operandLiterals_ne_nil (h.negation hneg).1 (List.map_eq_nil_iff.mp hliterals.symm)

/-! ## Filters -/

/-- The filter with strings in the place of timestamps with long years. -/
def rereadSpec (s : FilterSpec) : FilterSpec := s.mapCriteria rereadCriterion

theorem literals_rereadSpec (s : FilterSpec) :
    (rereadSpec s).literals = s.literals.map Literal.reread := by
  rw [rereadSpec, FilterSpec.literals, FilterSpec.literals, FilterSpec.criteria_mapCriteria,
    List.flatMap_map, List.map_flatMap]
  exact List.flatMap_congr fun c _ => operandLiterals_rereadOperand c.operand

theorem rereadSpec_of_stable {s : FilterSpec} (h : ∀ l ∈ s.literals, l.Stable) : rereadSpec s = s := by
  refine FilterSpec.mapCriteria_eq_self fun c hc => ?_
  have hoperand : rereadOperand c.operand = c.operand :=
    rereadOperand_of_stable fun l hl => h l (List.mem_flatMap.mpr ⟨c, hc, hl⟩)
  rw [rereadCriterion, hoperand]

/-- **Rereading a filter changes no text.** -/
theorem writeSpec_rereadSpec (s : FilterSpec) : writeSpec (rereadSpec s) = writeSpec s := by
  have hlist : ∀ children : List FilterSpec, (∀ s ∈ children, writeSpec (rereadSpec s) = writeSpec s) →
      writeSpecs (FilterSpec.mapCriteriaOfList rereadCriterion children) = writeSpecs children := by
    intro children
    induction children with
    | nil => exact fun _ => rfl
    | cons s rest ih =>
        intro h
        have hs : writeSpec (s.mapCriteria rereadCriterion) = writeSpec s := h s List.mem_cons_self
        rw [FilterSpec.mapCriteriaOfList, writeSpecs, writeSpecs, hs,
          ih fun s hs => h s (List.mem_cons_of_mem _ hs)]
  rw [rereadSpec]
  induction s using FilterSpec.ind with
  | criterion c =>
      rw [FilterSpec.mapCriteria, writeSpec, writeSpec, writeCriterion, writeCriterion, rereadCriterion,
        operandTexts_rereadOperand]
  | conjunction children ih => rw [FilterSpec.mapCriteria, writeSpec, writeSpec, hlist children ih]
  | disjunction children ih => rw [FilterSpec.mapCriteria, writeSpec, writeSpec, hlist children ih]
  | negation child ih => rw [FilterSpec.mapCriteria, writeSpec, writeSpec, ih]

/-- Other leaves leave a flat filter flat. -/
theorem Flat.mapCriteria {leaf leaf' : Criterion → Bool → Prop} {f : Criterion → Criterion}
    {s : FilterSpec} (h : Flat leaf s)
    (hleaf : ∀ c ∈ s.criteria, ∀ negated, leaf c negated → leaf' (f c) negated) :
    Flat leaf' (s.mapCriteria f) := by
  induction h with
  | @criterion c hc => exact .criterion (hleaf c (List.mem_singleton_self c) false hc)
  | @negation c hc => exact .negation (hleaf c (List.mem_singleton_self c) true hc)
  | @conjunction children two flat _ ih =>
      rw [FilterSpec.mapCriteria, FilterSpec.mapCriteriaOfList_eq]
      refine .conjunction (by rw [List.length_map]; exact two) ?_ ?_
      · rw [List.forall_mem_map]
        intro s hs nested heq
        cases s with
        | conjunction nested' => exact flat _ hs nested' rfl
        | _ => cases heq
      · rw [List.forall_mem_map]
        exact fun s hs => ih s hs fun c hc => hleaf c (FilterSpec.mem_criteriaOfList.mpr ⟨s, hs, hc⟩)
  | @disjunction children two flat _ ih =>
      rw [FilterSpec.mapCriteria, FilterSpec.mapCriteriaOfList_eq]
      refine .disjunction (by rw [List.length_map]; exact two) ?_ ?_
      · rw [List.forall_mem_map]
        intro s hs nested heq
        cases s with
        | disjunction nested' => exact flat _ hs nested' rfl
        | _ => cases heq
      · rw [List.forall_mem_map]
        exact fun s hs => ih s hs fun c hc => hleaf c (FilterSpec.mem_criteriaOfList.mpr ⟨s, hs, hc⟩)

/-- **A filter of a text with finite numbers is made of writable leaves when it is reread.** -/
theorem Flat.rereadSpec {s : FilterSpec} (h : Flat (ParsedLeaf TextValue) s)
    (hfinite : ∀ l ∈ s.literals, ¬ l.Infinite) : Flat WritableLeaf (rereadSpec s) := by
  refine h.mapCriteria fun c hc negated hleaf => ?_
  exact hleaf.writableLeaf_reread fun l hl => hfinite l (List.mem_flatMap.mpr ⟨c, hc, hl⟩)

end EntityStore.QueryText
