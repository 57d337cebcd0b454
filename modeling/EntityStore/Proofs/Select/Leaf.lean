import EntityStore.Filter.Matching
import EntityStore.Proofs.Binary64.Bits
import EntityStore.Proofs.Filter.Passing
import EntityStore.Proofs.Select.Dataset
import EntityStore.Proofs.Select.Pattern
import EntityStore.Select.OfSpec

/-!
# A criterion on one column

The condition made of an operator and an operand is true of a column exactly when the value in it
passes the operator. The two have different ideas of null: the test is plainly false, the
condition unknown. There are two places where that shows. One is `not-equal-to`, which the test takes
for the absence of agreement and the condition for an outcome of its own; they are the same only
where the literal compares with the value. The other is the search for a text: a literal that is
none is found nowhere by the test, and is the empty text to the pattern, which is found everywhere.
-/

namespace EntityStore

namespace Value

/-- Two values compare, unless one of them is null. -/
def Meets (x v : Value) : Prop := x = .null ∨ v = .null ∨ (x.compare? v).isSome = true

@[simp] theorem compare?_null_left (v : Value) : compare? .null v = none := by
  cases v <;> rfl

@[simp] theorem compare?_null_right (x : Value) : x.compare? .null = none := by
  cases x <;> rfl

/-- Numbers compare unless one of them is a NaN. -/
theorem meets_of_numbers {x v : Value} {y z : Binary64} (hx : x.number? = some y)
    (hv : v.number? = some z) (hcmp : x.compare? v = compareNumbers? x v) (hy : y.isNaN = false)
    (hz : z.isNaN = false) : x.Meets v := by
  refine .inr (.inr ?_)
  rw [hcmp, compareNumbers?, hx, hv]
  simp [Binary64.compare?, hy, hz]

/-- What a kind accepts compares with every value of the kind, as long as no number is a NaN. -/
theorem meets_of_accepts {x v : Value} {kind : ValueKind} (hx : ∀ k, x.kind? = some k → k = kind)
    (hxn : x.isNaN = false) (hv : kind.accepts v = true) (hvn : v.isNaN = false) : x.Meets v := by
  have hint := Binary64.isNaN_ofInt
  cases x with
  | null => exact .inl rfl
  | bool a =>
      obtain rfl := hx _ rfl
      cases v <;> first | exact .inr (.inl rfl) | exact .inr (.inr rfl) | cases hv
  | int a =>
      obtain rfl := hx _ rfl
      cases v with
      | null => exact .inr (.inl rfl)
      | int b => exact .inr (.inr rfl)
      | float b => exact meets_of_numbers rfl rfl rfl (hint _) hvn
      | bool b => cases hv
      | string b => cases hv
      | timestamp b => cases hv
      | url b => cases hv
  | float a =>
      obtain rfl := hx _ rfl
      cases v with
      | null => exact .inr (.inl rfl)
      | int b => exact meets_of_numbers rfl rfl rfl hxn (hint _)
      | float b => exact meets_of_numbers rfl rfl rfl hxn hvn
      | bool b => cases hv
      | string b => cases hv
      | timestamp b => cases hv
      | url b => cases hv
  | string a =>
      obtain rfl := hx _ rfl
      cases v <;> first | exact .inr (.inl rfl) | exact .inr (.inr rfl) | cases hv
  | timestamp a =>
      obtain rfl := hx _ rfl
      cases v <;> first | exact .inr (.inl rfl) | exact .inr (.inr rfl) | cases hv
  | url a =>
      obtain rfl := hx _ rfl
      cases v <;> first | exact .inr (.inl rfl) | exact .inr (.inr rfl) | cases hv

/-- A comparison is true where the outcome is one of those it stands for. -/
theorem map_admits_eq_some_true {x v : Value} {op : Comparison} (outcomes : List Ordering)
    (h : ∀ o, op.admits o = outcomes.contains o) :
    (x.compare? v).map op.admits = some true ↔ x.comparesAs outcomes v = true := by
  unfold comparesAs
  cases x.compare? v with
  | none => simp
  | some o => rw [Option.map_some, h o, Option.some.injEq]

/-- A test on texts that an empty needle does not pass, or whose needle is a text, or that is put to
no text, is the test with a missing needle taken for an empty one. -/
theorem textTest_iff {test : List Char → List Char → Bool} {x v : Value}
    (h : v.text? = none → ∀ s, x.text? = some s → test s.toList [] = false) :
    x.textTest test v = true
      ↔ ∃ s, x.text? = some s ∧ test s.toList (v.text?.getD "").toList = true := by
  unfold textTest
  cases hx : x.text? with
  | none => simp
  | some s =>
      cases hv : v.text? with
      | none => simpa using h hv s hx
      | some needle => simp

theorem any_agrees_filter (x : Value) (vs : List Value) :
    ((vs.filter fun v => !v.isNull).any fun v => x.agrees v) = vs.any fun v => x.agrees v := by
  rw [List.any_filter]
  congr 1
  funext v
  cases v with
  | null => simp [isNull, agrees]
  | _ => simp [isNull]

theorem isNull_eq_false_iff {x : Value} : x.isNull = false ↔ x ≠ .null := by
  cases x <;> simp [isNull]

end Value

namespace FilterOperator

/-- Operators that look for one text in another. -/
def isSearch : FilterOperator → Bool
  | .startsWith => true
  | .endsWith => true
  | .contains => true
  | _ => false

/-- The condition of an operator and the test of it part over a value: a text is searched for what
is no text, or a value is to differ from a literal that it does not compare with. -/
def Parts (operator : FilterOperator) (operand : Operand) (x : Value) : Prop :=
  ∃ v, operand = .single v ∧
    (operator.isSearch = true ∧ v.text? = none ∧ x.text?.isSome = true ∨
      operator = .notEqualTo ∧ ¬ x.Meets v)

/-- A search that does not part has a text to look for, or no text to look in. -/
theorem no_text_of_not_parts {operator : FilterOperator} {v x : Value}
    (hsearch : operator.isSearch = true) (h : ¬ operator.Parts (.single v) x)
    (hv : v.text? = none) (s : String) : x.text? ≠ some s := by
  intro hx
  exact h ⟨v, rfl, .inl ⟨hsearch, hv, by rw [hx]; rfl⟩⟩

end FilterOperator

namespace Condition

theorem leaf_equalTo (column : Column) (v : Value) :
    leaf column .equalTo (.single v)
      = if v = .null then .isNull column false else .compare column .eq v := by
  cases v <;> rfl

theorem leaf_notEqualTo (column : Column) (v : Value) :
    leaf column .notEqualTo (.single v)
      = if v = .null then .isNull column true else .compare column .ne v := by
  cases v <;> rfl

theorem leaf_contained (column : Column) (vs : List Value) :
    leaf column .contained (.list vs)
      = if (vs.filter fun v => !v.isNull) = [] then .bool false
        else .oneOf column (vs.filter fun v => !v.isNull) false := by
  rw [leaf]
  cases vs.filter fun v => !v.isNull <;> rfl

theorem leaf_notContained (column : Column) (vs : List Value) :
    leaf column .notContained (.list vs)
      = if (vs.filter fun v => !v.isNull) = [] then .isNull column true
        else .oneOf column (vs.filter fun v => !v.isNull) true := by
  rw [leaf]
  cases vs.filter fun v => !v.isNull <;> rfl

variable {tables : Tables} {env : RowEnv} {column : Column}

@[simp] theorem truth_bool (b : Bool) : (Condition.bool b).truth tables env = some b := rfl

theorem truth_compare (op : Comparison) (v : Value) :
    (Condition.compare column op v).truth tables env
      = ((env.value column).compare? v).map op.admits := rfl

theorem truth_isNull (negated : Bool) :
    (Condition.isNull column negated).truth tables env
      = some ((env.value column).isNull != negated) := rfl

theorem truth_oneOf (vs : List Value) (negated : Bool) :
    (Condition.oneOf column vs negated).truth tables env
      = if (env.value column).isNull then none
        else some ((vs.any fun v => (env.value column).agrees v) != negated) := rfl

theorem truth_equalTo (v : Value) :
    (leaf column .equalTo (.single v)).truth tables env = some true
      ↔ FilterOperator.equalTo.test (.single v) (env.value column) = true := by
  rw [leaf_equalTo, FilterOperator.test_equalTo]
  by_cases hv : v = .null
  · rw [if_pos hv, if_pos hv, truth_isNull]
    simp
  · rw [if_neg hv, if_neg hv, truth_compare, Value.agrees]
    rw [Value.map_admits_eq_some_true [.eq] (by decide), Value.comparesAs]
    cases (env.value column).compare? v with
    | none => simp
    | some o => cases o <;> decide

theorem truth_notEqualTo {v : Value} (hv : (env.value column).Meets v) :
    (leaf column .notEqualTo (.single v)).truth tables env = some true
      ↔ FilterOperator.notEqualTo.test (.single v) (env.value column) = true := by
  rw [leaf_notEqualTo, FilterOperator.test_notEqualTo]
  by_cases hnull : v = .null
  · rw [if_pos hnull, if_pos hnull, truth_isNull]
    simp
  · rw [if_neg hnull, if_neg hnull, truth_compare, Value.agrees]
    rcases hv with hx | hv | hsome
    · rw [hx]
      simp [Value.isNull]
    · exact absurd hv hnull
    · obtain ⟨o, ho⟩ := Option.isSome_iff_exists.mp hsome
      -- a value that compares is not null
      have hx : (env.value column).isNull = false := by
        refine Value.isNull_eq_false_iff.mpr fun hx => ?_
        rw [hx, Value.compare?_null_left] at ho
        cases ho
      rw [ho, hx]
      cases o <;> decide

theorem truth_contained (vs : List Value) :
    (leaf column .contained (.list vs)).truth tables env = some true
      ↔ FilterOperator.contained.test (.list vs) (env.value column) = true := by
  have hany := Value.any_agrees_filter (env.value column) vs
  rw [leaf_contained, FilterOperator.test, ← hany]
  split
  case isTrue hnil => simp [hnil]
  case isFalse =>
    rw [truth_oneOf]
    by_cases hx : env.value column = .null
    · simp [hx, Value.isNull, Value.agrees]
    · have hx' := Value.isNull_eq_false_iff.mpr hx
      simp [hx']

theorem truth_notContained (vs : List Value) :
    (leaf column .notContained (.list vs)).truth tables env = some true
      ↔ FilterOperator.notContained.test (.list vs) (env.value column) = true := by
  have hany := Value.any_agrees_filter (env.value column) vs
  rw [leaf_notContained, FilterOperator.test, ← hany]
  split
  case isTrue hnil => simp [hnil, truth_isNull]
  case isFalse =>
    rw [truth_oneOf]
    by_cases hx : env.value column = .null
    · simp [hx, Value.isNull]
    · have hx' := Value.isNull_eq_false_iff.mpr hx
      simp [hx']

theorem truth_inRange (low high : Value) :
    (leaf column .inRange (.range low high)).truth tables env = some true
      ↔ FilterOperator.inRange.test (.range low high) (env.value column) = true := by
  rw [leaf, truth, FilterOperator.test, Value.comparesAs, Value.comparesAs]
  cases (env.value column).compare? low with
  | none => simp
  | some l =>
      cases (env.value column).compare? high with
      | none => simp
      | some h => cases l <;> cases h <;> decide

/-- A pattern takes a missing needle for an empty one. -/
theorem truth_like (wrap : String → String) {negated : Bool} (test : List Char → List Char → Bool)
    (h : ∀ needle text,
      (Pattern.accepts (wrap (Pattern.escapeText needle)).toList text != negated)
        = test text needle.toList) (v : Value) :
    (Condition.like column (wrap ((v.text?.map Pattern.escapeText).getD "")) negated).truth tables env
        = some true
      ↔ ∃ s, (env.value column).text? = some s ∧ test s.toList (v.text?.getD "").toList = true := by
  have hneedle : (v.text?.map Pattern.escapeText).getD "" = Pattern.escapeText (v.text?.getD "") := by
    cases v.text? <;> rfl
  rw [truth, hneedle, Option.map_eq_some_iff]
  simp only [h]

theorem truth_startsWith (v : Value) :
    (leaf column .startsWith (.single v)).truth tables env = some true
      ↔ ∃ s, (env.value column).text? = some s ∧
        (v.text?.getD "").toList.isPrefixOf s.toList = true :=
  truth_like (fun needle => needle ++ "%") (fun x needle => needle.isPrefixOf x)
    (fun needle text => by simp [Pattern.escapeText, Pattern.accepts_startsWith]) v

theorem truth_endsWith (v : Value) :
    (leaf column .endsWith (.single v)).truth tables env = some true
      ↔ ∃ s, (env.value column).text? = some s ∧
        (v.text?.getD "").toList.isSuffixOf s.toList = true :=
  truth_like (fun needle => "%" ++ needle) (fun x needle => needle.isSuffixOf x)
    (fun needle text => by simp [Pattern.escapeText, Pattern.accepts_endsWith]) v

theorem truth_contains (v : Value) :
    (leaf column .contains (.single v)).truth tables env = some true
      ↔ ∃ s, (env.value column).text? = some s ∧
        Text.occursIn (v.text?.getD "").toList s.toList = true :=
  truth_like (fun needle => "%" ++ needle ++ "%") (fun x needle => Text.occursIn needle x)
    (fun needle text => by simp [Pattern.escapeText, Pattern.accepts_contains]) v

theorem truth_notContains (v : Value) :
    (leaf column .notContains (.single v)).truth tables env = some true
      ↔ ∃ s, (env.value column).text? = some s ∧
        (!Text.occursIn (v.text?.getD "").toList s.toList) = true :=
  truth_like (fun needle => "%" ++ needle ++ "%") (fun x needle => !Text.occursIn needle x)
    (fun needle text => by simp [Pattern.escapeText, Pattern.accepts_contains]) v

/-- **A condition on a column is true exactly when the value in it passes the operator**, unless the
two part over it. -/
theorem truth_leaf_of_not_parts {operator : FilterOperator} {operand : Operand}
    (hparts : ¬ operator.Parts operand (env.value column)) :
    (leaf column operator operand).truth tables env = some true
      ↔ operator.test operand (env.value column) = true := by
  cases operand with
  | single v =>
      -- what a search is put to is a text only if the needle is one
      have hsearch : operator.isSearch = true → v.text? = none → ∀ s,
          (env.value column).text? = some s → ∀ {b : Bool}, b = false := by
        intro hop hv s hx
        exact absurd hx (FilterOperator.no_text_of_not_parts hop hparts hv s)
      cases operator with
      | equalTo => exact truth_equalTo v
      | notEqualTo =>
          refine truth_notEqualTo (Classical.not_not.mp fun hmeets => ?_)
          exact hparts ⟨v, rfl, .inr ⟨rfl, hmeets⟩⟩
      | lessThan => exact Value.map_admits_eq_some_true [.lt] (by decide)
      | lessThanOrEqualTo => exact Value.map_admits_eq_some_true [.lt, .eq] (by decide)
      | greaterThan => exact Value.map_admits_eq_some_true [.gt] (by decide)
      | greaterThanOrEqualTo => exact Value.map_admits_eq_some_true [.gt, .eq] (by decide)
      | startsWith =>
          rw [FilterOperator.test, Value.textTest_iff fun hv s hx => hsearch rfl hv s hx]
          exact truth_startsWith v
      | endsWith =>
          rw [FilterOperator.test, Value.textTest_iff fun hv s hx => hsearch rfl hv s hx]
          exact truth_endsWith v
      | contains =>
          rw [FilterOperator.test, Value.textTest_iff fun hv s hx => hsearch rfl hv s hx]
          exact truth_contains v
      | notContains =>
          -- the empty text is in every text, so without a needle neither side holds
          have hempty : ∀ s : String, (!Text.occursIn [] s.toList) = false := by
            intro s
            rw [Bool.not_eq_false', Text.occursIn_iff]
            exact List.nil_infix
          rw [FilterOperator.test, Value.textTest_iff fun _ s _ => hempty s]
          exact truth_notContains v
      | contained => simp [leaf, FilterOperator.test]
      | notContained => simp [leaf, FilterOperator.test]
      | inRange => simp [leaf, FilterOperator.test]
  | range low high =>
      cases operator with
      | inRange => exact truth_inRange low high
      | _ => simp [leaf, FilterOperator.test]
  | list vs =>
      cases operator with
      | contained => exact truth_contained vs
      | notContained => exact truth_notContained vs
      | _ => simp [leaf, FilterOperator.test]

/-- The two never part over a value that compares with the literals, if what is searched for is text. -/
theorem truth_leaf {operator : FilterOperator} {operand : Operand}
    (hmeets : ∀ v ∈ operand.values, (env.value column).Meets v)
    (htext : operator.isTextual = true → ∀ v, operand = .single v → v.text?.isSome = true) :
    (leaf column operator operand).truth tables env = some true
      ↔ operator.test operand (env.value column) = true := by
  refine truth_leaf_of_not_parts ?_
  rintro ⟨v, rfl, ⟨hsearch, hv, -⟩ | ⟨rfl, hmeet⟩⟩
  · have hsome := htext (by cases operator <;> first | rfl | cases hsearch) v rfl
    rw [hv] at hsome
    cases hsome
  · exact hmeet (hmeets v (List.mem_singleton_self v))

end Condition

end EntityStore
