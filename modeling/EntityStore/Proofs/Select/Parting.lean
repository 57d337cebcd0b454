import EntityStore.Proofs.Select.Filters
import EntityStore.Samples.Types

/-!
# Where a condition and a test part

A checked criterion on a terminal attribute is put to a value by two backends: in process by the test
of its operator, over tables by the condition on its column. The check lets null through for every
operator, and a search for null is where they part: the test finds it in no text, the pattern in
every one. The other literal that is let through without comparing is a NaN, from which every
number differs to the test, and none to the condition.
**The two agree over every value the attribute may hold, unless the criterion is a search for null or
asks for what differs from a NaN; such a criterion they answer alike for null only.**
-/

namespace EntityStore

/-- What an attribute of the kind may hold: null, or a value of the kind that is not a NaN. -/
structure ValueKind.Holds (kind : ValueKind) (x : Value) : Prop where
  kindOf : ∀ k, x.kind? = some k → k = kind
  number : x.isNaN = false

instance (kind : ValueKind) (x : Value) : Decidable (kind.Holds x) :=
  decidable_of_iff ((∀ k ∈ x.kind?, k = kind) ∧ x.isNaN = false)
    ⟨fun h => ⟨fun k hk => h.1 k hk, h.2⟩, fun h => ⟨fun k hk => h.kindOf k hk, h.number⟩⟩

/-- A search for null, or a question for what differs from a NaN. -/
def FilterOperator.Hollow (operator : FilterOperator) (operand : Operand) : Prop :=
  ∃ v, operand = .single v ∧
    (operator.isSearch = true ∧ v = .null ∨ operator = .notEqualTo ∧ v.isNaN = true)

namespace ValueKind

variable {kind : ValueKind} {x v : Value}

/-- What a textual kind accepts is a text, or null. -/
theorem text?_eq_none_of_accepts (htextual : kind.isTextual = true) (hv : kind.accepts v = true) :
    v.text? = none ↔ v = .null := by
  cases v with
  | null => exact iff_of_true rfl rfl
  | string s => exact iff_of_false nofun nofun
  | url s => exact iff_of_false nofun nofun
  | _ => cases kind <;> simp_all [accepts, Value.kind?, isTextual, isNumeric]

/-- What an attribute of a textual kind holds is a text, or null. -/
theorem Holds.isSome_text? (hx : kind.Holds x) (htextual : kind.isTextual = true) :
    x.text?.isSome = true ↔ x ≠ .null := by
  cases x with
  | null => exact iff_of_false nofun fun h => h rfl
  | string s => exact iff_of_true rfl nofun
  | url s => exact iff_of_true rfl nofun
  | _ =>
      obtain rfl := hx.kindOf _ rfl
      cases htextual

/-- A literal that a kind accepts fails to compare with a value of the kind if it is a NaN. -/
theorem Holds.not_meets (hx : kind.Holds x) (hv : kind.accepts v = true) :
    ¬ x.Meets v ↔ x ≠ .null ∧ v.isNaN = true := by
  constructor
  · intro hmeets
    refine ⟨fun hnull => hmeets (.inl hnull), ?_⟩
    by_contra hnan
    exact hmeets (Value.meets_of_accepts hx.kindOf hx.number hv (by simpa using hnan))
  · rintro ⟨hne, hnan⟩ (hnull | rfl | hsome)
    · exact hne hnull
    · cases hnan
    · cases v with
      | float y =>
          have hy : y.isNaN = true := hnan
          -- a NaN compares with no number, and what is no number compares with no float
          cases x <;>
            simp [Value.compare?, Value.compareNumbers?, Value.number?, Value.text?,
              Binary64.compare?, hy] at hsome
      | _ => cases hnan

end ValueKind

namespace Criterion

variable {c : Criterion} {a : Attribute} {kind : ValueKind}

/-- A search is let through for a textual kind only. -/
theorem isTextual_of_checkLast (h : c.checkLast a = .ok ()) (hkind : a.kind = .terminal (some kind))
    (hsearch : c.operator.isSearch = true) : kind.isTextual = true := by
  have htextual : c.operator.isTextual = true := by
    cases hop : c.operator <;> rw [hop] at hsearch <;> first | rfl | cases hsearch
  by_contra hnot
  unfold checkLast checkKind at h
  rw [hkind] at h
  dsimp only at h
  have hnot' : kind.isTextual = false := by simpa using hnot
  split at h
  · cases h
  · next hkindOk =>
    simp only [htextual, hnot', Bool.not_false, Bool.and_true, if_true] at hkindOk
    split at hkindOk <;> cases hkindOk

/-- Over a value of the declared kind a checked criterion parts where it is hollow. -/
theorem parts_iff_hollow (h : c.checkLast a = .ok ()) (hkind : a.kind = .terminal (some kind))
    {x : Value} (hx : kind.Holds x) :
    c.operator.Parts c.operand x ↔ x ≠ .null ∧ c.operator.Hollow c.operand := by
  have haccepts := accepts_of_checkLast h hkind
  constructor
  · rintro ⟨v, hv, hparts⟩
    have hmem : kind.accepts v = true := haccepts v (by rw [hv]; exact List.mem_singleton_self v)
    rcases hparts with ⟨hsearch, hneedle, htext⟩ | ⟨hop, hmeets⟩
    · have htextual := isTextual_of_checkLast h hkind hsearch
      exact ⟨(hx.isSome_text? htextual).mp htext, v, hv,
        .inl ⟨hsearch, (ValueKind.text?_eq_none_of_accepts htextual hmem).mp hneedle⟩⟩
    · obtain ⟨hne, hnan⟩ := (hx.not_meets hmem).mp hmeets
      exact ⟨hne, v, hv, .inr ⟨hop, hnan⟩⟩
  · rintro ⟨hne, v, hv, hhollow⟩
    have hmem : kind.accepts v = true := haccepts v (by rw [hv]; exact List.mem_singleton_self v)
    rcases hhollow with ⟨hsearch, rfl⟩ | ⟨hop, hnan⟩
    · have htextual := isTextual_of_checkLast h hkind hsearch
      exact ⟨.null, hv, .inl ⟨hsearch, rfl, (hx.isSome_text? htextual).mpr hne⟩⟩
    · exact ⟨v, hv, .inr ⟨hop, (hx.not_meets hmem).mpr ⟨hne, hnan⟩⟩⟩

end Criterion

namespace Condition

variable {env : RowEnv} {column : Column} {operator : FilterOperator}
  {operand : Operand}

/-- A search that parts finds the empty text and passes nothing. -/
theorem truth_search_of_no_needle (tables : Tables) {v : Value} (hsearch : operator.isSearch = true)
    (hv : v.text? = none) (hx : (env.value column).text?.isSome = true) :
    (leaf column operator (.single v)).truth tables env = some true ∧
      operator.test (.single v) (env.value column) = false := by
  obtain ⟨s, hs⟩ := Option.isSome_iff_exists.mp hx
  have htest : ∀ test, (env.value column).textTest test v = false := by
    intro test
    rw [Value.textTest, hs, hv]
  have hempty : (v.text?.getD "").toList = [] := by rw [hv]; rfl
  cases operator with
  | startsWith =>
      refine ⟨(truth_startsWith v).mpr ⟨s, hs, ?_⟩, by rw [FilterOperator.test]; exact htest _⟩
      rw [hempty, List.isPrefixOf_nil_left]
  | endsWith =>
      refine ⟨(truth_endsWith v).mpr ⟨s, hs, ?_⟩, by rw [FilterOperator.test]; exact htest _⟩
      rw [hempty, List.isSuffixOf_iff_suffix]
      exact List.nil_suffix
  | contains =>
      refine ⟨(truth_contains v).mpr ⟨s, hs, ?_⟩, by rw [FilterOperator.test]; exact htest _⟩
      rw [hempty, Text.occursIn_iff]
      exact List.nil_infix
  | _ => cases hsearch

/-- A value differs, to the test, from a literal it does not compare with; to the condition it may or
may not. -/
theorem truth_notEqualTo_of_not_meets (tables : Tables) {v : Value} (hmeets : ¬ (env.value column).Meets v) :
    (leaf column .notEqualTo (.single v)).truth tables env = none ∧
      FilterOperator.notEqualTo.test (.single v) (env.value column) = true := by
  rw [Value.Meets, not_or, not_or] at hmeets
  obtain ⟨hx, hv, hnone⟩ := hmeets
  have hcompare : (env.value column).compare? v = none := by simpa using hnone
  rw [leaf_notEqualTo, if_neg hv, truth_compare, FilterOperator.test_notEqualTo, if_neg hv,
    Value.agrees, hcompare, Value.isNull_eq_false_iff.mpr hx]
  exact ⟨rfl, rfl⟩

/-- **A condition and a test agree over a value exactly if they do not part over it.** -/
theorem truth_leaf_iff_test_iff_not_parts {tables : Tables} :
    ((leaf column operator operand).truth tables env = some true
        ↔ operator.test operand (env.value column) = true)
      ↔ ¬ operator.Parts operand (env.value column) := by
  refine ⟨?_, truth_leaf_of_not_parts⟩
  rintro hagree ⟨v, rfl, ⟨hsearch, hv, hx⟩ | ⟨rfl, hmeets⟩⟩
  · obtain ⟨htruth, htest⟩ := truth_search_of_no_needle tables hsearch hv hx
    rw [hagree.mp htruth] at htest
    cases htest
  · obtain ⟨htruth, htest⟩ := truth_notEqualTo_of_not_meets tables hmeets
    rw [hagree.mpr htest] at htruth
    cases htruth

variable {schema : Schema} {root : String} {c : Criterion} {steps : List Step} {last : Step}
  {kind? : Option ValueKind} {tables : Tables}

/-- **A checked criterion on a terminal attribute is answered alike by its condition and by its test,
unless the two part over the value.** Where the attribute declares a kind, they part over every value
but null if the criterion is hollow, and over none if it is not. -/
theorem answers_alike_iff (hresolve : c.resolve schema root = .ok steps)
    (hlast : steps.getLast? = some last) (hkind : last.attr.kind = .terminal kind?)
    (hheld : ∀ kind ∈ kind?, kind.Holds (env.value column)) :
    (((leaf column c.operator c.operand).truth tables env = some true
          ↔ c.operator.test c.operand (env.value column) = true)
        ↔ ¬ c.operator.Parts c.operand (env.value column)) ∧
      ∀ kind ∈ kind?,
        (((leaf column c.operator c.operand).truth tables env = some true
            ↔ c.operator.test c.operand (env.value column) = true)
          ↔ (c.operator.Hollow c.operand → env.value column = .null)) := by
  refine ⟨truth_leaf_iff_test_iff_not_parts, fun kind hdeclared => ?_⟩
  obtain ⟨-, last', hlast', hcheck⟩ := Criterion.resolve_inv hresolve
  obtain rfl : last' = last := Option.some.inj (hlast'.symm.trans hlast)
  rw [Option.mem_def.mp hdeclared] at hkind
  rw [truth_leaf_iff_test_iff_not_parts,
    Criterion.parts_iff_hollow hcheck hkind (hheld kind hdeclared), not_and, not_imp_not]

open Samples

/-- A tag's row under a label. -/
def tagShown : RowEnv := [("t0", [("name", .string "red"), ("weight", .float Binary64.zero)])]

/-- Whether the name of a tag begins with `re` is answered alike. -/
theorem answers_alike_byPrefix :
    let c : Criterion := ⟨"name", .startsWith, .single (.string "re")⟩
    ∃ steps last,
      c.resolve (Schema.ofList [tag]) "tag" = .ok steps ∧ steps.getLast? = some last ∧
        last.attr.kind = .terminal (some .string) ∧
        ValueKind.string.Holds (tagShown.value ⟨"t0", "name"⟩) ∧
        ((leaf ⟨"t0", "name"⟩ c.operator c.operand).truth (fun _ => []) tagShown = some true
          ↔ c.operator.test c.operand (tagShown.value ⟨"t0", "name"⟩) = true) := by
  intro c
  have hresolve : c.resolve (Schema.ofList [tag]) "tag" = .ok [⟨terminal "name" .string, tag⟩] := by
    cbv
  have hheld : ∀ kind ∈ some ValueKind.string, kind.Holds (tagShown.value ⟨"t0", "name"⟩) := by
    rintro kind ⟨⟩
    decide
  refine ⟨_, _, hresolve, rfl, rfl, hheld .string rfl, ?_⟩
  refine ((answers_alike_iff hresolve rfl rfl hheld).2 .string rfl).mpr ?_
  rintro ⟨v, hv, ⟨-, rfl⟩ | ⟨hop, -⟩⟩
  · cases hv
  · cases hop

/-- Whether the name of a tag begins with null is asked and answered differently: the condition is
true of the tag called `red`, which the test does not pass. -/
theorem not_answers_alike_of_search_for_null :
    let c : Criterion := ⟨"name", .startsWith, .single .null⟩
    (c.resolve (Schema.ofList [tag]) "tag").toOption.isSome = true ∧
      ValueKind.string.Holds (tagShown.value ⟨"t0", "name"⟩) ∧
      (leaf ⟨"t0", "name"⟩ c.operator c.operand).truth (fun _ => []) tagShown = some true ∧
      c.operator.test c.operand (tagShown.value ⟨"t0", "name"⟩) = false := by
  decide +kernel

end Condition

end EntityStore
