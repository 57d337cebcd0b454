import EntityStore.Proofs.Entity.Agreeing
import EntityStore.Proofs.Filter.Passing
import EntityStore.Proofs.QueryText.Readings
import EntityStore.Proofs.QueryText.Rereading

/-!
# Criteria of identity read back

A criterion that asks whether a value is one of some values, or none of them, is always written. Its
text is understood as a criterion on what the values are read as, of which equal ones are kept once
and an empty string not at all. **The same values pass both just when every value is restored**: every
number is finite, no text is empty or reads as a timestamp, and every timestamp shows a year of four
digits and its leap second at the end of a minute. In a list the text of a timestamp with a longer
year may stand in for another value of the list that has these characters, and another timestamp of
that instant for the timestamp.
-/

namespace EntityStore.QueryText

open Text

/-! ## Values as they are read -/

/-- The value agrees with one of the values. -/
def AgreesWith (vs : List Value) (x : Value) : Prop := ∃ v ∈ vs, x.agrees v = true

/-- The value agrees with one of the values as they are read; an empty string is dropped. -/
def AgreesAsRead (vs : List Value) (x : Value) : Prop :=
  ∃ v ∈ vs, reading v ≠ .string "" ∧ x.agrees (reading v) = true

/-- The values that are read, as the reader keeps them. -/
def keptReadings (vs : List Value) : List Value :=
  (distinctLiterals [] (vs.map fun v => .value (reading v))).filterMap Literal.value?

/-- What is read of a text is a text of the same characters, or a timestamp. -/
theorem text_classify {cs : List Char} {s : String} (h : (classify cs).text? = some s) :
    s = String.ofList cs ∧ Timestamp.ofLiteral? cs = none := by
  unfold classify at h
  split at h
  · cases h
  case h_2 hnone =>
    split at h
    · exact ⟨(Option.some.inj h).symm, hnone⟩
    · exact ⟨(Option.some.inj h).symm, hnone⟩

theorem classify_eq_timestamp {cs : List Char} {t : Timestamp} (h : classify cs = .timestamp t) :
    Timestamp.ofLiteral? cs = some t := by
  unfold classify at h
  split at h
  case h_1 u hu =>
    rw [hu, Value.timestamp.inj h]
  case h_2 =>
    split at h
    · cases h
    · cases h

theorem text_classify_of_none {cs : List Char} (h : Timestamp.ofLiteral? cs = none) :
    (classify cs).text? = some (String.ofList cs) := by
  unfold classify
  rw [h]
  dsimp only
  split <;> rfl

/-- Only texts and timestamps may be read as other values. -/
inductive ReadAsText : Value → String → Prop
  | text {v : Value} {s : String} (h : v.text? = some s) : ReadAsText v s
  | timestamp (t : Timestamp) : ReadAsText (.timestamp t) t.toText

theorem ReadAsText.reading_eq {v : Value} {s : String} (h : ReadAsText v s) :
    reading v = classify s.toList := by
  cases h with
  | timestamp t => rfl
  | text h =>
      cases v with
      | string s' | url s' =>
          obtain rfl := Option.some.inj h
          rfl
      | _ => cases h

/-- Any other value is read as itself. -/
theorem readAsText_or (v : Value) :
    (∃ s, ReadAsText v s) ∨ reading v = v ∧ v.text? = none ∧ ∀ t, v ≠ .timestamp t := by
  cases v with
  | string s => exact .inl ⟨s, .text rfl⟩
  | url s => exact .inl ⟨s, .text rfl⟩
  | timestamp t => exact .inl ⟨_, .timestamp t⟩
  | _ => exact .inr ⟨rfl, rfl, by simp⟩

/-- A value that has a literal is read as one that equals itself. -/
theorem reading_same_self {v : Value} (h : HasLiteral v) : (reading v).same (reading v) = true := by
  have htext : ∀ cs, (classify cs).same (classify cs) = true := by
    intro cs
    refine Value.same_self ?_
    unfold classify
    split
    · rfl
    · split <;> rfl
  rcases readAsText_or v with ⟨s, hs⟩ | ⟨hself, -, -⟩
  · rw [hs.reading_eq]
    exact htext s.toList
  · rw [hself]
    cases v with
    | float x => exact Value.same_self (Binary64.isNaN_of_isFinite h)
    | _ => exact Value.same_self rfl

/-- **What agrees with the values that are kept agrees with one that is read.** -/
theorem any_keptReadings {vs : List Value} (h : ∀ v ∈ vs, HasLiteral v) (x : Value) :
    ((keptReadings vs).any fun v => x.agrees v) = true ↔ AgreesAsRead vs x := by
  have hempty : ∀ v : Value, isEmptyString (.value v) = true ↔ v = .string "" := by
    intro v
    cases v <;> simp [isEmptyString]
  rw [List.any_eq_true]
  constructor
  · rintro ⟨r, hr, hagrees⟩
    obtain ⟨l, hl, hvalue⟩ := List.mem_filterMap.mp hr
    rcases mem_of_mem_distinctLiterals hl with hmem | hmem
    · cases hmem
    · obtain ⟨v, hv, rfl⟩ := List.mem_map.mp hmem
      obtain rfl := Option.some.inj hvalue
      refine ⟨v, hv, fun heq => ?_, hagrees⟩
      have hcounts := isEmptyString_of_mem_distinctLiterals (fun k hk => (by cases hk)) _ hl
      rw [(hempty _).mpr heq] at hcounts
      cases hcounts
  · rintro ⟨v, hv, hne, hagrees⟩
    have hmem : Literal.value (reading v) ∈ vs.map fun v => Literal.value (reading v) :=
      List.mem_map_of_mem hv
    obtain ⟨k, hk, hsame⟩ := @exists_same_of_mem [] _ _ hmem (reading_same_self (h v hv))
      (Bool.eq_false_iff.mpr fun heq => hne ((hempty _).mp heq))
    cases k with
    | range low high => cases hsame
    | value r =>
        refine ⟨r, List.mem_filterMap.mpr ⟨_, hk, rfl⟩, ?_⟩
        rw [Value.agrees_of_same hsame]
        exact hagrees

/-! ## Values that are restored -/

/-- What is asked of the values of a criterion for its text to ask about the same values. -/
structure Restorable (vs : List Value) : Prop where
  /-- Numbers are finite. -/
  literals : ∀ v ∈ vs, HasLiteral v
  /-- No text is empty or reads as a timestamp. -/
  texts : ∀ v ∈ vs, ∀ s, v.text? = some s → s ≠ "" ∧ Timestamp.ofLiteral? s.toList = none
  /-- A leap second stands at the end of a minute. -/
  leaps : ∀ t, .timestamp t ∈ vs → t.RegularLeap
  /-- Each instant is shown with a year of four digits. -/
  instants : ∀ t, .timestamp t ∈ vs → ∃ u, .timestamp u ∈ vs ∧ u.ShortYear ∧ u.instant = t.instant
  /-- What a longer year makes of a timestamp is one of the texts. -/
  longYears : ∀ t, .timestamp t ∈ vs → t.ShortYear ∨ ∃ v ∈ vs, v.text? = some t.toText

section Restored

variable {vs : List Value}

/-- A timestamp whose year has four digits is read as itself. -/
theorem reading_of_shortYear {t : Timestamp} (h : t.Proper) (hleap : t.RegularLeap)
    (hyear : t.ShortYear) : reading (.timestamp t) = .timestamp t := by
  rw [reading, classify, Timestamp.ofLiteral?_toText (h.readable hleap hyear) hyear]

/-- Restored values are agreed with as they are read. -/
theorem Restorable.agreesAsRead_iff (h : Restorable vs) (hproper : ∀ t, .timestamp t ∈ vs → t.Proper)
    (x : Value) : AgreesAsRead vs x ↔ AgreesWith vs x := by
  have htext : ∀ v ∈ vs, ∀ s, v.text? = some s → reading v ≠ .string "" ∧
      x.agrees (reading v) = x.agrees v := by
    intro v hv s hs
    obtain ⟨hne, hnone⟩ := h.texts v hv s hs
    have hread : (reading v).text? = some s := by
      rw [(ReadAsText.text hs).reading_eq, text_classify_of_none hnone, String.ofList_toList]
    refine ⟨fun heq => hne ?_, ?_⟩
    · rw [heq] at hread
      exact (Option.some.inj hread).symm
    · rw [Value.agrees_of_text hread, Value.agrees_of_text hs]
  constructor
  · rintro ⟨v, hv, hne, hagrees⟩
    rcases readAsText_or v with ⟨s, hs⟩ | ⟨hself, -, -⟩
    · cases hs with
      | text hs => exact ⟨v, hv, (htext v hv s hs).2 ▸ hagrees⟩
      | timestamp t =>
          by_cases hyear : t.ShortYear
          · rw [reading_of_shortYear (hproper t hv) (h.leaps t hv) hyear] at hagrees
            exact ⟨_, hv, hagrees⟩
          · obtain ⟨hread, -⟩ := classify_of_longYear (hproper t hv) hyear
            obtain ⟨w, hw, hwtext⟩ := (h.longYears t hv).resolve_left hyear
            rw [reading, hread, Value.agrees_of_text rfl] at hagrees
            exact ⟨w, hw, by rw [Value.agrees_of_text hwtext, hagrees]⟩
    · exact ⟨v, hv, hself ▸ hagrees⟩
  · rintro ⟨v, hv, hagrees⟩
    rcases readAsText_or v with ⟨s, hs⟩ | ⟨hself, hnotext, -⟩
    · cases hs with
      | text hs =>
          obtain ⟨hne, heq⟩ := htext v hv s hs
          exact ⟨v, hv, hne, heq ▸ hagrees⟩
      | timestamp t =>
          -- the timestamp of that instant which shows four digits
          obtain ⟨u, hu, hyear, hinstant⟩ := h.instants t hv
          have hread := reading_of_shortYear (hproper u hu) (h.leaps u hu) hyear
          obtain ⟨x', rfl, hx⟩ := Value.agrees_timestamp_iff.mp hagrees
          refine ⟨_, hu, by rw [hread]; simp, ?_⟩
          rw [hread]
          exact Value.agrees_timestamp_iff.mpr ⟨x', rfl, hx.trans hinstant.symm⟩
    · refine ⟨v, hv, fun heq => ?_, hself.symm ▸ hagrees⟩
      rw [← hself, heq] at hnotext
      cases hnotext

/-- A timestamp that is read belongs to a text that reads as one, or shows four digits of a year. -/
theorem readable_of_reading {v : Value} {u : Timestamp} (hproper : ∀ t, v = .timestamp t → t.Proper)
    (h : reading v = .timestamp u) : Timestamp.Readable u ∧
      ((∃ s, v.text? = some s ∧ Timestamp.ofLiteral? s.toList = some u) ∨
        ∃ t, v = .timestamp t ∧ t.ShortYear) := by
  rcases readAsText_or v with ⟨s, hs⟩ | ⟨hself, -, hne⟩
  · have hread := classify_eq_timestamp (hs.reading_eq ▸ h)
    refine ⟨Timestamp.readable_of_ofLiteral? hread, ?_⟩
    cases hs with
    | text hs => exact .inl ⟨s, hs, hread⟩
    | timestamp t =>
        refine .inr ⟨t, rfl, ?_⟩
        by_contra hyear
        rw [(Timestamp.ofLiteral?_of_longYear (hproper t rfl) hyear).2] at hread
        cases hread
  · exact absurd (hself.symm.trans h) (hne u)

/-- **Values are agreed with as they are read only if they are restored.** Each of them is asked
about, and so is the text of each timestamp. -/
theorem restorable_of_agreesAsRead_iff (hliterals : ∀ v ∈ vs, HasLiteral v)
    (hproper : ∀ t, .timestamp t ∈ vs → t.Proper) (h : ∀ x, AgreesAsRead vs x ↔ AgreesWith vs x) :
    Restorable vs := by
  have htexts : ∀ v ∈ vs, ∀ s, v.text? = some s → s ≠ "" ∧ Timestamp.ofLiteral? s.toList = none := by
    intro v hv s hs
    obtain ⟨w, hw, hne, hagrees⟩ := (h (.string s)).mpr ⟨v, hv, Value.string_agrees_iff.mpr hs⟩
    have hread := Value.string_agrees_iff.mp hagrees
    rcases readAsText_or w with ⟨s', hs'⟩ | ⟨hself, hnotext, -⟩
    · rw [hs'.reading_eq] at hread hne
      obtain ⟨hsame, hnone⟩ := text_classify hread
      rw [String.ofList_toList] at hsame
      subst hsame
      refine ⟨?_, hnone⟩
      rintro rfl
      exact hne rfl
    · rw [hself, hnotext] at hread
      cases hread
  -- what is read as a timestamp of this instant
  have hinstants : ∀ t, .timestamp t ∈ vs → ∃ u w, Timestamp.Readable u ∧ .timestamp w ∈ vs ∧
      w.ShortYear ∧ reading (.timestamp w) = .timestamp u ∧ u.instant = t.instant := by
    intro t ht
    obtain ⟨v, hv, -, hagrees⟩ :=
      (h (.timestamp t)).mpr ⟨_, ht, Value.instants_agree_iff.mpr rfl⟩
    obtain ⟨u, hread, hinstant⟩ := Value.timestamp_agrees_iff.mp hagrees
    obtain ⟨hu, htext | htime⟩ := readable_of_reading (fun w hw => hproper w (hw ▸ hv)) hread
    · obtain ⟨s, hs, htime⟩ := htext
      rw [(htexts v hv s hs).2] at htime
      cases htime
    · obtain ⟨w, rfl, hyear⟩ := htime
      exact ⟨u, w, hu, hv, hyear, hread, hinstant⟩
  have hleaps : ∀ t, .timestamp t ∈ vs → t.RegularLeap := by
    intro t ht
    obtain ⟨u, w, hu, -, -, -, hinstant⟩ := hinstants t ht
    obtain ⟨-, hsecond, hnano⟩ : t.day = u.day ∧ t.second = u.second ∧ t.nano = u.nano := by
      simpa [Timestamp.instant] using hinstant.symm
    unfold Timestamp.RegularLeap
    rw [hsecond, hnano]
    exact hu.proper.2
  refine ⟨hliterals, htexts, hleaps, fun t ht => ?_, fun t ht => ?_⟩
  · obtain ⟨u, w, -, hw, hyear, hread, hinstant⟩ := hinstants t ht
    rw [reading_of_shortYear (hproper w hw) (hleaps w hw) hyear] at hread
    obtain rfl := Value.timestamp.inj hread
    exact ⟨w, hw, hyear, hinstant⟩
  · by_cases hyear : t.ShortYear
    · exact .inl hyear
    · obtain ⟨hread, hne⟩ := classify_of_longYear (hproper t ht) hyear
      obtain ⟨v, hv, hagrees⟩ := (h (.string t.toText)).mp ⟨_, ht, by
        rw [reading, hread]
        exact ⟨by simpa using hne, Value.string_agrees_iff.mpr rfl⟩⟩
      exact .inr ⟨v, hv, Value.string_agrees_iff.mp hagrees⟩

end Restored

/-! ## Criteria of identity -/

/-- The criteria of identity: one value to equal or not, or a list of values. -/
inductive OfIdentity : Criterion → Prop
  | single (path : String) {op : FilterOperator} (v : Value) (h : op = .equalTo ∨ op = .notEqualTo) :
      OfIdentity ⟨path, op, .single v⟩
  | list (path : String) {op : FilterOperator} (vs : List Value)
      (h : op = .contained ∨ op = .notContained) : OfIdentity ⟨path, op, .list vs⟩

theorem isIdentity_iff {op : FilterOperator} : op.isIdentity = true ↔
    (op = .equalTo ∨ op = .notEqualTo) ∨ op = .contained ∨ op = .notContained := by
  cases op <;> simp [FilterOperator.isIdentity]

theorem ofIdentity {c : Criterion} (hidentity : c.operator.isIdentity = true)
    (harity : c.operand.arity = c.operator.arity) : OfIdentity c := by
  obtain ⟨path, op, operand⟩ := c
  rcases isIdentity_iff.mp hidentity with hop | hop
  · have hsingle : operand.arity = .single := by rcases hop with rfl | rfl <;> exact harity
    cases operand with
    | single v => exact .single path v hop
    | range low high => cases hsingle
    | list vs => cases hsingle
  · have hlist : operand.arity = .list := by rcases hop with rfl | rfl <;> exact harity
    cases operand with
    | single v => cases hlist
    | range low high => cases hlist
    | list vs => exact .list path vs hop

/-- How a criterion of identity is written. -/
def writtenIdentity (c : Criterion) : WrittenCriterion :=
  ⟨writtenPath c.path, c.operator.name, c.operand.values.map Value.toText, c.operator.arity != .list⟩

/-- What the text of a criterion of identity is understood as. -/
def readBack (c : Criterion) : Criterion :=
  match c.operand with
  | .single v =>
    if reading v = .string "" then ⟨c.path, .contained, .list []⟩
    else ⟨c.path, c.operator, .single (reading v)⟩
  | operand => ⟨c.path, c.operator, .list (keptReadings operand.values)⟩

theorem path_readBack (c : Criterion) : (readBack c).path = c.path := by
  unfold readBack
  split
  · split <;> rfl
  · rfl

theorem isWord_operatorName (op : FilterOperator) : IsWord op.name.toList := by
  cases op <;> exact isWord_of_all rfl rfl

section Understood

variable {path : String} {op : FilterOperator}

theorem operatorOf?_name (op : FilterOperator) : operatorOf? op.name = some (op, false) := by
  rw [operatorOf?, FilterOperator.ofName?_name]

/-- A list is understood as what is kept of it. -/
theorem toSpec_list (hpath : IsAttributePath path) (hop : op = .contained ∨ op = .notContained)
    (vs : List Value) (position : Nat) :
    (RawCriterion.mk ((writtenSegments path).map String.ofList) op.name
      (vs.map fun v => .value (reading v)) position).toSpec
        = .ok (.criterion ⟨path, op, .list (keptReadings vs)⟩) := by
  have harity : op.arity = .list := Clause.arity_list_iff.mpr hop
  have hfits : ∀ l ∈ vs.map fun v => Literal.value (reading v), l.fits op.arity = true := by
    rw [harity, List.forall_mem_map]
    exact fun _ _ => rfl
  have hspec := Clause.toSpec_of_kept (c := ⟨path, op, false, _⟩) hpath (operatorOf?_name op) hfits
    (fun _ => ⟨rfl, harity⟩) position
  rw [Clause.leaves, if_pos harity, Clause.any_singleton_leaf] at hspec
  exact hspec

/-- A value is understood as what it is read as, and an empty string as an empty list. -/
theorem toSpec_single (hpath : IsAttributePath path) (hop : op = .equalTo ∨ op = .notEqualTo)
    (v : Value) (position : Nat) :
    (RawCriterion.mk ((writtenSegments path).map String.ofList) op.name [.value v] position).toSpec
      = .ok (.criterion (if v = .string "" then ⟨path, .contained, .list []⟩
          else ⟨path, op, .single v⟩)) := by
  have hempty : isEmptyString (.value v) = true ↔ v = .string "" := by
    cases v <;> simp [isEmptyString]
  by_cases hv : v = .string ""
  · have hkept : distinctLiterals [] [Literal.value v] = [] := by
      rw [distinctLiterals, hempty.mpr hv]
      rfl
    have hcontained : (if op = .notContained ∧ false = false then FilterOperator.notContained
        else .contained) = .contained := by
      rcases hop with rfl | rfl <;> rfl
    rw [if_pos hv, RawCriterion.toSpec, operatorOf?_name, hpath.attributePath_eq]
    dsimp only
    rw [hkept, hcontained]
    exact Clause.leaf_eq ⟨path, .contained, false, []⟩ hpath.ne_empty rfl
  · have hkept : distinctLiterals [] [Literal.value v] = [.value v] := by
      rw [distinctLiterals, Bool.eq_false_iff.mpr fun heq => hv (hempty.mp heq)]
      rfl
    have harity : op.arity = .single := by rcases hop with rfl | rfl <;> rfl
    have hfits : ∀ l ∈ [Literal.value v], l.fits op.arity = true := by
      rw [harity, List.forall_mem_singleton]
      rfl
    have hspec := Clause.toSpec_of_kept (c := ⟨path, op, false, [.value v]⟩) hpath
      (operatorOf?_name op) hfits (fun hk => by rw [Clause.kept, hkept] at hk; cases hk) position
    rw [Clause.kept, hkept, Clause.leaves, if_neg (by rw [harity]; simp), List.map_singleton,
      Clause.any_singleton_leaf] at hspec
    rw [if_neg hv]
    exact hspec

end Understood

namespace OfIdentity

variable {c : Criterion}

/-- **A criterion of identity is always written.** -/
theorem writeFilter_eq (h : OfIdentity c) : writeFilter (.criterion c) = .ok (writtenIdentity c).text := by
  cases h with
  | single path v h => rcases h with rfl | rfl <;> rfl
  | list path vs h => rcases h with rfl | rfl <;> rfl

/-- **The text of a criterion of identity is understood as the criterion on what is read.** -/
theorem parseFilter_eq (h : OfIdentity c) (hpath : IsPathName c.path)
    (hliterals : ∀ v ∈ c.operand.values, HasLiteral v) :
    parseFilter (writtenIdentity c).text = .ok (.criterion (readBack c)) := by
  have hvalues : List.Forall₂ ReadsLiteral ((writtenIdentity c).values.map String.toList)
      (c.operand.values.map fun v => .value (reading v)) := by
    rw [writtenIdentity, List.map_map, List.forall₂_map_left_iff, List.forall₂_map_right_iff]
    exact List.forall₂_same.mpr fun v hv => readsLiteral_reading (hliterals v hv)
  have hspec : ∀ position, (RawCriterion.mk ((writtenSegments c.path).map String.ofList)
      (writtenIdentity c).operator (c.operand.values.map fun v => .value (reading v))
      position).toSpec = .ok (.criterion (readBack c)) := by
    cases h with
    | single path v h => exact toSpec_single hpath.isAttributePath h (reading v)
    | list path vs h => exact toSpec_list hpath.isAttributePath h vs
  exact (reads_written hpath rfl (isWord_operatorName c.operator) hvalues hspec).parseFilter_eq

end OfIdentity

/-! ### What both ask -/

theorem reading_eq_null_iff {v : Value} : reading v = .null ↔ v = .null := by
  have htext : ∀ cs, classify cs ≠ .null := by
    intro cs
    unfold classify
    split
    · simp
    · split <;> simp
  cases v <;> simp [reading, htext]

/-- Only an empty text is read as an empty string. -/
theorem text_of_reading_empty {v : Value} (h : reading v = .string "") : v.text? = some "" := by
  rcases readAsText_or v with ⟨s, hs⟩ | ⟨hself, hnotext, -⟩
  · have hread : (classify s.toList).text? = some "" := by
      rw [← hs.reading_eq, h]
      rfl
    obtain ⟨hempty, -⟩ := text_classify hread
    rw [String.ofList_toList] at hempty
    cases hs with
    | text hs => rw [hs, hempty]
    | timestamp t => exact absurd hempty.symm t.toText_ne_empty
  · rw [← hself, h] at hnotext
    cases hnotext

/-- What both sides say of null does not matter to a negated question. -/
theorem forall_negated_iff {a b : Value → Bool} (ha : a .null = false) (hb : b .null = false) :
    (∀ x : Value, (!x.isNull && !a x) = (!x.isNull && !b x)) ↔ ∀ x, a x = b x := by
  constructor
  · intro h x
    cases hx : x.isNull with
    | false => simpa [hx] using h x
    | true =>
        obtain rfl : x = .null := by cases x <;> first | rfl | cases hx
        rw [ha, hb]
  · intro h x
    rw [h x]

theorem any_agrees_null (vs : List Value) : (vs.any fun v => Value.null.agrees v) = false := by
  simp [Value.null_agrees]

/-- Both lists are agreed with by the same values just when the values are restored. -/
theorem any_keptReadings_eq_iff {vs : List Value} (hliterals : ∀ v ∈ vs, HasLiteral v)
    (hproper : ∀ t, .timestamp t ∈ vs → t.Proper) :
    (∀ x : Value, ((keptReadings vs).any fun v => x.agrees v) = vs.any fun v => x.agrees v)
      ↔ Restorable vs := by
  have hagree : (∀ x, AgreesAsRead vs x ↔ AgreesWith vs x) ↔ Restorable vs :=
    ⟨restorable_of_agreesAsRead_iff hliterals hproper, fun h => h.agreesAsRead_iff hproper⟩
  rw [← hagree]
  refine forall_congr' fun x => ?_
  rw [Bool.eq_iff_iff, any_keptReadings hliterals x, List.any_eq_true]
  rfl

/-- So are a value and what it is read as, unless that is dropped. -/
theorem agrees_reading_eq_iff {v : Value} (hliteral : HasLiteral v)
    (hproper : ∀ t, v = .timestamp t → t.Proper) (hne : reading v ≠ .string "") :
    (∀ x : Value, x.agrees (reading v) = x.agrees v) ↔ Restorable [v] := by
  have hliterals : ∀ w ∈ [v], HasLiteral w := List.forall_mem_singleton.mpr hliteral
  rw [← any_keptReadings_eq_iff hliterals fun t ht => hproper t (List.mem_singleton.mp ht).symm]
  refine forall_congr' fun x => ?_
  have hkept := any_keptReadings hliterals x
  have hread : AgreesAsRead [v] x ↔ x.agrees (reading v) = true := by simp [AgreesAsRead, hne]
  rw [Bool.eq_iff_iff.mpr (hkept.trans hread), List.any_cons, List.any_nil, Bool.or_false]

/-- A value that is dropped is not restored. -/
theorem not_restorable_of_reading_empty {v : Value} (h : reading v = .string "") : ¬ Restorable [v] :=
  fun hv => (hv.texts v List.mem_cons_self "" (text_of_reading_empty h)).1 rfl

theorem restorable_null : Restorable [.null] where
  literals := by simp [HasLiteral]
  texts := by simp [Value.text?]
  leaps := by simp
  instants := by simp
  longYears := by simp

/-- **A criterion of identity and what its text is understood as ask about the same values just when
the values are restored.** -/
theorem OfIdentity.tests_eq_iff {c : Criterion} (h : OfIdentity c)
    (hliterals : ∀ v ∈ c.operand.values, HasLiteral v)
    (hproper : ∀ t, .timestamp t ∈ c.operand.values → t.Proper) :
    (∀ x, (readBack c).operator.test (readBack c).operand x = c.operator.test c.operand x)
      ↔ Restorable c.operand.values := by
  cases h with
  | list path vs hop =>
      have hlists := any_keptReadings_eq_iff hliterals hproper
      rcases hop with rfl | rfl
      · exact hlists
      · exact (forall_negated_iff (any_agrees_null _) (any_agrees_null _)).trans hlists
  | @single path op v hop =>
      change _ ↔ Restorable [v]
      by_cases hempty : reading v = .string ""
      · -- what is left is an empty list, which nothing passes
        have hback : readBack ⟨path, op, .single v⟩ = ⟨path, .contained, .list []⟩ := if_pos hempty
        rw [hback]
        refine iff_of_false (fun hsame => ?_) (not_restorable_of_reading_empty hempty)
        have htext := text_of_reading_empty hempty
        have hv : v ≠ .null := by
          rintro rfl
          cases htext
        rcases hop with rfl | rfl
        · have hself : false = FilterOperator.equalTo.test (.single v) (.string "") := hsame (.string "")
          rw [FilterOperator.test_equalTo, if_neg hv, Value.agrees_of_text htext] at hself
          cases hself
        · have hbool : false = FilterOperator.notEqualTo.test (.single v) (.bool true) := hsame (.bool true)
          rw [FilterOperator.test_notEqualTo, if_neg hv, Value.agrees_of_text htext] at hbool
          cases hbool
      · have hsame := agrees_reading_eq_iff (hliterals v List.mem_cons_self)
          (fun t ht => hproper t (ht ▸ List.mem_cons_self)) hempty
        by_cases hnull : v = .null
        · subst hnull
          exact iff_of_true (fun _ => rfl) restorable_null
        · have hback : readBack ⟨path, op, .single v⟩ = ⟨path, op, .single (reading v)⟩ := if_neg hempty
          have hread : reading v ≠ .null := fun heq => hnull (reading_eq_null_iff.mp heq)
          rw [hback, ← hsame]
          rcases hop with rfl | rfl
          · simp only [FilterOperator.test_equalTo, if_neg hnull, if_neg hread]
          · simp only [FilterOperator.test_notEqualTo, if_neg hnull, if_neg hread]
            exact forall_negated_iff (Value.null_agrees _) (Value.null_agrees _)

/-! ## Whole criteria -/

/-- **A criterion of identity is always written, and its text is understood as one that asks the same
just when its path does not begin with a separator and its values are restored.** -/
theorem parseFilter_identity_iff {c : Criterion} (hidentity : c.operator.isIdentity = true)
    (harity : c.operand.arity = c.operator.arity) (hpath : IsAttributePath c.path)
    (hproper : ∀ t, .timestamp t ∈ c.operand.values → t.Proper) :
    ∃ text, writeFilter (.criterion c) = .ok text ∧
      ((∃ spec, parseFilter text = .ok spec ∧ spec.Restates c)
        ↔ IsPathName c.path ∧ Restorable c.operand.values) := by
  have h := ofIdentity hidentity harity
  refine ⟨_, h.writeFilter_eq, fun ⟨spec, hparse, hspec⟩ => ?_, fun ⟨hname, hrestorable⟩ => ?_⟩
  · have hword := isWord_operatorName c.operator
    have hname := isPathName_of_parseFilter (c := writtenIdentity c) hpath rfl hword hparse
    have hliterals := hasLiteral_of_parseFilter (c := writtenIdentity c) hpath rfl hword rfl hparse
    rw [h.parseFilter_eq hname hliterals] at hparse
    obtain rfl := Except.ok.inj hparse
    exact ⟨hname, (h.tests_eq_iff hliterals hproper).mp hspec.passes⟩
  · refine ⟨_, h.parseFilter_eq hname hrestorable.literals, fun c' hc' => ?_,
      (h.tests_eq_iff hrestorable.literals hproper).mpr hrestorable⟩
    rw [List.mem_singleton.mp hc', path_readBack]

/-- Values of five kinds, none of which is read as another. -/
def fiveValues : List Value :=
  [.string "ann", .url "https://x.org", .int 3, .float (Binary64.ofRatio false 5 2),
    .timestamp ⟨18690, 18367, 0, 60⟩]

theorem eq_of_timestamp_mem_fiveValues {t : Timestamp} (h : .timestamp t ∈ fiveValues) :
    t = ⟨18690, 18367, 0, 60⟩ := by
  simpa [fiveValues] using h

theorem restorable_fiveValues : Restorable fiveValues where
  literals := by decide +kernel
  texts := by
    have htexts : ∀ v ∈ fiveValues, ∀ s ∈ v.text?, s ≠ "" ∧ Timestamp.ofLiteral? s.toList = none := by
      decide +kernel
    exact fun v hv s hs => htexts v hv s hs
  leaps := by
    intro t ht
    rw [eq_of_timestamp_mem_fiveValues ht]
    exact .inl (by decide)
  instants := by
    intro t ht
    exact ⟨t, ht, by rw [eq_of_timestamp_mem_fiveValues ht]; decide +kernel, rfl⟩
  longYears := by
    intro t ht
    rw [eq_of_timestamp_mem_fiveValues ht]
    exact .inl (by decide +kernel)

/-- The five values are written as a list, and the text asks the same of every value as the list did. -/
theorem parseFilter_identity_iff_fiveValues :
    ∃ text, writeFilter (.criterion ⟨"owner.mark", .contained, .list fiveValues⟩) = .ok text ∧
      ∃ spec, parseFilter text = .ok spec ∧ spec.Restates ⟨"owner.mark", .contained, .list fiveValues⟩ := by
  have hproper : ∀ t, .timestamp t ∈ fiveValues → t.Proper := by
    intro t ht
    rw [eq_of_timestamp_mem_fiveValues ht]
    exact ⟨by decide, by decide, by decide⟩
  obtain ⟨text, hwrite, hread⟩ := parseFilter_identity_iff
    (c := ⟨"owner.mark", .contained, .list fiveValues⟩) rfl rfl (by decide) hproper
  exact ⟨text, hwrite, hread.mpr ⟨by decide, restorable_fiveValues⟩⟩

/-- Whether the text of the criterion asks something else of the value, or nothing that is understood. -/
def misasks (c : Criterion) (x : Value) : Bool :=
  match writeFilter (.criterion c) with
  | .error _ => false
  | .ok text =>
    match parseFilter text with
    | .error _ => true
    | .ok spec => spec.passes x != c.operator.test c.operand x

theorem exists_of_misasks {c : Criterion} {x : Value} (h : misasks c x = true) :
    ∃ text, writeFilter (.criterion c) = .ok text ∧
      ¬ ∃ spec, parseFilter text = .ok spec ∧ spec.Restates c := by
  unfold misasks at h
  split at h
  · cases h
  case h_2 text hwrite =>
    refine ⟨text, hwrite, ?_⟩
    rintro ⟨spec, hparse, hspec⟩
    rw [hparse] at h
    dsimp only at h
    rw [hspec.passes x, bne_self_eq_false] at h
    cases h

/-- **Not every criterion of identity asks the same after it is read back**: not one of an empty
string, of a string that reads as a timestamp, of infinity or of a year of five digits. -/
theorem not_restates_of_empty_or_timestamp_or_infinite_or_long_year :
    (∃ text, writeFilter (.criterion ⟨"name", .equalTo, .single (.string "")⟩) = .ok text ∧
      ¬ ∃ spec, parseFilter text = .ok spec ∧
        spec.Restates ⟨"name", .equalTo, .single (.string "")⟩) ∧
    (∃ text, writeFilter (.criterion
        ⟨"name", .equalTo, .single (.string "2021-03-04T05:06:07Z")⟩) = .ok text ∧
      ¬ ∃ spec, parseFilter text = .ok spec ∧
        spec.Restates ⟨"name", .equalTo, .single (.string "2021-03-04T05:06:07Z")⟩) ∧
    (∃ text, writeFilter (.criterion
        ⟨"age", .equalTo, .single (.float (Binary64.infinity false))⟩) = .ok text ∧
      ¬ ∃ spec, parseFilter text = .ok spec ∧
        spec.Restates ⟨"age", .equalTo, .single (.float (Binary64.infinity false))⟩) ∧
    ∃ text, writeFilter (.criterion
        ⟨"at", .equalTo, .single (.timestamp ⟨3789391, 0, 0, 0⟩)⟩) = .ok text ∧
      ¬ ∃ spec, parseFilter text = .ok spec ∧
        spec.Restates ⟨"at", .equalTo, .single (.timestamp ⟨3789391, 0, 0, 0⟩)⟩ :=
  ⟨exists_of_misasks (x := .string "") (by decide +kernel),
    exists_of_misasks (x := .string "2021-03-04T05:06:07Z") (by decide +kernel),
    exists_of_misasks (x := .null) (by decide +kernel),
    exists_of_misasks (x := .timestamp ⟨3789391, 0, 0, 0⟩) (by decide +kernel)⟩

end EntityStore.QueryText
