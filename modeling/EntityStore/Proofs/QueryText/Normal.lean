import EntityStore.Proofs.QueryText.Regular
import EntityStore.Proofs.QueryText.Values

/-!
# Normal filters

The filters a program builds from attribute names and plain literals: every composite has at least
two children and none of its own kind, and only leaves are negated. **Every normal filter is
written, and its text reads back as that filter**, provided that no path begins with a word the
reader takes for `and` or `or`. It takes them in any case of letters, so a path that begins with
`AND` is written and cannot be read.
-/

namespace EntityStore.QueryText

/-- The literals of a normal filter. A text must not read as a timestamp or an address, and an
address must read as one. -/
def NormalValue : Value → Prop
  | .null | .bool _ | .int _ => True
  | .string s => s ≠ "" ∧ Timestamp.ofLiteral? s.toList = none ∧ looksLikeUrl s.toList = false
  | .url s => looksLikeUrl s.toList = true
  | .float _ | .timestamp _ => False

/-- The operands of a normal filter. The bounds of a range are integers, and no value is repeated
in a list. -/
def NormalOperand : Operand → Prop
  | .single v => NormalValue v
  | .range low high => ∃ a b : Int64, low = .int a ∧ high = .int b
  | .list vs => (∀ v ∈ vs, NormalValue v) ∧ vs.Nodup

/-- A criterion with an operand of its operator's shape on a path of the given sort. It may be
negated if that is no operator of its own and has literals. -/
structure NormalLeaf (isPath : String → Prop) (c : Criterion) (negated : Bool) : Prop where
  path : isPath c.path
  arity : c.operand.arity = c.operator.arity
  operand : NormalOperand c.operand
  negation : negated = true → c.operand ≠ .list [] ∧
    c.operator ≠ .equalTo ∧ c.operator ≠ .contains ∧ c.operator ≠ .contained

/-- A normal filter over paths of the given sort. -/
abbrev Normal (isPath : String → Prop) : FilterSpec → Prop := Flat (NormalLeaf isPath)

/-! ## Literals -/

theorem textValue_of_normal {v : Value} (h : NormalValue v) : TextValue v ∧ StableValue v := by
  cases v with
  | string s => exact ⟨h.2, trivial⟩
  | url s => exact ⟨h, trivial⟩
  | float x => exact h.elim
  | timestamp t => exact h.elim
  | _ => exact ⟨trivial, trivial⟩

theorem not_isEmptyString_of_normal {v : Value} (h : NormalValue v) :
    isEmptyString (.value v) = false := by
  cases v with
  | string s =>
      obtain ⟨hne, -, -⟩ := h
      simpa [isEmptyString] using hne
  | _ => rfl

/-- Normal values that are the same are equal. -/
theorem eq_of_same_of_normal {v w : Value} (hv : NormalValue v) (hw : NormalValue w) (h : v.same w = true) :
    v = w := by
  cases v <;> cases w <;> simp_all [Value.same, NormalValue]

/-- Literals of a normal filter. -/
def NormalLiteral : Literal → Prop
  | .value v => NormalValue v
  | .range low high => ∃ a b : Int64, low = .int a ∧ high = .int b

theorem normalLiteral_of_mem {operand : Operand} (h : NormalOperand operand) :
    ∀ l ∈ operandLiterals operand, NormalLiteral l := by
  cases operand with
  | single v =>
      intro l hl
      rw [List.mem_singleton.mp hl]
      exact h
  | range low high =>
      intro l hl
      rw [List.mem_singleton.mp hl]
      exact h
  | list vs =>
      rw [operandLiterals, List.forall_mem_map]
      exact h.1

theorem NormalLiteral.readsLiteral {l : Literal} (h : NormalLiteral l) : ReadsLiteral l.text.toList l := by
  cases l with
  | value v =>
      obtain ⟨htext, hstable⟩ := textValue_of_normal h
      exact readsLiteral_of_stable htext hstable
  | range low high =>
      obtain ⟨a, b, rfl, rfl⟩ := h
      exact Literal.Formed.readsLiteral (l := .range _ _) ⟨⟨rfl, rfl⟩, trivial, trivial⟩ ⟨trivial, trivial⟩

theorem NormalLiteral.not_isEmptyString {l : Literal} (h : NormalLiteral l) :
    isEmptyString l = false := by
  cases l with
  | value v => exact not_isEmptyString_of_normal h
  | range low high => rfl

theorem NormalLiteral.eq_of_same {k l : Literal} (hk : NormalLiteral k) (hl : NormalLiteral l)
    (h : k.same l = true) : k = l := by
  cases k with
  | value v =>
      cases l with
      | value w => rw [eq_of_same_of_normal hk hl h]
      | range low high => cases h
  | range a b =>
      cases l with
      | value w => cases h
      | range c d =>
          obtain ⟨i, j, rfl, rfl⟩ := hk
          obtain ⟨i', j', rfl, rfl⟩ := hl
          rw [Literal.same, Bool.and_eq_true] at h
          have hlow : Value.int i = .int i' := eq_of_same_of_normal trivial trivial h.1
          have hhigh : Value.int j = .int j' := eq_of_same_of_normal trivial trivial h.2
          rw [hlow, hhigh]

/-! ## Normal filters are regular -/

namespace NormalLeaf

variable {c : Criterion} {negated : Bool}

theorem distinct {isPath : String → Prop} (h : NormalLeaf isPath c negated) : DistinctLiterals c := by
  have hoperand := h.operand
  rw [DistinctLiterals]
  cases hop : c.operand with
  | single v => exact List.pairwise_singleton _ _
  | range low high => exact List.pairwise_singleton _ _
  | list vs =>
      rw [hop] at hoperand
      obtain ⟨hnormal, hnodup⟩ := hoperand
      rw [operandLiterals, List.pairwise_map]
      refine hnodup.imp_of_mem fun {v w} hv hw hne => ?_
      by_contra hsame
      rw [Bool.not_eq_false] at hsame
      exact hne (eq_of_same_of_normal (hnormal v hv) (hnormal w hw) hsame)

theorem writableLeaf (h : NormalLeaf IsPathName c negated) : WritableLeaf c negated := by
  refine QueryText.writableLeaf h.path h.arity (fun l hl => ?_) (fun low high hop => ?_)
    fun hn => ⟨(h.negation hn).1, ?_⟩
  · have hnormal := normalLiteral_of_mem h.operand l hl
    exact ⟨hnormal.readsLiteral, hnormal.not_isEmptyString⟩
  · have hoperand := h.operand
    rw [hop] at hoperand
    obtain ⟨a, b, rfl, rfl⟩ := hoperand
    exact ⟨rfl, rfl⟩
  · obtain ⟨-, hequal, hcontains, hcontained⟩ := h.negation hn
    cases hop : c.operator with
    | equalTo => exact absurd hop hequal
    | contains => exact absurd hop hcontains
    | contained => exact absurd hop hcontained
    | _ => decide

end NormalLeaf

/-- The literals of a leaf of a normal filter are normal. -/
theorem allLiterals_partOf {isPath : String → Prop} {s : FilterSpec} (h : Normal isPath s) :
    (partOf s).AllLiterals NormalLiteral := by
  cases h with
  | criterion h => exact normalLiteral_of_mem h.operand
  | negation h => exact normalLiteral_of_mem h.operand
  | conjunction => trivial
  | disjunction => trivial

/-- **A normal filter is regular.** By induction on the filter; what joined clauses need is that
normal literals of one value are equal. -/
theorem Normal.regular {s : FilterSpec} (h : Normal IsPathName s) : Regular s := by
  induction h with
  | criterion h => exact .criterion h.writableLeaf h.distinct
  | negation h => exact .negation h.writableLeaf h.distinct
  | conjunction two flat _ ih => exact .conjunction two flat ih
  | @disjunction children two flat normal ih =>
      match children, two with
      | first :: second :: rest, _ =>
          refine .disjunction flat ih ?_
          have hparts : ∀ s ∈ first :: second :: rest,
              (partOf s).Distinct ∧ (partOf s).AllLiterals NormalLiteral :=
            fun s hs => ⟨Part.distinct_partOf (ih s hs), allLiterals_partOf (normal s hs)⟩
          refine Part.distinct_joinAll (q := NormalLiteral)
            (fun k l hk hl hsame => by rw [hk.eq_of_same hl hsame])
            (hparts first List.mem_cons_self) ?_
          rw [List.forall_mem_map]
          exact fun s hs => hparts s (List.mem_cons_of_mem _ hs)

/-- **A normal filter is written, and its text reads back as that filter.** -/
theorem parseFilter_writeFilter_of_normal (s : FilterSpec) (h : Normal IsPathName s) :
    ∃ t, writeFilter s = .ok t ∧ parseFilter t = .ok s :=
  Regular.parseFilter_writeFilter (Normal.regular h)

/-- A negative range or a negated text with a quote in it, on a nested path. -/
theorem parseFilter_writeFilter_range_or_text :
    ∃ t, writeFilter (.disjunction
          [ .criterion ⟨"age", .inRange, .range (.int (-5)) (.int (-2))⟩,
            .negation (.criterion ⟨"team.first_name", .startsWith, .single (.string "a\"b")⟩) ])
        = .ok t ∧
      parseFilter t = .ok (.disjunction
          [ .criterion ⟨"age", .inRange, .range (.int (-5)) (.int (-2))⟩,
            .negation (.criterion ⟨"team.first_name", .startsWith, .single (.string "a\"b")⟩) ]) := by
  have hage : IsPathName "age" := by decide
  have hname : IsPathName "team.first_name" := by decide
  have htext : NormalValue (.string "a\"b") := ⟨by decide, by rfl, by rfl⟩
  refine parseFilter_writeFilter_of_normal _ (.disjunction (by decide) ?_ ?_)
  · intro s hs nested
    rcases List.mem_cons.mp hs with rfl | hs
    · simp
    · rw [List.mem_singleton.mp hs]
      simp
  · intro s hs
    rcases List.mem_cons.mp hs with rfl | hs
    · exact .criterion ⟨hage, rfl, ⟨-5, -2, rfl, rfl⟩, by decide⟩
    · rw [List.mem_singleton.mp hs]
      exact .negation ⟨hname, rfl, htext, fun _ => by decide⟩

/-- Attribute names with dots between them, of which the first is neither `and` nor `or` as these
words are usually written. -/
def IsDottedName (path : String) : Prop :=
  (∀ segment ∈ Path.segments path, IsIdentifier segment.toList) ∧
    ∀ first ∈ (Path.segments path).head?, first ≠ "and" ∧ first ≠ "or"

/-- It takes more than that: a path that begins with `AND` is written, and the text is not read. -/
theorem not_parseFilter_writeFilter_of_dotted :
    ¬ ∀ s, Normal IsDottedName s → ∃ t, writeFilter s = .ok t ∧ parseFilter t = .ok s := by
  intro h
  have hpath : IsDottedName "AND" := by
    unfold IsDottedName
    decide
  obtain ⟨t, hwrite, hread⟩ :=
    h (.criterion ⟨"AND", .lessThan, .single (.int 1)⟩) (.criterion ⟨hpath, rfl, trivial, by decide⟩)
  have htext : writeFilter (.criterion ⟨"AND", .lessThan, .single (.int 1)⟩)
      = .ok "AND:less-than:1" := by rfl
  have hfails : (parseFilter "AND:less-than:1").isOk = false := by decide +kernel
  rw [htext] at hwrite
  obtain rfl := Except.ok.inj hwrite
  rw [hread] at hfails
  cases hfails

end EntityStore.QueryText
