import EntityStore.Proofs.QueryText.Rereading
import EntityStore.Proofs.QueryText.Spoiled

/-!
# Filters that come from texts

Any filter that comes from a text is written again. **Its text reads back as the filter exactly
when the filter is stable**: its numbers are finite, the years of its timestamps have four digits,
and joining the leaves of a disjunction brings no two literals of the same value together. The
writer joins literals of different texts, and the reader drops a literal of a value that it has
seen, so zeros of both signs and one instant with two offsets are where the two disagree.
-/

namespace EntityStore.QueryText

/-! ## Stable filters -/

/-- A filter of stable literals, in which nothing that the writer joins is repeated. -/
structure Stable (s : FilterSpec) : Prop where
  literals : ∀ l ∈ s.literals, l.Stable
  unrepeated : Unrepeated s

/-- A leaf from a text with stable literals can be written. -/
theorem ParsedLeaf.writableLeaf {c : Criterion} {negated : Bool} (h : ParsedLeaf TextValue c negated)
    (hstable : ∀ l ∈ operandLiterals c.operand, l.Stable) : WritableLeaf c negated := by
  refine QueryText.writableLeaf h.path h.arity (fun l hl => ?_) h.bounds h.negation
  obtain ⟨hformed, hempty⟩ := h.literals l hl
  exact ⟨hformed.readsLiteral (hstable l hl), hempty⟩

/-- **A stable filter that comes from a text is regular.** By induction on the filter. -/
theorem Flat.regular_of_stable {spec : FilterSpec} (h : Flat (ParsedLeaf TextValue) spec)
    (hliterals : ∀ l ∈ spec.literals, l.Stable) (hunrepeated : Unrepeated spec) : Regular spec := by
  induction h with
  | criterion hleaf =>
      rw [FilterSpec.literals_criterion] at hliterals
      exact .criterion (hleaf.writableLeaf hliterals) hleaf.distinct
  | negation hleaf =>
      rw [FilterSpec.literals_negation, FilterSpec.literals_criterion] at hliterals
      exact .negation (hleaf.writableLeaf hliterals) hleaf.distinct
  | conjunction two flat _ ih =>
      rw [FilterSpec.literals_conjunction] at hliterals
      cases hunrepeated with
      | conjunction hchildren =>
          exact .conjunction two flat fun s hs =>
            ih s hs (fun l hl => hliterals l (List.mem_flatMap.mpr ⟨s, hs, hl⟩)) (hchildren s hs)
  | @disjunction children two flat _ ih =>
      rw [FilterSpec.literals_disjunction] at hliterals
      cases hunrepeated with
      | disjunction hchildren distinct =>
          have hregular : ∀ s ∈ children, Regular s := fun s hs =>
            ih s hs (fun l hl => hliterals l (List.mem_flatMap.mpr ⟨s, hs, hl⟩)) (hchildren s hs)
          match children, two with
          | first :: second :: rest, _ => exact .disjunction flat hregular distinct

/-! ## Every filter of a text is written -/

theorem forall₂_of_writeSpecs {ss : List FilterSpec} (h : ∀ s ∈ ss, ∃ f, writeSpec s = .ok f) :
    ∃ fs, writeSpecs ss = .ok fs ∧ List.Forall₂ (fun s f => writeSpec s = .ok f) ss fs := by
  induction ss with
  | nil => exact ⟨[], rfl, .nil⟩
  | cons s ss ih =>
      obtain ⟨f, hf⟩ := h s List.mem_cons_self
      obtain ⟨fs, hfs, hall⟩ := ih fun s hs => h s (List.mem_cons_of_mem _ hs)
      refine ⟨f :: fs, ?_, .cons hf hall⟩
      rw [writeSpecs, hf]
      dsimp only
      rw [hfs]

theorem exists_writeDisjunction (f : Fragment) (fs : List Fragment) :
    ∃ g, writeDisjunction (f :: fs) = .ok g := by
  rw [writeDisjunction]
  split
  · exact ⟨_, rfl⟩
  · exact ⟨_, rfl⟩

/-- **A filter that comes from a text is written**, stable or not. -/
theorem Flat.exists_writeSpec {q : Value → Prop} {spec : FilterSpec} (h : Flat (ParsedLeaf q) spec) :
    ∃ f, writeSpec spec = .ok f := by
  induction h with
  | criterion hleaf => exact ⟨_, hleaf.writeSpec_criterion⟩
  | negation hleaf => exact ⟨_, hleaf.writeSpec_negation⟩
  | conjunction two _ _ ih =>
      obtain ⟨fs, hfs, hall⟩ := forall₂_of_writeSpecs ih
      have hne : fs.isEmpty = false := by
        rw [List.isEmpty_eq_false_iff, ← List.length_pos_iff, ← hall.length_eq]
        omega
      rw [writeSpec, hfs]
      dsimp only
      rw [writeConjunction, hne]
      exact ⟨_, rfl⟩
  | disjunction two _ _ ih =>
      obtain ⟨fs, hfs, hall⟩ := forall₂_of_writeSpecs ih
      rw [writeSpec, hfs]
      cases hall with
      | nil => exact absurd two (by decide)
      | cons _ _ => exact exists_writeDisjunction _ _

/-! ## Equal filters -/

theorem same_self_of_stable {v : Value} (h : StableValue v) : v.same v = true := by
  cases v with
  | float x =>
      simp [Value.same, Binary64.sameNumber, Binary64.compare?, Binary64.isNaN_of_isFinite h]
  | timestamp t => simp [Value.same, Timestamp.sameInstant]
  | _ => simp [Value.same]

theorem Literal.same_self_of_stable {l : Literal} (h : l.Stable) : l.same l = true := by
  cases l with
  | value v => exact QueryText.same_self_of_stable h
  | range low high =>
      rw [Literal.same, QueryText.same_self_of_stable h.1, QueryText.same_self_of_stable h.2]
      rfl

theorem operand_same_self {operand : Operand} (h : ∀ l ∈ operandLiterals operand, l.same l = true) :
    operand.same operand = true := by
  cases operand with
  | single v => exact h (.value v) (List.mem_singleton_self _)
  | range low high => exact h (.range low high) (List.mem_singleton_self _)
  | list vs =>
      rw [operandLiterals, List.forall_mem_map] at h
      rw [Operand.same]
      induction vs with
      | nil => rfl
      | cons v vs ih =>
          have hv : v.same v = true := h v List.mem_cons_self
          rw [Value.sameList, hv, ih fun v hv => h v (List.mem_cons_of_mem _ hv)]
          rfl

/-- A filter equals itself if its literals do: one that is no number does not. -/
theorem same_self_of_literals {s : FilterSpec} (h : ∀ l ∈ s.literals, l.same l = true) :
    s.same s = true := by
  have hlist : ∀ children : List FilterSpec,
      (∀ s ∈ children, (∀ l ∈ s.literals, l.same l = true) → s.same s = true) →
      (∀ l ∈ children.flatMap FilterSpec.literals, l.same l = true) →
      FilterSpec.sameList children children = true := by
    intro children
    induction children with
    | nil => exact fun _ _ => rfl
    | cons s rest ih =>
        intro hall h
        rw [List.flatMap_cons] at h
        rw [FilterSpec.sameList, hall s List.mem_cons_self fun l hl => h l (List.mem_append_left _ hl),
          ih (fun s hs => hall s (List.mem_cons_of_mem _ hs)) fun l hl => h l (List.mem_append_right _ hl)]
        rfl
  induction s using FilterSpec.ind with
  | criterion c =>
      rw [FilterSpec.literals_criterion] at h
      simp [FilterSpec.same, Criterion.same, operand_same_self h]
  | conjunction children ih =>
      rw [FilterSpec.literals_conjunction] at h
      rw [FilterSpec.same]
      exact hlist children ih h
  | disjunction children ih =>
      rw [FilterSpec.literals_disjunction] at h
      rw [FilterSpec.same]
      exact hlist children ih h
  | negation child ih =>
      rw [FilterSpec.literals_negation] at h
      rw [FilterSpec.same]
      exact ih h

theorem forall₂_of_sameOperand {a b : Operand} (h : a.same b = true) :
    List.Forall₂ (fun k l => k.same l = true) (operandLiterals a) (operandLiterals b) := by
  have hlist : ∀ {vs ws : List Value}, Value.sameList vs ws = true →
      List.Forall₂ (fun v w => v.same w = true) vs ws := by
    intro vs
    induction vs with
    | nil =>
        intro ws h
        cases ws with
        | nil => exact .nil
        | cons w ws => cases h
    | cons v vs ih =>
        intro ws h
        cases ws with
        | nil => cases h
        | cons w ws =>
            rw [Value.sameList, Bool.and_eq_true] at h
            exact .cons h.1 (ih h.2)
  cases a with
  | single v =>
      cases b with
      | single w => exact .cons h .nil
      | range low high => cases h
      | list ws => cases h
  | range low high =>
      cases b with
      | single w => cases h
      | range low' high' => exact .cons h .nil
      | list ws => cases h
  | list vs =>
      cases b with
      | single w => cases h
      | range low high => cases h
      | list ws =>
          rw [operandLiterals, operandLiterals, List.forall₂_map_left_iff, List.forall₂_map_right_iff]
          exact hlist h

/-- **Equal filters have equal literals**, one by one. -/
theorem forall₂_of_same {s s' : FilterSpec} (h : s.same s' = true) :
    List.Forall₂ (fun k l => k.same l = true) s.literals s'.literals := by
  have hlist : ∀ {as bs : List FilterSpec},
      (∀ a ∈ as, ∀ {b}, a.same b = true →
        List.Forall₂ (fun k l => k.same l = true) a.literals b.literals) →
      FilterSpec.sameList as bs = true → List.Forall₂ (fun k l => k.same l = true)
        (as.flatMap FilterSpec.literals) (bs.flatMap FilterSpec.literals) := by
    intro as
    induction as with
    | nil =>
        intro bs _ h
        cases bs with
        | nil => exact .nil
        | cons b bs => cases h
    | cons a as ih =>
        intro bs hall h
        cases bs with
        | nil => cases h
        | cons b bs =>
            rw [FilterSpec.sameList, Bool.and_eq_true] at h
            rw [List.flatMap_cons, List.flatMap_cons]
            exact List.rel_append (hall a List.mem_cons_self h.1)
              (ih (fun a ha => hall a (List.mem_cons_of_mem _ ha)) h.2)
  induction s using FilterSpec.ind generalizing s' with
  | criterion c =>
      cases s' with
      | criterion c' =>
          rw [FilterSpec.same, Criterion.same, Bool.and_eq_true] at h
          rw [FilterSpec.literals_criterion, FilterSpec.literals_criterion]
          exact forall₂_of_sameOperand h.2
      | _ => cases h
  | conjunction children ih =>
      cases s' with
      | conjunction children' =>
          rw [FilterSpec.same] at h
          rw [FilterSpec.literals_conjunction, FilterSpec.literals_conjunction]
          exact hlist ih h
      | _ => cases h
  | disjunction children ih =>
      cases s' with
      | disjunction children' =>
          rw [FilterSpec.same] at h
          rw [FilterSpec.literals_disjunction, FilterSpec.literals_disjunction]
          exact hlist ih h
      | _ => cases h
  | negation child ih =>
      cases s' with
      | negation child' =>
          rw [FilterSpec.same] at h
          rw [FilterSpec.literals_negation, FilterSpec.literals_negation]
          exact ih h
      | _ => cases h

/-! ## Texts that read back -/

/-- **A stable filter that comes from a text is written, and its text reads back as that filter.** -/
theorem Stable.parseFilter_writeFilter {spec : FilterSpec} (h : Stable spec)
    (hflat : Flat (ParsedLeaf TextValue) spec) :
    ∃ t, writeFilter spec = .ok t ∧ parseFilter t = .ok spec ∧ spec.same spec = true := by
  obtain ⟨t, hwrite, hread⟩ :=
    (hflat.regular_of_stable h.literals h.unrepeated).parseFilter_writeFilter
  refine ⟨t, hwrite, hread, same_self_of_literals fun l hl => ?_⟩
  exact Literal.same_self_of_stable (h.literals l hl)

/-- **If what is written for a filter that comes from a text reads back as an equal filter, then the
filter is stable.** No literal can be lost, and none can be read as something else. -/
theorem stable_of_same {spec spec' : FilterSpec} (hflat : Flat (ParsedLeaf TextValue) spec) {t : String}
    (hwrite : writeFilter spec = .ok t) (hread : parseFilter t = .ok spec')
    (hsame : spec'.same spec = true) : Stable spec := by
  -- a text that is read has no infinite number in it, and is also that of the reread filter
  have hfinite := hflat.not_infinite_of_parseFilter hwrite hread
  obtain ⟨t', s', hwrite', hread', hshrinks⟩ := (hflat.rereadSpec hfinite).exists_shrinks
  rw [writeFilter, writeSpec_rereadSpec, ← writeFilter, hwrite] at hwrite'
  obtain rfl := Except.ok.inj hwrite'
  rw [hread] at hread'
  obtain rfl := Except.ok.inj hread'
  have hliterals := forall₂_of_same hsame
  have hlength : (rereadSpec spec).literals.length ≤ spec'.literals.length := by
    rw [literals_rereadSpec, List.length_map, hliterals.length_eq]
  -- as many literals as the filter has, so they are its literals, reread
  have hall : spec'.literals = spec.literals.map Literal.reread := by
    rw [← literals_rereadSpec]
    exact hshrinks.sublist.eq_of_length_le hlength
  rw [hall, List.forall₂_map_left_iff, List.forall₂_same] at hliterals
  have hstable : ∀ l ∈ spec.literals, l.Stable := fun l hl =>
    Literal.stable_of_same_reread (hfinite l hl) (hliterals l hl)
  have hunrepeated := hshrinks.unrepeated hlength
  rw [rereadSpec_of_stable hstable] at hunrepeated
  exact ⟨hstable, hunrepeated⟩

/-- **A filter that comes from a text is written, and what is written reads back as an equal filter
exactly when the filter is stable.** -/
theorem parseFilter_writeFilter_iff_stable {s : String} {spec : FilterSpec}
    (h : parseFilter s = .ok spec) :
    ∃ t, writeFilter spec = .ok t ∧
      ((∃ spec', parseFilter t = .ok spec' ∧ spec'.same spec = true) ↔ Stable spec) := by
  have hflat := flat_textValue_of_parseFilter h
  obtain ⟨f, hf⟩ := hflat.exists_writeSpec
  have hwrite : writeFilter spec = .ok f.text := by
    rw [writeFilter, hf]
    rfl
  refine ⟨f.text, hwrite, ?_, fun hstable => ?_⟩
  · rintro ⟨spec', hread, hsame⟩
    exact stable_of_same hflat hwrite hread hsame
  · obtain ⟨t, hwrite', hread, hsame⟩ := hstable.parseFilter_writeFilter hflat
    rw [hwrite] at hwrite'
    rw [Except.ok.inj hwrite']
    exact ⟨spec, hread, hsame⟩

/-- An age compared with a number or a time. -/
def ageEqualTo (v : Value) : FilterSpec := .criterion ⟨"age", .equalTo, .single v⟩

/-- An integer, a float and a time. -/
def threeValues : List Value :=
  [.int 1, .float (Binary64.ofRatio false 5 2), .timestamp ⟨18690, 18367, 0, 60⟩]

theorem stable_threeValues : Stable (.disjunction (threeValues.map ageEqualTo)) where
  literals := by
    have hvalues : ∀ v ∈ threeValues, StableValue v := by decide +kernel
    intro l hl
    have hl' : l ∈ threeValues.map Literal.value := hl
    obtain ⟨v, hv, rfl⟩ := List.mem_map.mp hl'
    exact hvalues v hv
  unrepeated := by
    refine .disjunction (List.forall_mem_map.mpr fun v _ => .criterion _) ?_
    have hjoined : joinedParts (threeValues.map ageEqualTo)
        = [.clause ⟨"age", .equalTo, false, threeValues.map .value⟩] := by rfl
    rw [hjoined]
    intro p hp
    rw [List.mem_singleton.mp hp]
    show (threeValues.map Literal.value).Pairwise fun k l => k.same l = false
    decide +kernel

theorem parseFilter_threeValues :
    parseFilter "age:equal-to:1,2.5,\"2021-03-04T06:06:07+01:00\""
      = .ok (.disjunction (threeValues.map ageEqualTo)) := by
  have htime : Timestamp.Readable ⟨18690, 18367, 0, 60⟩ :=
    ⟨⟨⟨2021, 3, 4⟩, 6, 6, 7, 0⟩, 60, by decide, by decide⟩
  have htext : ∀ v ∈ threeValues, TextValue v := by
    intro v hv
    have hv' : v = .int 1 ∨ v = .float (Binary64.ofRatio false 5 2) ∨
        v = .timestamp ⟨18690, 18367, 0, 60⟩ := by
      simpa [threeValues] using hv
    rcases hv' with rfl | rfl | rfl
    · trivial
    · trivial
    · exact htime
  have hvalues : ∀ v ∈ threeValues, StableValue v := by decide +kernel
  have hreadable : (Clause.mk "age" .equalTo false (threeValues.map .value)).Readable :=
    { path := by decide
      literals := List.forall_mem_map.mpr fun v hv => readsLiteral_of_stable (htext v hv) (hvalues v hv)
      nonempty := by decide
      fits := by decide
      some_literal := by simp [threeValues]
      negation := by simp }
  have hparse := (Clause.reads hreadable).parseFilter_eq
  have hwritten : (Clause.mk "age" .equalTo false (threeValues.map .value)).written.text
      = "age:equal-to:1,2.5,\"2021-03-04T06:06:07+01:00\"" := by
    decide +kernel
  rw [hwritten] at hparse
  rw [hparse]
  rfl

/-- The three values are compared with one after the other and stand in one criterion, which is written
and read back as it was. -/
theorem parseFilter_writeFilter_threeValues :
    ∃ t, writeFilter (.disjunction (threeValues.map ageEqualTo)) = .ok t ∧
      ∃ spec', parseFilter t = .ok spec' ∧
        spec'.same (.disjunction (threeValues.map ageEqualTo)) = true := by
  obtain ⟨t, hwrite, hread⟩ := parseFilter_writeFilter_iff_stable parseFilter_threeValues
  exact ⟨t, hwrite, hread.mpr stable_threeValues⟩

/-- The filter is written, and its text reads back as an equal filter. -/
def roundTrips (spec : FilterSpec) : Bool :=
  match writeFilter spec with
  | .error _ => false
  | .ok t =>
    match parseFilter t with
    | .error _ => false
    | .ok spec' => spec'.same spec

/-- Whether the text is understood, as a filter that does not round trip. -/
def losesFilter (s : String) : Bool :=
  match parseFilter s with
  | .error _ => false
  | .ok spec => !roundTrips spec

theorem exists_of_losesFilter {s : String} (h : losesFilter s = true) :
    ∃ spec, parseFilter s = .ok spec ∧ roundTrips spec = false := by
  unfold losesFilter at h
  split at h
  · cases h
  case h_2 spec hparse =>
    rw [Bool.not_eq_true'] at h
    exact ⟨spec, hparse, h⟩

/-- **Not every filter that comes from a text round trips**: not one with an overflowing number,
with the zeros of both signs, with one instant at two offsets or with a year of five digits. -/
theorem not_roundTrips_of_infinite_or_repeated_or_long_year :
    (∃ spec, parseFilter "age:equal-to:1e999" = .ok spec ∧ roundTrips spec = false) ∧
    (∃ spec, parseFilter "age:equal-to:0.0 or age:equal-to:-0.0" = .ok spec ∧
      roundTrips spec = false) ∧
    (∃ spec, parseFilter ("at:equal-to:\"2021-03-04T05:06:07+00:00\" or " ++
        "at:equal-to:\"2021-03-04T06:06:07+01:00\"") = .ok spec ∧ roundTrips spec = false) ∧
    ∃ spec, parseFilter "at:equal-to:\"+12345-01-01T00:00:00\"" = .ok spec ∧
      roundTrips spec = false :=
  ⟨exists_of_losesFilter (by decide +kernel), exists_of_losesFilter (by decide +kernel),
    exists_of_losesFilter (by decide +kernel), exists_of_losesFilter (by decide +kernel)⟩

end EntityStore.QueryText
