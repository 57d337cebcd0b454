import EntityStore.Proofs.Filter.Answers
import EntityStore.Proofs.QueryText.Normal
import EntityStore.Samples.Types

/-!
# Filters that read back with the same answers

A filter built by hand may nest its composites in any way, and repeat values in its lists. Its
text reads back as another filter, but **wherever the filter compiles, so does what its text reads
back as, and both hold of the same entities**. What may be negated is a leaf, or
something whose negation is not written. The negation of a disjunction is written as a negated list
of literals, if its leaves are joined to one, and reads back as a disjunction of negations; a
negation of a negation is written and does not read back at all.
-/

namespace EntityStore.QueryText

open Answer

/-- The second filter answers every question as the first one does. -/
def SameAnswers (s s' : FilterSpec) : Prop := ∀ q, s'.answer q = s.answer q

/-! ## The filters in question -/

/-- Integers, booleans and null. -/
def PlainValue : Value → Prop
  | .null | .bool _ | .int _ => True
  | .float _ | .string _ | .timestamp _ | .url _ => False

/-- A criterion on an attribute path with plain literals. -/
structure PlainCriterion (c : Criterion) : Prop where
  path : IsPathName c.path
  arity : c.operand.arity = c.operator.arity
  plain : ∀ v ∈ c.operand.values, PlainValue v

/-- A criterion, on its own or as the only child of disjunctions. -/
inductive WrapsLeaf : FilterSpec → Criterion → Prop
  | criterion (c : Criterion) : WrapsLeaf (.criterion c) c
  | disjunction {s : FilterSpec} {c : Criterion} (h : WrapsLeaf s c) : WrapsLeaf (.disjunction [s]) c

/-- Every negation in the filter is one of a leaf, or one that is not written. -/
inductive NegatesLeaves : FilterSpec → Prop
  | criterion (c : Criterion) : NegatesLeaves (.criterion c)
  | conjunction {children : List FilterSpec} (h : ∀ s ∈ children, NegatesLeaves s) :
      NegatesLeaves (.conjunction children)
  | disjunction {children : List FilterSpec} (h : ∀ s ∈ children, NegatesLeaves s) :
      NegatesLeaves (.disjunction children)
  | negation {s : FilterSpec} {c : Criterion} (h : WrapsLeaf s c) : NegatesLeaves (.negation s)
  | unwritten {s : FilterSpec} (h : ∀ f, writeSpec (.negation s) ≠ .ok f) : NegatesLeaves (.negation s)

theorem PlainValue.normal {v : Value} (h : PlainValue v) : NormalValue v := by
  cases v <;> first | exact h.elim | trivial

/-- A plain number is an integer. -/
theorem PlainValue.exists_int {v : Value} (h : PlainValue v) (hnum : isNumber v = true) :
    ∃ i : Int64, v = .int i := by
  cases v with
  | int i => exact ⟨i, rfl⟩
  | float x => exact h.elim
  | _ => cases hnum

/-! ## Leaves -/

section Leaf

variable {c : Criterion} {f : Fragment}

/-- Only numbers are written as the bounds of a range. -/
theorem bounds_of_writeCriterion (h : writeCriterion c = .ok f) :
    ∀ low high, c.operand = .range low high → isNumber low = true ∧ isNumber high = true := by
  intro low high hop
  rw [writeCriterion, hop, operandTexts] at h
  by_cases hnum : (isNumber low && isNumber high) = true
  · exact Bool.and_eq_true_iff.mp hnum
  · rw [if_neg hnum] at h
    cases h

theorem PlainCriterion.normalLiteral (hc : PlainCriterion c)
    (hbounds : ∀ low high, c.operand = .range low high → isNumber low = true ∧ isNumber high = true) :
    ∀ l ∈ operandLiterals c.operand, NormalLiteral l := by
  have hplain := hc.plain
  cases hop : c.operand with
  | single v =>
      rw [hop] at hplain
      intro l hl
      rw [List.mem_singleton.mp hl]
      exact (hplain v List.mem_cons_self).normal
  | range low high =>
      obtain ⟨hlow, hhigh⟩ := hbounds low high hop
      rw [hop] at hplain
      intro l hl
      rw [List.mem_singleton.mp hl]
      obtain ⟨a, ha⟩ := (hplain low List.mem_cons_self).exists_int hlow
      obtain ⟨b, hb⟩ := (hplain high (List.mem_cons_of_mem _ List.mem_cons_self)).exists_int hhigh
      exact ⟨a, b, ha, hb⟩
  | list vs =>
      rw [hop] at hplain
      rw [operandLiterals, List.forall_mem_map]
      exact fun v hv => (hplain v hv).normal

theorem PlainCriterion.writableLeaf {negated : Bool} (hc : PlainCriterion c)
    (hbounds : ∀ low high, c.operand = .range low high → isNumber low = true ∧ isNumber high = true)
    (hneg : negated = true →
      c.operand ≠ .list [] ∧ FilterOperator.ofName? ("not-" ++ c.operator.name) = none) :
    WritableLeaf c negated := by
  refine QueryText.writableLeaf hc.path hc.arity (fun l hl => ?_) hbounds hneg
  have hnormal := hc.normalLiteral hbounds l hl
  exact ⟨hnormal.readsLiteral, hnormal.not_isEmptyString⟩

/-- A clause is negated only with values, and where that is no operator of its own. -/
theorem of_writeNegation
    (h : writeNegation (.criterion (Clause.ofCriterion c false).written) = .ok f) :
    c.operand ≠ .list [] ∧ FilterOperator.ofName? ("not-" ++ c.operator.name) = none := by
  have hwritten : (Clause.ofCriterion c false).written = ⟨writtenPath c.path, c.operator.name,
      (operandLiterals c.operand).map Literal.text, c.operator.arity != .list⟩ := rfl
  rw [hwritten, writeNegation] at h
  split at h
  · cases h
  case isFalse hop =>
    split at h
    · cases h
    case isFalse hvalues =>
      refine ⟨?_, by simpa using hop⟩
      intro hnil
      rw [hnil] at hvalues
      exact hvalues rfl

/-- A leaf is written the same when it is the only child of disjunctions. -/
theorem WrapsLeaf.writeSpec_eq {s : FilterSpec} (h : WrapsLeaf s c) :
    writeSpec s = writeCriterion c := by
  induction h with
  | criterion c => rw [writeSpec]
  | @disjunction s c h ih =>
      rw [writeSpec, writeSpecs, ih, writeSpecs]
      cases writeCriterion c <;> rfl

theorem WrapsLeaf.answer_eq {s : FilterSpec} (h : WrapsLeaf s c) (q : Question) :
    s.answer q = (FilterSpec.criterion c).answer q := by
  induction h with
  | criterion c => rfl
  | disjunction h ih => rw [FilterSpec.answer_disjunction, List.map_singleton, disjoin_singleton, ih]

theorem WrapsLeaf.criteria_eq {s : FilterSpec} (h : WrapsLeaf s c) : s.criteria = [c] := by
  induction h with
  | criterion c => rfl
  | disjunction h ih => simp [FilterSpec.criteria, FilterSpec.criteriaOfList, ih]

end Leaf

/-! ## Clauses and parts -/

theorem NormalValue.same_self {v : Value} (h : NormalValue v) : v.same v = true := by
  cases v <;> simp_all [Value.same, NormalValue]

theorem NormalLiteral.same_self {l : Literal} (h : NormalLiteral l) : l.same l = true := by
  cases l with
  | value v => exact NormalValue.same_self h
  | range low high =>
      obtain ⟨a, b, rfl, rfl⟩ := h
      simp [Literal.same, Value.same]

/-- No literal is lost for good: one of the same value is kept. -/
theorem mem_kept_iff {c : Clause} (h : c.Readable) (hnormal : ∀ l ∈ c.literals, NormalLiteral l)
    {l : Literal} : l ∈ c.kept ↔ l ∈ c.literals := by
  constructor
  · intro hl
    rcases mem_of_mem_distinctLiterals hl with hl | hl
    · cases hl
    · exact hl
  · intro hl
    -- normal literals that are the same are equal
    obtain ⟨k, hk, hsame⟩ : ∃ k ∈ c.kept, k.same l = true := exists_same_of_mem hl
      (hnormal l hl).same_self (h.nonempty l hl)
    rcases mem_of_mem_distinctLiterals hk with hmem | hmem
    · cases hmem
    · rw [← (hnormal k hmem).eq_of_same (hnormal l hl) hsame]
      exact hk

/-- **The literals that are dropped change no answer.** -/
theorem sameAnswers_kept {c : Clause} (h : c.Readable) (hnormal : ∀ l ∈ c.literals, NormalLiteral l) :
    SameAnswers (.any (c.leaves c.literals)) (.any (c.leaves c.kept)) := by
  intro q
  rw [FilterSpec.answer_any, FilterSpec.answer_any, Clause.leaves, Clause.leaves]
  by_cases harity : c.operator.arity = .list
  · have hvalues : ∀ v, v ∈ c.kept.filterMap Literal.value? ↔ v ∈ c.literals.filterMap Literal.value? := by
      intro v
      simp only [List.mem_filterMap, mem_kept_iff h hnormal]
    have hlist := FilterSpec.answer_of_akin
      (.list (fun v hv => ⟨v, (hvalues v).mp hv, .refl v⟩) fun v hv => ⟨v, (hvalues v).mpr hv, .refl v⟩)
      q c.path c.operator
    rw [if_pos harity, if_pos harity, List.map_singleton, List.map_singleton, Clause.leaf, Clause.leaf]
    split
    · rw [FilterSpec.answer_negation, FilterSpec.answer_negation, hlist]
    · rw [hlist]
  · rw [if_neg harity, if_neg harity]
    refine disjoin_congr fun x => ?_
    simp only [List.mem_map, exists_exists_and_eq_and, mem_kept_iff h hnormal]

namespace Part

variable {q : Question}

theorem disjoin_disjuncts (p : Part) :
    disjoin (p.disjuncts.map (FilterSpec.answer q)) = p.whole.answer q := by
  cases p with
  | clause c => exact (FilterSpec.answer_any _).symm
  | spec s => exact disjoin_singleton _

/-- Joining parts changes no answer. -/
theorem disjoin_joinAll (p : Part) (ps : List Part) :
    disjoin ((p.joinAll ps).map fun r => r.whole.answer q)
      = disjoin ((p :: ps).map fun r => r.whole.answer q) := by
  have hparts : ∀ rs : List Part, disjoin (rs.map fun r => r.whole.answer q)
      = disjoin ((rs.flatMap disjuncts).map (FilterSpec.answer q)) := by
    intro rs
    rw [List.flatMap_def, List.map_flatten, List.map_map, disjoin_flatten, List.map_map]
    exact congrArg disjoin (List.map_congr_left fun r _ => (disjoin_disjuncts r).symm)
  rw [hparts, hparts, flatMap_disjuncts_joinAll]

end Part

theorem answer_joinSpecs_all (q : Question) (specs : List FilterSpec) :
    (joinSpecs .all specs).answer q = conjoin (specs.map (FilterSpec.answer q)) := by
  rw [joinSpecs.eq_def]
  split
  · exact (conjoin_singleton _).symm
  · exact FilterSpec.answer_all _

/-- What branches of terms answer. -/
theorem answer_groupSpec (q : Question) (bs : List (List FilterSpec)) :
    (groupSpec bs).answer q = disjoin (bs.map fun b => (joinSpecs .all b).answer q) := by
  rw [groupSpec, joinSpecs.eq_def]
  split
  case h_1 only heq =>
    obtain ⟨b, rfl⟩ : ∃ b, bs = [b] := List.length_eq_one_iff.mp (by
      rw [← List.length_map (joinSpecs .all), heq]
      rfl)
    obtain rfl : joinSpecs .all b = only := by simpa using heq
    exact (disjoin_singleton _).symm
  case h_2 => rw [FilterSpec.answer_any, List.map_map]; rfl

/-- A part is read as what has its answers. -/
theorem sameAnswers_of_readAs {p : Part} {f : Fragment} {bs : List (List FilterSpec)}
    (h : p.Written SameAnswers f) (hnormal : p.AllLiterals NormalLiteral)
    (hread : p.ReadAs SameAnswers bs) : SameAnswers p.whole (groupSpec bs) := by
  cases hread with
  | clause c =>
      cases h with
      | clause hc => exact sameAnswers_kept hc hnormal
  | spec hmeans => exact hmeans

/-! ## Writing filters -/

/-- The fragment is that of a part with the answers of the filter. -/
structure WrittenFor (s : FilterSpec) (f : Fragment) (p : Part) : Prop where
  written : p.Written SameAnswers f
  normal : p.AllLiterals NormalLiteral
  answers : ∀ q, p.whole.answer q = s.answer q

theorem writtenFor_clause {c : Criterion} {negated : Bool} (h : WritableLeaf c negated)
    (hnormal : ∀ l ∈ operandLiterals c.operand, NormalLiteral l) {s : FilterSpec}
    (hs : ∀ q, ((Clause.ofCriterion c negated).leaf c.operand).answer q = s.answer q) :
    WrittenFor s (.criterion (Clause.ofCriterion c negated).written)
      (.clause (Clause.ofCriterion c negated)) where
  written := .clause h.readable
  normal := hnormal
  answers := by
    intro q
    rw [Part.whole, ← hs q]
    change (FilterSpec.any ((Clause.ofCriterion c negated).leaves (operandLiterals c.operand))).answer q
      = _
    rw [Clause.leaves_ofCriterion h.arity, Clause.any_singleton_leaf]

/-- Filters that are written in a row are written as the fragments of parts. -/
theorem exists_parts {ss : List FilterSpec} {fs : List Fragment} (h : writeSpecs ss = .ok fs)
    (hs : ∀ s ∈ ss, ∀ f, writeSpec s = .ok f → ∃ p, WrittenFor s f p) :
    ∃ ps, List.Forall₂ (Part.Written SameAnswers) ps fs ∧ (∀ p ∈ ps, p.AllLiterals NormalLiteral) ∧
      ∀ q, ps.map (fun p => p.whole.answer q) = ss.map (FilterSpec.answer q) := by
  induction ss generalizing fs with
  | nil =>
      obtain rfl := Except.ok.inj h
      exact ⟨[], .nil, by simp, fun _ => rfl⟩
  | cons s ss ih =>
      rw [writeSpecs] at h
      split at h
      · cases h
      case h_2 f hf =>
        split at h
        · cases h
        case h_2 fs' hfs =>
          obtain rfl := Except.ok.inj h
          obtain ⟨p, hp⟩ := hs s List.mem_cons_self f hf
          obtain ⟨ps, hwritten, hnormal, hanswers⟩ := ih hfs fun s hmem => hs s (List.mem_cons_of_mem _ hmem)
          refine ⟨p :: ps, .cons hp.written hwritten, ?_, fun q => ?_⟩
          · intro r hr
            rcases List.mem_cons.mp hr with rfl | hr
            · exact hp.normal
            · exact hnormal r hr
          · rw [List.map_cons, List.map_cons, hanswers q, hp.answers q]

/-- What the terms of a conjunction answer together. -/
theorem conjoin_flatten_of_readAs {ps : List Part} {fs : List Fragment} {ts : List (List FilterSpec)}
    (hwritten : List.Forall₂ (Part.Written SameAnswers) ps fs)
    (hnormal : ∀ p ∈ ps, p.AllLiterals NormalLiteral)
    (hread : List.Forall₂ (fun p terms => p.ReadAs SameAnswers [terms]) ps ts) (q : Question) :
    conjoin (ts.flatten.map (FilterSpec.answer q)) = conjoin (ps.map fun p => p.whole.answer q) := by
  induction hread generalizing fs with
  | nil => rfl
  | @cons p terms ps ts hp hps ih =>
      cases hwritten with
      | @cons _ f _ fs hf hfs =>
      have hhead := sameAnswers_of_readAs hf (hnormal p List.mem_cons_self) hp q
      rw [answer_groupSpec, List.map_singleton, disjoin_singleton, answer_joinSpecs_all] at hhead
      rw [List.flatten_cons, List.map_append, conjoin_append, hhead,
        ih hfs fun p hp => hnormal p (List.mem_cons_of_mem _ hp)]
      rfl

/-- What one of the branches of a disjunction answers. -/
theorem disjoin_flatten_of_readAs {ps : List Part} {fs : List Fragment}
    {bss : List (List (List FilterSpec))} (hwritten : List.Forall₂ (Part.Written SameAnswers) ps fs)
    (hnormal : ∀ p ∈ ps, p.AllLiterals NormalLiteral)
    (hread : List.Forall₂ (Part.ReadAs SameAnswers) ps bss) (q : Question) :
    (groupSpec bss.flatten).answer q = disjoin (ps.map fun p => p.whole.answer q) := by
  rw [answer_groupSpec]
  induction hread generalizing fs with
  | nil => rfl
  | @cons p bs ps bss hp hps ih =>
      cases hwritten with
      | @cons _ f _ fs hf hfs =>
      have hhead := sameAnswers_of_readAs hf (hnormal p List.mem_cons_self) hp q
      rw [answer_groupSpec] at hhead
      rw [List.flatten_cons, List.map_append, disjoin_append, hhead,
        ih hfs fun p hp => hnormal p (List.mem_cons_of_mem _ hp)]
      rfl

theorem exists_writtenFor_criterion {c : Criterion} (hc : PlainCriterion c) {f : Fragment}
    (hwrite : writeSpec (.criterion c) = .ok f) : ∃ p, WrittenFor (.criterion c) f p := by
  rw [writeSpec] at hwrite
  have hbounds := bounds_of_writeCriterion hwrite
  have hleaf : WritableLeaf c false := hc.writableLeaf hbounds (by simp)
  rw [writeCriterion_eq hc.arity hbounds] at hwrite
  obtain rfl := Except.ok.inj hwrite
  exact ⟨_, writtenFor_clause hleaf (hc.normalLiteral hbounds) fun q => rfl⟩

/-- The negation of a leaf that only disjunctions wrap is written, and answers, as that of the leaf. -/
theorem exists_writtenFor_negation {s : FilterSpec} {c : Criterion} (hwraps : WrapsLeaf s c)
    (hc : PlainCriterion c) {f : Fragment} (hwrite : writeSpec (.negation s) = .ok f) :
    ∃ p, WrittenFor (.negation s) f p := by
  rw [writeSpec, hwraps.writeSpec_eq] at hwrite
  split at hwrite
  · cases hwrite
  case h_2 g hg =>
    have hbounds := bounds_of_writeCriterion hg
    rw [writeCriterion_eq hc.arity hbounds] at hg
    obtain rfl := Except.ok.inj hg
    obtain ⟨hvalues, hop⟩ := of_writeNegation hwrite
    have hleaf : WritableLeaf c true := hc.writableLeaf hbounds fun _ => ⟨hvalues, hop⟩
    rw [writeNegation_eq hop (operandLiterals_ne_nil hvalues)] at hwrite
    obtain rfl := Except.ok.inj hwrite
    refine ⟨_, writtenFor_clause hleaf (hc.normalLiteral hbounds) fun q => ?_⟩
    rw [FilterSpec.answer_negation, hwraps.answer_eq, ← FilterSpec.answer_negation]
    rfl

theorem exists_writtenFor_conjunction {children : List FilterSpec}
    (hs : ∀ s ∈ children, ∀ f, writeSpec s = .ok f → ∃ p, WrittenFor s f p) {f : Fragment}
    (hwrite : writeSpec (.conjunction children) = .ok f) :
    ∃ p, WrittenFor (.conjunction children) f p := by
  rw [writeSpec] at hwrite
  split at hwrite
  · cases hwrite
  case h_2 fs hfs =>
    obtain ⟨ps, hwritten, hnormal, hanswers⟩ := exists_parts hfs hs
    have hne : ps ≠ [] := by
      rintro rfl
      cases hwritten
      cases hwrite
    obtain ⟨g, ts, hg, hcomposite, hread⟩ := writeConjunction_written hne hwritten
    rw [hg] at hwrite
    obtain rfl := Except.ok.inj hwrite
    refine ⟨.spec (.conjunction children), .spec hcomposite fun q => ?_, trivial, fun q => rfl⟩
    rw [answer_groupSpec, List.map_singleton, disjoin_singleton, answer_joinSpecs_all,
      conjoin_flatten_of_readAs hwritten hnormal hread, hanswers, FilterSpec.answer_conjunction]

theorem exists_writtenFor_disjunction {children : List FilterSpec}
    (hs : ∀ s ∈ children, ∀ f, writeSpec s = .ok f → ∃ p, WrittenFor s f p) {f : Fragment}
    (hwrite : writeSpec (.disjunction children) = .ok f) :
    ∃ p, WrittenFor (.disjunction children) f p := by
  rw [writeSpec] at hwrite
  split at hwrite
  · cases hwrite
  case h_2 fs hfs =>
    obtain ⟨ps, hwritten, hnormal, hanswers⟩ := exists_parts hfs hs
    cases hwritten with
    | nil => cases hwrite
    | @cons p f ps fs hp hps =>
    have hmerged := mergeAll_written hp hps
    have hall : ∀ r ∈ p.joinAll ps, r.AllLiterals NormalLiteral :=
      Part.forall_joinAll (fun _ _ _ hm ha hb => Part.allLiterals_join hm ha hb)
        (hnormal p List.mem_cons_self) fun r hr => hnormal r (List.mem_cons_of_mem _ hr)
    have hdisjoin : ∀ q, disjoin ((p.joinAll ps).map fun r => r.whole.answer q)
        = (FilterSpec.disjunction children).answer q := by
      intro q
      rw [Part.disjoin_joinAll, hanswers, FilterSpec.answer_disjunction]
    obtain ⟨g, hg, hcases⟩ := writeDisjunction_written hp hps
    rw [hg] at hwrite
    obtain rfl := Except.ok.inj hwrite
    -- one clause is left, or several side by side
    rcases hcases with ⟨r, hr, hrg⟩ | ⟨bss, hcomposite, hread⟩
    · refine ⟨r, hrg, hall r (by rw [hr]; exact List.mem_singleton_self r), fun q => ?_⟩
      rw [← hdisjoin q, hr, List.map_singleton, disjoin_singleton]
    · refine ⟨.spec (.disjunction children), .spec hcomposite fun q => ?_, trivial, fun q => rfl⟩
      rw [disjoin_flatten_of_readAs hmerged hall hread, hdisjoin]

/-- **What is written has the answers of the filter.** By induction on the filter, along its
negations of leaves. -/
theorem NegatesLeaves.exists_writtenFor {s : FilterSpec} (h : NegatesLeaves s)
    (hplain : ∀ c ∈ s.criteria, PlainCriterion c) {f : Fragment} (hwrite : writeSpec s = .ok f) :
    ∃ p, WrittenFor s f p := by
  have hchild : ∀ {children : List FilterSpec},
      (∀ c ∈ FilterSpec.criteriaOfList children, PlainCriterion c) → ∀ s ∈ children,
        ∀ c ∈ s.criteria, PlainCriterion c :=
    fun h s hs c hc => h c (FilterSpec.mem_criteriaOfList.mpr ⟨s, hs, hc⟩)
  induction h generalizing f with
  | criterion c => exact exists_writtenFor_criterion (hplain c (List.mem_singleton_self c)) hwrite
  | @negation s c hwraps =>
      refine exists_writtenFor_negation hwraps (hplain c ?_) hwrite
      rw [FilterSpec.criteria, hwraps.criteria_eq]
      exact List.mem_singleton_self c
  | unwritten hnone => exact absurd hwrite (hnone f)
  | conjunction _ ih =>
      exact exists_writtenFor_conjunction (fun s hs f hf => ih s hs (hchild hplain s hs) hf) hwrite
  | disjunction _ ih =>
      exact exists_writtenFor_disjunction (fun s hs f hf => ih s hs (hchild hplain s hs) hf) hwrite

/-- **What is written reads back with the same answers.** -/
theorem exists_sameAnswers (s : FilterSpec) (hplain : ∀ c ∈ s.criteria, PlainCriterion c)
    (hneg : NegatesLeaves s) {t : String} (hwrite : writeFilter s = .ok t) :
    ∃ s', parseFilter t = .ok s' ∧ SameAnswers s s' := by
  rw [writeFilter] at hwrite
  cases hf : writeSpec s with
  | error e => rw [hf] at hwrite; cases hwrite
  | ok f =>
      rw [hf] at hwrite
      obtain rfl := Except.ok.inj hwrite
      obtain ⟨p, hp⟩ := hneg.exists_writtenFor hplain hf
      obtain ⟨bs, hreads, hread⟩ := hp.written.text
      refine ⟨groupSpec bs, hreads.parseFilter_eq, fun q => ?_⟩
      rw [sameAnswers_of_readAs hp.written hp.normal hread q, hp.answers q]

/-- Filters with the same answers compile together and hold of the same entities. -/
theorem SameAnswers.compile {s s' : FilterSpec} (h : SameAnswers s s') {schema : Schema}
    {root : String} {p : Predicate} (hp : s.compile schema root = .ok p) :
    ∃ p', s'.compile schema root = .ok p' ∧
      ∀ pool handle, p'.holds pool handle = p.holds pool handle := by
  have hanswer : ∀ pool handle, s'.answer ⟨schema, root, pool, handle⟩
      = some (p.holds pool handle) := by
    intro pool handle
    rw [h, FilterSpec.answer_of_compile (q := ⟨schema, root, pool, handle⟩) hp]
  cases hp' : s'.compile schema root with
  | error e =>
      have hnone := hanswer default 0
      rw [FilterSpec.answer, hp'] at hnone
      cases hnone
  | ok p' =>
      refine ⟨p', rfl, fun pool handle => ?_⟩
      have hsome := hanswer pool handle
      rw [FilterSpec.answer_of_compile (q := ⟨schema, root, pool, handle⟩) hp'] at hsome
      exact Option.some.inj hsome

/-- The text of the filter, if it has one, reads back as a filter that compiles where this one
does and then holds of the same entities. -/
def KeepsMeaning (s : FilterSpec) : Prop :=
  ∀ t, writeFilter s = .ok t → ∃ s', parseFilter t = .ok s' ∧
    ∀ schema root p, s.compile schema root = .ok p → ∃ p', s'.compile schema root = .ok p' ∧
      ∀ pool handle, p'.holds pool handle = p.holds pool handle

/-- **A filter with plain literals keeps its meaning as text, as long as only leaves are negated.** -/
theorem keepsMeaning_of_negatesLeaves (s : FilterSpec) (hplain : ∀ c ∈ s.criteria, PlainCriterion c)
    (hneg : NegatesLeaves s) : KeepsMeaning s := by
  intro t hwrite
  obtain ⟨s', hread, hanswers⟩ := exists_sameAnswers s hplain hneg hwrite
  exact ⟨s', hread, fun schema root p hp => hanswers.compile hp⟩

theorem isPathName_age : IsPathName "age" := by decide

/-- An attribute compared with an integer. -/
def ageCriterion (operator : FilterOperator) (i : Int64) : Criterion := ⟨"age", operator, .single (.int i)⟩

theorem plainCriterion_age {operator : FilterOperator} (h : operator.arity = .single) (i : Int64) :
    PlainCriterion (ageCriterion operator i) where
  path := isPathName_age
  arity := h.symm
  plain := by
    intro v hv
    rw [List.mem_singleton.mp hv]
    trivial

/-- A disjunction with a repeated criterion, next to a negated leaf. -/
theorem keepsMeaning_repeated :
    KeepsMeaning (.conjunction
      [ .disjunction [.criterion (ageCriterion .lessThan 1), .criterion (ageCriterion .lessThan 1)],
        .negation (.disjunction [.criterion (ageCriterion .greaterThan 7)]) ]) := by
  refine keepsMeaning_of_negatesLeaves _ ?_ ?_
  · intro c hc
    have hc' : c = ageCriterion .lessThan 1 ∨ c = ageCriterion .greaterThan 7 := by
      simpa [FilterSpec.criteria, FilterSpec.criteriaOfList] using hc
    rcases hc' with rfl | rfl
    · exact plainCriterion_age rfl 1
    · exact plainCriterion_age rfl 7
  · refine .conjunction fun s hs => ?_
    rcases List.mem_cons.mp hs with rfl | hs
    · refine .disjunction fun s hs => ?_
      have hs' : s = .criterion (ageCriterion .lessThan 1) := by simpa using hs
      rw [hs']
      exact .criterion _
    · rw [List.mem_singleton.mp hs]
      exact .negation (.disjunction (.criterion _))

/-- Whoever is neither below nought nor below one: the text asks for whoever is not below nought
or not below one. -/
def neitherBelow : FilterSpec :=
  .negation (.disjunction [.criterion (ageCriterion .lessThan 0), .criterion (ageCriterion .lessThan 1)])

/-- Whoever is not not below one: the text names an operator there is not. -/
def notNotBelow : FilterSpec := .negation (.negation (.criterion (ageCriterion .lessThan 1)))

/-- The clause its text reads as. -/
theorem readable_notBelow :
    (Clause.mk "age" .lessThan true [.value (.int 0), .value (.int 1)]).Readable where
  path := isPathName_age
  literals := by
    have hint : ∀ i : Int64, ReadsLiteral (Value.int i).toText.toList (.value (.int i)) :=
      fun i => (readsNumber_int i).readsLiteral
    simpa using ⟨hint 0, hint 1⟩
  nonempty := by decide
  fits := by decide
  some_literal := by simp
  negation := fun _ => by decide

/-- **Other negations do not keep their meaning**: that of a disjunction, and that of a negation. -/
theorem not_keepsMeaning_of_negated_disjunction_or_negation :
    ((∀ c ∈ neitherBelow.criteria, PlainCriterion c) ∧ ¬ KeepsMeaning neitherBelow) ∧
      (∀ c ∈ notNotBelow.criteria, PlainCriterion c) ∧ ¬ KeepsMeaning notNotBelow := by
  refine ⟨⟨?_, fun h => ?_⟩, ?_, fun h => ?_⟩
  · intro c hc
    have hc' : c = ageCriterion .lessThan 0 ∨ c = ageCriterion .lessThan 1 := by
      simpa [neitherBelow, FilterSpec.criteria, FilterSpec.criteriaOfList] using hc
    rcases hc' with rfl | rfl
    · exact plainCriterion_age rfl 0
    · exact plainCriterion_age rfl 1
  · obtain ⟨s', hread, hmeaning⟩ := h "age:not-less-than:0,1" (by rfl)
    have hparse : parseFilter "age:not-less-than:0,1" = .ok (.disjunction
        [ .negation (.criterion (ageCriterion .lessThan 0)),
          .negation (.criterion (ageCriterion .lessThan 1)) ]) :=
      (Clause.reads readable_notBelow).parseFilter_eq
    rw [hparse] at hread
    obtain rfl := Except.ok.inj hread
    obtain ⟨p', hp', hholds⟩ := hmeaning ⟨[Samples.person]⟩ "person" _ rfl
    obtain rfl := Except.ok.inj hp'
    have hnewborn := hholds ⟨fun _ => Samples.blank Samples.person, 1⟩ 0
    revert hnewborn
    decide
  · intro c hc
    have hc' : c = ageCriterion .lessThan 1 := by
      simpa [notNotBelow, FilterSpec.criteria] using hc
    rw [hc']
    exact plainCriterion_age rfl 1
  · obtain ⟨s', hread, -⟩ := h "age:not-not-less-than:1" (by rfl)
    have hfails : (parseFilter "age:not-not-less-than:1").isOk = false := by decide +kernel
    rw [hread] at hfails
    cases hfails

end EntityStore.QueryText
