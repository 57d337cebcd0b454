import EntityStore.Proofs.QueryText.Fragments

/-!
# Filters that read back as they are

A filter is regular when its leaves can be written, none of its composites repeats a composite of
its own kind, and no literal of a written list is the same value as another. **The text of a
regular filter reads back as that filter.** A disjunction needs the most care: neighbouring leaves
are written as one list, so the literals that must differ are those of the joined clauses.
-/

namespace EntityStore.QueryText

/-! ## Leaves -/

/-- The clause a criterion is written as. -/
def Clause.ofCriterion (c : Criterion) (negated : Bool) : Clause :=
  ⟨c.path, c.operator, negated, operandLiterals c.operand⟩

/-- A leaf that can be written, and whose text is understood. -/
structure WritableLeaf (c : Criterion) (negated : Bool) : Prop where
  arity : c.operand.arity = c.operator.arity
  bounds : ∀ low high, c.operand = .range low high → isNumber low = true ∧ isNumber high = true
  readable : (Clause.ofCriterion c negated).Readable

/-- No literal of the criterion is the same value as another. -/
def DistinctLiterals (c : Criterion) : Prop :=
  (operandLiterals c.operand).Pairwise fun k l => k.same l = false

/-- A leaf of a filter, as a part of it. -/
def partOf : FilterSpec → Part
  | .criterion c => .clause (Clause.ofCriterion c false)
  | .negation (.criterion c) => .clause (Clause.ofCriterion c true)
  | spec => .spec spec

theorem filterMap_value? (vs : List Value) : (vs.map Literal.value).filterMap Literal.value? = vs := by
  induction vs with
  | nil => rfl
  | cons v vs ih => simp [Literal.value?, ih]

/-- The criteria of the clause of a leaf are that leaf. -/
theorem Clause.leaves_ofCriterion {c : Criterion} (h : c.operand.arity = c.operator.arity)
    (negated : Bool) :
    (Clause.ofCriterion c negated).leaves (operandLiterals c.operand)
      = [(Clause.ofCriterion c negated).leaf c.operand] := by
  rw [Clause.leaves]
  cases hop : c.operand with
  | list vs =>
      have hlist : (Clause.ofCriterion c negated).operator.arity = .list := by
        rw [Clause.ofCriterion, ← h, hop]
        rfl
      rw [if_pos hlist, operandLiterals, filterMap_value?]
  | single v =>
      have hlist : (Clause.ofCriterion c negated).operator.arity ≠ .list := by
        rw [Clause.ofCriterion, ← h, hop]
        simp [Operand.arity]
      rw [if_neg hlist]
      rfl
  | range low high =>
      have hlist : (Clause.ofCriterion c negated).operator.arity ≠ .list := by
        rw [Clause.ofCriterion, ← h, hop]
        simp [Operand.arity]
      rw [if_neg hlist]
      rfl

/-- A criterion is written as its clause. -/
theorem writeCriterion_eq {c : Criterion} (harity : c.operand.arity = c.operator.arity)
    (hbounds : ∀ low high, c.operand = .range low high → isNumber low = true ∧ isNumber high = true) :
    writeCriterion c = .ok (.criterion (Clause.ofCriterion c false).written) := by
  have htexts : operandTexts c.operand
      = .ok ((operandLiterals c.operand).map Literal.text, c.operator.arity != .list) := by
    rw [← harity]
    cases hop : c.operand with
    | single v => rfl
    | range low high =>
        obtain ⟨hlow, hhigh⟩ := hbounds low high hop
        rw [operandTexts, hlow, hhigh]
        rfl
    | list vs => simp [operandTexts, operandLiterals, Operand.arity, Literal.text, Function.comp_def]
  rw [writeCriterion, htexts]
  rfl

/-- A clause is negated in its operator. -/
theorem writeNegation_eq {c : Criterion}
    (hop : FilterOperator.ofName? ("not-" ++ c.operator.name) = none)
    (hne : operandLiterals c.operand ≠ []) :
    writeNegation (.criterion (Clause.ofCriterion c false).written)
      = .ok (.criterion (Clause.ofCriterion c true).written) := by
  have hvalues : ((operandLiterals c.operand).map Literal.text).isEmpty = false := by
    rw [List.isEmpty_eq_false_iff]
    simpa using hne
  have hwritten : (Clause.ofCriterion c false).written = ⟨writtenPath c.path, c.operator.name,
      (operandLiterals c.operand).map Literal.text, c.operator.arity != .list⟩ := rfl
  rw [hwritten, writeNegation, hop, hvalues]
  rfl

theorem operandLiterals_ne_nil {operand : Operand} (h : operand ≠ .list []) :
    operandLiterals operand ≠ [] := by
  cases operand with
  | single v => simp [operandLiterals]
  | range low high => simp [operandLiterals]
  | list vs =>
      rw [operandLiterals, ne_eq, List.map_eq_nil_iff]
      rintro rfl
      exact h rfl

theorem fits_of_mem_operandLiterals {operand : Operand} :
    ∀ l ∈ operandLiterals operand, l.fits operand.arity = true := by
  cases operand <;> simp [operandLiterals, Operand.arity, Literal.fits]

/-- What makes a leaf writable: a path and literals that are read back, numbers for the bounds of
a range, and a negation that has literals and is no operator of its own. -/
theorem writableLeaf {c : Criterion} {negated : Bool} (path : IsPathName c.path)
    (arity : c.operand.arity = c.operator.arity)
    (literals : ∀ l ∈ operandLiterals c.operand,
      ReadsLiteral l.text.toList l ∧ isEmptyString l = false)
    (bounds : ∀ low high, c.operand = .range low high → isNumber low = true ∧ isNumber high = true)
    (negation : negated = true →
      c.operand ≠ .list [] ∧ FilterOperator.ofName? ("not-" ++ c.operator.name) = none) :
    WritableLeaf c negated where
  arity := arity
  bounds := bounds
  readable :=
    { path := path
      literals := fun l hl => (literals l hl).1
      nonempty := fun l hl => (literals l hl).2
      fits := fun l hl => by
        have := fits_of_mem_operandLiterals l hl
        rwa [arity] at this
      some_literal := by
        rintro (hneg | hlist)
        · exact operandLiterals_ne_nil (negation hneg).1
        · refine operandLiterals_ne_nil fun hop => hlist ?_
          rw [Clause.ofCriterion, ← arity, hop]
          rfl
      negation := fun hneg => (negation hneg).2 }

theorem WritableLeaf.writeSpec_criterion {c : Criterion} (h : WritableLeaf c false) :
    writeSpec (.criterion c) = .ok (.criterion (Clause.ofCriterion c false).written) := by
  rw [writeSpec]
  exact writeCriterion_eq h.arity h.bounds

theorem WritableLeaf.writeSpec_negation {c : Criterion} (h : WritableLeaf c true) :
    writeSpec (.negation (.criterion c))
      = .ok (.criterion (Clause.ofCriterion c true).written) := by
  rw [writeSpec, writeSpec, writeCriterion_eq h.arity h.bounds]
  exact writeNegation_eq (h.readable.negation rfl) (h.readable.some_literal (.inl rfl))

/-! ## Regular filters -/

/-- A filter of leaves of the given sort: every composite has at least two children and none of
its own kind, and only leaves are negated. -/
inductive Flat (leaf : Criterion → Bool → Prop) : FilterSpec → Prop
  | criterion {c : Criterion} (h : leaf c false) : Flat leaf (.criterion c)
  | negation {c : Criterion} (h : leaf c true) : Flat leaf (.negation (.criterion c))
  | conjunction {children : List FilterSpec} (two : 2 ≤ children.length)
      (flat : ∀ s ∈ children, ∀ nested, s ≠ .conjunction nested)
      (h : ∀ s ∈ children, Flat leaf s) : Flat leaf (.conjunction children)
  | disjunction {children : List FilterSpec} (two : 2 ≤ children.length)
      (flat : ∀ s ∈ children, ∀ nested, s ≠ .disjunction nested)
      (h : ∀ s ∈ children, Flat leaf s) : Flat leaf (.disjunction children)

/-- A filter whose text reads back as that very filter. -/
inductive Regular : FilterSpec → Prop
  | criterion {c : Criterion} (leaf : WritableLeaf c false) (distinct : DistinctLiterals c) :
      Regular (.criterion c)
  | negation {c : Criterion} (leaf : WritableLeaf c true) (distinct : DistinctLiterals c) :
      Regular (.negation (.criterion c))
  | conjunction {children : List FilterSpec} (two : 2 ≤ children.length)
      (flat : ∀ s ∈ children, ∀ nested, s ≠ .conjunction nested)
      (regular : ∀ s ∈ children, Regular s) : Regular (.conjunction children)
  | disjunction {first second : FilterSpec} {rest : List FilterSpec}
      (flat : ∀ s ∈ first :: second :: rest, ∀ nested, s ≠ .disjunction nested)
      (regular : ∀ s ∈ first :: second :: rest, Regular s)
      (distinct : ∀ p ∈ (partOf first).joinAll ((second :: rest).map partOf), p.Distinct) :
      Regular (.disjunction (first :: second :: rest))

theorem conjuncts_of_ne {s : FilterSpec} (h : ∀ nested, s ≠ .conjunction nested) :
    s.conjuncts = [s] := by
  cases s with
  | conjunction nested => exact absurd rfl (h nested)
  | criterion c => rfl
  | disjunction nested => rfl
  | negation child => rfl

theorem disjuncts_of_ne {s : FilterSpec} (h : ∀ nested, s ≠ .disjunction nested) :
    s.disjuncts = [s] := by
  cases s with
  | disjunction nested => exact absurd rfl (h nested)
  | criterion c => rfl
  | conjunction nested => rfl
  | negation child => rfl

/-- What is joined into a filter that is no conjunction is that filter alone. -/
theorem flatMap_conjuncts_of_joinSpecs {specs : List FilterSpec} {s : FilterSpec}
    (h : joinSpecs .all specs = s) (hs : ∀ nested, s ≠ .conjunction nested) :
    specs.flatMap FilterSpec.conjuncts = [s] := by
  have hall : FilterSpec.all specs = s → specs.flatMap FilterSpec.conjuncts = [s] := by
    intro hall
    rw [FilterSpec.all, FilterSpec.collapse.eq_def] at hall
    split at hall
    case h_1 heq => rw [heq, hall]
    case h_2 => exact absurd hall.symm (hs _)
  rcases specs with _ | ⟨only, _ | _⟩
  · exact hall h
  · obtain rfl : only = s := h
    rw [List.flatMap_singleton, conjuncts_of_ne hs]
  · exact hall h

@[inherit_doc flatMap_conjuncts_of_joinSpecs]
theorem flatMap_disjuncts_of_joinSpecs {specs : List FilterSpec} {s : FilterSpec}
    (h : joinSpecs .any specs = s) (hs : ∀ nested, s ≠ .disjunction nested) :
    specs.flatMap FilterSpec.disjuncts = [s] := by
  have hany : FilterSpec.any specs = s → specs.flatMap FilterSpec.disjuncts = [s] := by
    intro hany
    rw [FilterSpec.any, FilterSpec.collapse.eq_def] at hany
    split at hany
    case h_1 heq => rw [heq, hany]
    case h_2 => exact absurd hany.symm (hs _)
  rcases specs with _ | ⟨only, _ | _⟩
  · exact hany h
  · obtain rfl : only = s := h
    rw [List.flatMap_singleton, disjuncts_of_ne hs]
  · exact hany h

/-! ## Joining different literals -/

/-- Where equal values are written alike, joining clauses keeps their literals different: a
literal that is written already is not joined. -/
theorem Part.distinct_joinAll {q : Literal → Prop}
    (alike : ∀ k l, q k → q l → k.same l = true → k.text = l.text) {p : Part} {ps : List Part}
    (hp : p.Distinct ∧ p.AllLiterals q) (hps : ∀ p ∈ ps, p.Distinct ∧ p.AllLiterals q) :
    ∀ r ∈ p.joinAll ps, r.Distinct := by
  have hall := Part.forall_joinAll (P := fun p => p.Distinct ∧ p.AllLiterals q) ?_ hp hps
  · exact fun r hr => (hall r hr).1
  · intro a b m hm ha hb
    refine ⟨?_, Part.allLiterals_join hm ha.2 hb.2⟩
    obtain ⟨⟨-, -, -, -, htexts⟩, rfl⟩ := Clause.join?_eq_some hm
    refine List.pairwise_append.mpr ⟨ha.1, hb.1, fun k hk l hl => ?_⟩
    by_contra hsame
    rw [Bool.not_eq_false] at hsame
    refine htexts l hl ?_
    rw [← alike k l (ha.2 k hk) (hb.2 l hl) hsame]
    exact List.mem_map_of_mem hk

/-! ## What parts stand for -/

namespace Part

/-- The filter a part stands for. -/
def whole : Part → FilterSpec
  | .clause c => .any (c.leaves c.literals)
  | .spec s => s

/-- A clause of different literals is read as what it stands for. -/
theorem kept_eq {c : Clause} {f : Fragment} (h : (Part.clause c).Written Eq f)
    (hdistinct : (Part.clause c).Distinct) : c.kept = c.literals := by
  cases h with
  | clause hc => exact distinctLiterals_of_pairwise hc.nonempty hdistinct

theorem groupSpec_of_readAs {p : Part} {f : Fragment} (h : p.Written Eq f) (hdistinct : p.Distinct)
    {bs : List (List FilterSpec)} (hread : p.ReadAs Eq bs) : groupSpec bs = p.whole := by
  cases hread with
  | clause c =>
      rw [kept_eq h hdistinct]
      rfl
  | spec hmeans => exact hmeans.symm

theorem distinct_partOf {s : FilterSpec} (h : Regular s) : (partOf s).Distinct := by
  cases h with
  | criterion leaf distinct => exact distinct
  | negation leaf distinct => exact distinct
  | conjunction => trivial
  | disjunction => trivial

theorem disjuncts_partOf {s : FilterSpec} (h : Regular s) : (partOf s).disjuncts = [s] := by
  cases h with
  | criterion leaf => exact Clause.leaves_ofCriterion leaf.arity false
  | negation leaf => exact Clause.leaves_ofCriterion leaf.arity true
  | conjunction => rfl
  | disjunction => rfl

theorem flatMap_disjuncts_map_partOf {ss : List FilterSpec} (h : ∀ s ∈ ss, Regular s) :
    (ss.map partOf).flatMap disjuncts = ss := by
  induction ss with
  | nil => rfl
  | cons s ss ih =>
      rw [List.map_cons, List.flatMap_cons, disjuncts_partOf (h s List.mem_cons_self),
        ih fun s hs => h s (List.mem_cons_of_mem _ hs)]
      rfl

end Part

theorem any_of_flat {children : List FilterSpec}
    (flat : ∀ s ∈ children, ∀ nested, s ≠ FilterSpec.disjunction nested) :
    FilterSpec.any children = FilterSpec.collapse .disjunction children := by
  have hflat : children.flatMap FilterSpec.disjuncts = children := by
    induction children with
    | nil => rfl
    | cons s ss ih =>
        rw [List.flatMap_cons, disjuncts_of_ne (flat s List.mem_cons_self),
          ih fun s hs => flat s (List.mem_cons_of_mem _ hs)]
        rfl
  rw [FilterSpec.any, hflat]

/-! ## Writing regular filters -/

/-- The filter is written as the fragment, which is that of the part. `q` relates the filter and
the part, which is the leaf itself or the whole filter unless the filter is a disjunction. -/
structure WrittenAs (means : FilterSpec → FilterSpec → Prop) (q : FilterSpec → Part → Prop)
    (s : FilterSpec) (f : Fragment) (p : Part) : Prop where
  write : writeSpec s = .ok f
  written : p.Written means f
  holds : q s p
  part : (∀ nested, s ≠ .disjunction nested) → p = partOf s

/-- Filters that are written one by one are written in a row. -/
theorem exists_writeSpecs {means : FilterSpec → FilterSpec → Prop} {q : FilterSpec → Part → Prop}
    {ss : List FilterSpec} (h : ∀ s ∈ ss, ∃ f p, WrittenAs means q s f p) :
    ∃ fs ps, writeSpecs ss = .ok fs ∧ List.Forall₂ (Part.Written means) ps fs ∧
      List.Forall₂ q ss ps ∧ ((∀ s ∈ ss, ∀ nested, s ≠ .disjunction nested) → ps = ss.map partOf) := by
  induction ss with
  | nil => exact ⟨[], [], rfl, .nil, .nil, fun _ => rfl⟩
  | cons s ss ih =>
      obtain ⟨f, p, hs⟩ := h s List.mem_cons_self
      obtain ⟨fs, ps, hwrite, hwritten, hparts, hpartOf⟩ :=
        ih fun s hs => h s (List.mem_cons_of_mem _ hs)
      refine ⟨f :: fs, p :: ps, ?_, .cons hs.written hwritten, .cons hs.holds hparts, fun hflat => ?_⟩
      · rw [writeSpecs, hs.write]
        dsimp only
        rw [hwrite]
      · rw [hs.part (hflat s List.mem_cons_self),
          hpartOf fun s hs => hflat s (List.mem_cons_of_mem _ hs)]
        rfl

/-- The part is of different literals and stands for the filter. -/
def Part.StandsFor (s : FilterSpec) (p : Part) : Prop := p.Distinct ∧ p.whole = s

/-- The terms that parts of a conjunction are read as are the filters they stand for. -/
theorem flatMap_conjuncts_flatten {ss : List FilterSpec} {ps : List Part} {fs : List Fragment}
    {ts : List (List FilterSpec)} (hwritten : List.Forall₂ (Part.Written Eq) ps fs)
    (hparts : List.Forall₂ Part.StandsFor ss ps)
    (hread : List.Forall₂ (fun p terms => p.ReadAs Eq [terms]) ps ts)
    (flat : ∀ s ∈ ss, ∀ nested, s ≠ .conjunction nested) :
    ts.flatten.flatMap FilterSpec.conjuncts = ss := by
  induction hparts generalizing fs ts with
  | nil =>
      cases hread
      rfl
  | @cons s p ss ps hp hps ih =>
      cases hread with
      | @cons _ terms _ ts hterms hts =>
      cases hwritten with
      | @cons _ f _ fs hf hfs =>
      have hspec : joinSpecs .all terms = s := (Part.groupSpec_of_readAs hf hp.1 hterms).trans hp.2
      rw [List.flatten_cons, List.flatMap_append,
        flatMap_conjuncts_of_joinSpecs hspec (flat s List.mem_cons_self),
        ih hfs hts fun s hs => flat s (List.mem_cons_of_mem _ hs)]
      rfl

/-- What a part of a disjunction is read as contributes what the part does. -/
theorem flatMap_disjuncts_of_readAs {p : Part} {f : Fragment} {bs : List (List FilterSpec)}
    (hwritten : p.Written Eq f) (hdistinct : p.Distinct) (hread : p.ReadAs Eq bs)
    (flat : ∀ s ∈ p.disjuncts, ∀ nested, s ≠ .disjunction nested) :
    (bs.map (joinSpecs .all)).flatMap FilterSpec.disjuncts = p.disjuncts := by
  cases hread with
  | clause c =>
      rw [Part.disjuncts] at flat ⊢
      rw [Part.kept_eq hwritten hdistinct]
      change (FilterSpec.any (c.leaves c.literals)).disjuncts ++ [] = c.leaves c.literals
      rw [List.append_nil, any_of_flat flat, FilterSpec.collapse.eq_def]
      split
      case h_1 only heq =>
        rw [heq] at flat ⊢
        exact disjuncts_of_ne (flat only (List.mem_singleton_self only))
      case h_2 => rfl
  | @spec s bs hmeans =>
      exact flatMap_disjuncts_of_joinSpecs hmeans.symm (flat s (List.mem_singleton_self s))

theorem flatMap_disjuncts_flatten {qs : List Part} {gs : List Fragment}
    {bss : List (List (List FilterSpec))} (hwritten : List.Forall₂ (Part.Written Eq) qs gs)
    (hdistinct : ∀ q ∈ qs, q.Distinct) (hread : List.Forall₂ (Part.ReadAs Eq) qs bss)
    (flat : ∀ s ∈ qs.flatMap Part.disjuncts, ∀ nested, s ≠ .disjunction nested) :
    (bss.flatten.map (joinSpecs .all)).flatMap FilterSpec.disjuncts = qs.flatMap Part.disjuncts := by
  induction hread generalizing gs with
  | nil => rfl
  | @cons q bs qs bss hq hqs ih =>
      cases hwritten with
      | @cons _ g _ gs hg hgs =>
      rw [List.flatMap_cons] at flat ⊢
      rw [List.flatten_cons, List.map_append, List.flatMap_append,
        flatMap_disjuncts_of_readAs hg (hdistinct q List.mem_cons_self) hq
          fun s hs => flat s (List.mem_append_left _ hs),
        ih hgs (fun q hq => hdistinct q (List.mem_cons_of_mem _ hq))
          fun s hs => flat s (List.mem_append_right _ hs)]

/-- **A regular filter is written as what reads back as it.** -/
theorem Regular.exists_writtenAs {s : FilterSpec} (h : Regular s) :
    ∃ f p, WrittenAs Eq Part.StandsFor s f p := by
  induction h with
  | @criterion c leaf distinct =>
      refine ⟨_, _, leaf.writeSpec_criterion, .clause leaf.readable, ⟨distinct, ?_⟩, fun _ => rfl⟩
      exact congrArg FilterSpec.any (Clause.leaves_ofCriterion leaf.arity false)
  | @negation c leaf distinct =>
      refine ⟨_, _, leaf.writeSpec_negation, .clause leaf.readable, ⟨distinct, ?_⟩, fun _ => rfl⟩
      exact congrArg FilterSpec.any (Clause.leaves_ofCriterion leaf.arity true)
  | @conjunction children two flat regular ih =>
      obtain ⟨fs, ps, hwrite, hwritten, hparts, -⟩ := exists_writeSpecs ih
      have hne : ps ≠ [] := by
        rintro rfl
        cases hparts
        exact absurd two (by simp)
      obtain ⟨f, ts, hf, hcomposite, hread⟩ := writeConjunction_written hne hwritten
      refine ⟨f, .spec (.conjunction children), ?_, .spec hcomposite ?_, ⟨trivial, rfl⟩,
        fun _ => rfl⟩
      · rw [writeSpec, hwrite]
        exact hf
      · have hterms := flatMap_conjuncts_flatten hwritten hparts hread flat
        exact (joinSpecs_all_eq hterms two).symm
  | @disjunction first second rest flat regular distinct ih =>
      obtain ⟨fs, ps, hwrite, hwritten, -, hpartOf⟩ := exists_writeSpecs ih
      obtain rfl := hpartOf flat
      cases hwritten with
      | @cons _ f _ fs hf hfs =>
      have hmerged := mergeAll_written hf hfs
      have hdisjuncts : ((partOf first).joinAll ((second :: rest).map partOf)).flatMap Part.disjuncts
          = first :: second :: rest := by
        rw [Part.flatMap_disjuncts_joinAll, ← List.map_cons, Part.flatMap_disjuncts_map_partOf regular]
      obtain ⟨g, hg, hcases⟩ := writeDisjunction_written hf hfs
      have hwriteSpec : writeSpec (.disjunction (first :: second :: rest)) = .ok g := by
        rw [writeSpec, hwrite]
        exact hg
      rcases hcases with ⟨q, hq, hqg⟩ | ⟨bss, hcomposite, hread⟩
      · -- everything is one clause
        rw [hq, List.flatMap_singleton] at hdisjuncts
        refine ⟨g, q, hwriteSpec, hqg,
          ⟨distinct q (by rw [hq]; exact List.mem_singleton_self q), ?_⟩, fun hne => absurd rfl (hne _)⟩
        cases q with
        | spec s => cases hdisjuncts
        | clause c =>
            rw [Part.disjuncts] at hdisjuncts
            rw [Part.whole, hdisjuncts, any_of_flat flat]
            rfl
      · -- more than one clause is left: the branches of each, side by side
        refine ⟨g, .spec (.disjunction (first :: second :: rest)), hwriteSpec, .spec hcomposite ?_,
          ⟨trivial, rfl⟩, fun hne => absurd rfl (hne _)⟩
        refine (joinSpecs_any_eq ?_ (by simp)).symm
        rw [flatMap_disjuncts_flatten hmerged distinct hread, hdisjuncts]
        rw [hdisjuncts]
        exact flat

/-- **The text of a regular filter reads back as that filter.** -/
theorem Regular.parseFilter_writeFilter {s : FilterSpec} (h : Regular s) :
    ∃ t, writeFilter s = .ok t ∧ parseFilter t = .ok s := by
  obtain ⟨f, p, hs⟩ := h.exists_writtenAs
  obtain ⟨bs, hreads, hread⟩ := hs.written.text
  refine ⟨f.text, by rw [writeFilter, hs.write]; rfl, ?_⟩
  rw [hreads.parseFilter_eq, Part.groupSpec_of_readAs hs.written hs.holds.1 hread, hs.holds.2]

end EntityStore.QueryText
