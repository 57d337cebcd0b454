import EntityStore.Proofs.QueryText.Formed
import EntityStore.Proofs.QueryText.Regular
import EntityStore.Proofs.QueryText.Values

/-!
# What texts are understood as

A text that is understood gives a flat filter. Its leaves have what the writer asks of a leaf:
attribute names for a path, an operand of the operator's shape, numbers for the bounds of a range,
and a negation that is no operator of its own. Of the literals of a criterion no two are the same
value, because the reader drops repeated ones.
-/

namespace EntityStore.QueryText

variable {q : Value → Prop}

/-! ## Steps that succeed -/

theorem bind_eq_ok {α β ε : Type} {x : Except ε α} {f : α → β} {y : β}
    (h : (do let a ← x; pure (f a)) = (Except.ok y : Except ε β)) : ∃ a, x = .ok a ∧ f a = y := by
  cases x with
  | error e => cases h
  | ok a => exact ⟨a, rfl, Except.ok.inj h⟩

theorem forall₂_of_mapM_ok {α β ε : Type} {f : α → Except ε β} {xs : List α} {ys : List β}
    (h : xs.mapM f = .ok ys) : List.Forall₂ (fun x y => f x = .ok y) xs ys := by
  induction xs generalizing ys with
  | nil =>
      obtain rfl := Except.ok.inj h
      exact .nil
  | cons x xs ih =>
      rw [List.mapM_cons] at h
      cases hx : f x with
      | error e =>
          rw [hx] at h
          cases h
      | ok y =>
          cases hxs : xs.mapM f with
          | error e =>
              rw [hx, hxs] at h
              cases h
          | ok ys' =>
              rw [hx, hxs] at h
              obtain rfl : y :: ys' = ys := Except.ok.inj h
              exact .cons hx (ih hxs)

/-- What a leaf amounts to when it is checked successfully. -/
theorem leaf_eq_ok {negated : Bool} {operator : FilterOperator} {path : String} {operand : Operand}
    {s : FilterSpec} (h : leaf negated operator path operand = .ok s) :
    operand.arity = operator.arity ∧
      s = if negated then .negation (.criterion ⟨path, operator, operand⟩)
        else .criterion ⟨path, operator, operand⟩ := by
  rw [leaf, Criterion.build] at h
  by_cases hpath : path = ""
  · rw [if_pos hpath] at h
    cases h
  · by_cases harity : operand.arity = operator.arity
    · rw [if_neg hpath, if_neg (not_not.mpr harity)] at h
      exact ⟨harity, (Except.ok.inj h).symm⟩
    · rw [if_neg hpath, if_pos harity] at h
      cases h

theorem eq_name_of_ofName? {name : String} {op : FilterOperator}
    (h : FilterOperator.ofName? name = some op) : op.name = name := by
  simpa using List.find?_some h

/-- A negated operator is no operator of its own. -/
theorem ofName?_of_operatorOf? {name : String} {op : FilterOperator} {negated : Bool}
    (h : operatorOf? name = some (op, negated)) :
    negated = true → FilterOperator.ofName? ("not-" ++ op.name) = none := by
  intro hneg
  rw [operatorOf?] at h
  cases hname : FilterOperator.ofName? name with
  | some op' =>
      rw [hname] at h
      obtain ⟨-, rfl⟩ := Prod.mk.inj (Option.some.inj h)
      cases hneg
  | none =>
      rw [hname] at h
      obtain ⟨op', hop, heq⟩ := Option.map_eq_some_iff.mp h
      obtain ⟨rfl, -⟩ := Prod.mk.inj heq
      obtain ⟨base, hbase, hof⟩ := Option.bind_eq_some_iff.mp hop
      -- only a name that is no operator's own is taken apart
      rw [stripNot?] at hbase
      split at hbase
      case isFalse => cases hbase
      case isTrue hbegins =>
        obtain ⟨rest, hrest⟩ := List.isPrefixOf_iff_prefix.mp hbegins
        have hdrop : String.ofList (name.toList.drop 4) = String.ofList rest := by
          rw [← hrest]
          rfl
        rw [eq_name_of_ofName? hof, ← Option.some.inj hbase, hdrop]
        have hwhole : "not-" ++ String.ofList rest = name := by
          rw [← String.toList_inj, String.toList_append]
          simpa using hrest
        rw [hwhole]
        exact hname

/-! ## Flat filters -/

/-- A leaf as a text gives it. -/
structure ParsedLeaf (q : Value → Prop) (c : Criterion) (negated : Bool) : Prop where
  path : IsPathName c.path
  arity : c.operand.arity = c.operator.arity
  literals : ∀ l ∈ operandLiterals c.operand, l.Formed q ∧ isEmptyString l = false
  distinct : DistinctLiterals c
  negation : negated = true →
    c.operand ≠ .list [] ∧ FilterOperator.ofName? ("not-" ++ c.operator.name) = none

namespace ParsedLeaf

variable {c : Criterion} {negated : Bool}

theorem bounds (h : ParsedLeaf q c negated) :
    ∀ low high, c.operand = .range low high → isNumber low = true ∧ isNumber high = true := by
  intro low high hop
  exact (h.literals (.range low high) (by rw [hop]; exact List.mem_singleton_self _)).1.1

theorem writeSpec_criterion (h : ParsedLeaf q c false) :
    writeSpec (.criterion c) = .ok (.criterion (Clause.ofCriterion c false).written) := by
  rw [writeSpec]
  exact writeCriterion_eq h.arity h.bounds

theorem writeSpec_negation (h : ParsedLeaf q c true) :
    writeSpec (.negation (.criterion c)) = .ok (.criterion (Clause.ofCriterion c true).written) := by
  obtain ⟨hne, hop⟩ := h.negation rfl
  rw [writeSpec, writeSpec, writeCriterion_eq h.arity h.bounds]
  exact writeNegation_eq hop (operandLiterals_ne_nil hne)

end ParsedLeaf

variable {leaf : Criterion → Bool → Prop}

theorem Flat.conjuncts {s : FilterSpec} (h : Flat leaf s) : s.conjuncts ≠ [] ∧
    ∀ t ∈ s.conjuncts, Flat leaf t ∧ ∀ nested, t ≠ .conjunction nested := by
  by_cases hs : ∃ nested, s = .conjunction nested
  · obtain ⟨nested, rfl⟩ := hs
    cases h with
    | conjunction two flat hall =>
        refine ⟨?_, fun t ht => ⟨hall t ht, flat t ht⟩⟩
        rintro rfl
        exact absurd two (by decide)
  · have hne := not_exists.mp hs
    rw [conjuncts_of_ne hne]
    refine ⟨by simp, fun t ht => ?_⟩
    rw [List.mem_singleton.mp ht]
    exact ⟨h, hne⟩

theorem Flat.disjuncts {s : FilterSpec} (h : Flat leaf s) : s.disjuncts ≠ [] ∧
    ∀ t ∈ s.disjuncts, Flat leaf t ∧ ∀ nested, t ≠ .disjunction nested := by
  by_cases hs : ∃ nested, s = .disjunction nested
  · obtain ⟨nested, rfl⟩ := hs
    cases h with
    | disjunction two flat hall =>
        refine ⟨?_, fun t ht => ⟨hall t ht, flat t ht⟩⟩
        rintro rfl
        exact absurd two (by decide)
  · have hne := not_exists.mp hs
    rw [disjuncts_of_ne hne]
    refine ⟨by simp, fun t ht => ?_⟩
    rw [List.mem_singleton.mp ht]
    exact ⟨h, hne⟩

/-- Children of flat filters are wrapped into a flat filter, or are that filter. -/
theorem flat_collapse {wrap : List FilterSpec → FilterSpec} {children : List FilterSpec}
    (hwrap : 2 ≤ children.length → Flat leaf (wrap children)) (hne : children ≠ [])
    (h : ∀ s ∈ children, Flat leaf s) : Flat leaf (FilterSpec.collapse wrap children) := by
  match children with
  | [] => exact absurd rfl hne
  | [only] => exact h only (List.mem_singleton_self only)
  | _ :: _ :: _ => exact hwrap (by simp)

theorem flatMap_ne_nil {specs : List FilterSpec} {f : FilterSpec → List FilterSpec} (hne : specs ≠ [])
    (h : ∀ s ∈ specs, f s ≠ []) : specs.flatMap f ≠ [] := by
  obtain ⟨s, rest, rfl⟩ := List.exists_cons_of_ne_nil hne
  rw [List.flatMap_cons]
  exact fun hnil => h s List.mem_cons_self (List.append_eq_nil_iff.mp hnil).1

/-- **The conjunction of flat filters is flat.** -/
theorem Flat.all {specs : List FilterSpec} (hne : specs ≠ []) (h : ∀ s ∈ specs, Flat leaf s) :
    Flat leaf (FilterSpec.all specs) := by
  have hmem : ∀ t ∈ specs.flatMap FilterSpec.conjuncts,
      Flat leaf t ∧ ∀ nested, t ≠ .conjunction nested := by
    intro t ht
    obtain ⟨s, hs, ht⟩ := List.mem_flatMap.mp ht
    exact (h s hs).conjuncts.2 t ht
  have hall := fun t ht => (hmem t ht).1
  exact flat_collapse (fun two => .conjunction two (fun t ht => (hmem t ht).2) hall)
    (flatMap_ne_nil hne fun s hs => (h s hs).conjuncts.1) hall

/-- **The disjunction of flat filters is flat.** -/
theorem Flat.any {specs : List FilterSpec} (hne : specs ≠ []) (h : ∀ s ∈ specs, Flat leaf s) :
    Flat leaf (FilterSpec.any specs) := by
  have hmem : ∀ t ∈ specs.flatMap FilterSpec.disjuncts,
      Flat leaf t ∧ ∀ nested, t ≠ .disjunction nested := by
    intro t ht
    obtain ⟨s, hs, ht⟩ := List.mem_flatMap.mp ht
    exact (h s hs).disjuncts.2 t ht
  have hall := fun t ht => (hmem t ht).1
  exact flat_collapse (fun two => .disjunction two (fun t ht => (hmem t ht).2) hall)
    (flatMap_ne_nil hne fun s hs => (h s hs).disjuncts.1) hall

/-! ## Criteria as written -/

/-- A leaf that has been checked is one a text gives. -/
theorem flat_of_leaf {negated : Bool} {operator : FilterOperator} {path : String} {operand : Operand}
    {s : FilterSpec} (h : QueryText.leaf negated operator path operand = .ok s)
    (hpath : IsPathName path) (hliterals : ∀ l ∈ operandLiterals operand, l.Formed q ∧ isEmptyString l = false)
    (hdistinct : (operandLiterals operand).Pairwise fun k l => k.same l = false)
    (hneg : negated = true →
      operand ≠ .list [] ∧ FilterOperator.ofName? ("not-" ++ operator.name) = none) :
    Flat (ParsedLeaf q) s := by
  obtain ⟨harity, rfl⟩ := leaf_eq_ok h
  cases negated with
  | true => exact .negation ⟨hpath, harity, hliterals, hdistinct, hneg⟩
  | false => exact .criterion ⟨hpath, harity, hliterals, hdistinct, fun h => (by cases h)⟩

/-- Literals that are single values are those values. -/
theorem map_value_of_scalars {operator : FilterOperator} {path : String} {ls : List Literal}
    {vs : List Value} (h : List.Forall₂ (fun l v => scalar operator path l = .ok v) ls vs) :
    vs.map Literal.value = ls := by
  induction h with
  | nil => rfl
  | @cons l v ls vs hl _ ih =>
      rw [List.map_cons, ih]
      cases l with
      | value w =>
          obtain rfl := Except.ok.inj hl
          rfl
      | range low high => cases hl

/-- One criterion for each literal is a flat filter, whatever their operands are made of. -/
theorem flat_of_mapM {operator : FilterOperator} {negated : Bool} {path : String}
    {step : Literal → Except QueryError FilterSpec}
    (hstep : ∀ l s, step l = .ok s → QueryText.leaf negated operator path l.operand = .ok s)
    (hpath : IsPathName path)
    (hneg : negated = true → FilterOperator.ofName? ("not-" ++ operator.name) = none)
    {literals : List Literal} (hliterals : ∀ l ∈ literals, l.Formed q ∧ isEmptyString l = false)
    (hne : literals ≠ []) {specs : List FilterSpec} (hspecs : literals.mapM step = .ok specs) :
    Flat (ParsedLeaf q) (.any specs) := by
  have hsteps := forall₂_of_mapM_ok hspecs
  refine Flat.any ?_ fun s hs => ?_
  · rintro rfl
    cases hsteps
    exact hne rfl
  · obtain ⟨l, hl, hls⟩ := exists_of_mem_forall₂ hsteps s hs
    have hoperand : operandLiterals l.operand = [l] := by cases l <;> rfl
    refine flat_of_leaf (hstep l s hls) hpath ?_ ?_ fun hn => ⟨?_, hneg hn⟩
    · rw [hoperand]
      intro k hk
      rw [List.mem_singleton.mp hk]
      exact hliterals l hl
    · rw [hoperand]
      exact List.pairwise_singleton _ _
    · intro hlist
      rw [hlist] at hoperand
      cases hoperand

/-- **A criterion is understood as a flat filter.** For an operator with one literal a criterion of
several is the disjunction of its literals. -/
theorem RawCriterion.Formed.flat {raw : RawCriterion} (h : raw.Formed q) {spec : FilterSpec}
    (hspec : raw.toSpec = .ok spec) : Flat (ParsedLeaf q) spec := by
  obtain ⟨first, others, hwords, hisWord, hand, hor⟩ := h.path
  have hpath : IsPathName (attributePath raw.path) := by
    rw [hwords]
    exact isPathName_attributePath hisWord hand hor
  -- the literals that are left were read, none is empty, and no two are the same
  have hleft : ∀ l ∈ distinctLiterals [] raw.values, l.Formed q ∧ isEmptyString l = false := by
    intro l hl
    refine ⟨?_, isEmptyString_of_mem_distinctLiterals (fun k hk => (by cases hk)) l hl⟩
    rcases mem_of_mem_distinctLiterals hl with hnil | hl
    · cases hnil
    · exact h.values l hl
  have hdistinct : (distinctLiterals [] raw.values).Pairwise fun k l => k.same l = false :=
    pairwise_distinctLiterals .nil
  unfold RawCriterion.toSpec at hspec
  split at hspec
  · cases hspec
  case h_2 operator negated hoperator =>
    have hneg := ofName?_of_operatorOf? hoperator
    dsimp only at hspec
    generalize distinctLiterals [] raw.values = literals at hspec hleft hdistinct
    split at hspec
    case h_1 =>
      -- no literal is left: an empty list, which is not negated
      refine flat_of_leaf hspec hpath (fun l hl => ?_) .nil (fun hn => by cases hn)
      cases hl
    case h_2 hne =>
      have hne' : literals ≠ [] := fun hnil => hne hnil
      split at hspec
      case h_1 =>
        -- a membership operator takes all literals at once
        cases hvalues : literals.mapM (scalar operator (attributePath raw.path)) with
        | error e =>
            rw [hvalues] at hspec
            cases hspec
        | ok values =>
            rw [hvalues] at hspec
            have hmap := map_value_of_scalars (forall₂_of_mapM_ok hvalues)
            have hoperand : operandLiterals (.list values) = literals := hmap
            refine flat_of_leaf hspec hpath ?_ ?_ fun hn => ⟨?_, hneg hn⟩
            · rw [hoperand]
              exact hleft
            · rw [hoperand]
              exact hdistinct
            · rintro ⟨⟩
              exact hne' hmap.symm
      case h_2 =>
        obtain ⟨specs, hspecs, rfl⟩ := bind_eq_ok hspec
        refine flat_of_mapM (fun l s hs => ?_) hpath hneg hleft hne' hspecs
        cases l with
        | value v => cases hs
        | range low high => exact hs
      case h_3 =>
        obtain ⟨specs, hspecs, rfl⟩ := bind_eq_ok hspec
        refine flat_of_mapM (fun l s hs => ?_) hpath hneg hleft hne' hspecs
        cases l with
        | value v => exact hs
        | range low high => cases hs

/-! ## Expressions and texts -/

theorem forall₂_of_toSpecs {es : List FilterExpr} {specs : List FilterSpec}
    (h : FilterExpr.toSpecs es = .ok specs) :
    List.Forall₂ (fun e s => FilterExpr.toSpec e = .ok s) es specs := by
  induction es generalizing specs with
  | nil =>
      obtain rfl := Except.ok.inj h
      exact .nil
  | cons e es ih =>
      rw [FilterExpr.toSpecs] at h
      split at h
      · cases h
      case h_2 s hs =>
        split at h
        · cases h
        case h_2 rest hrest =>
          obtain rfl := Except.ok.inj h
          exact .cons hs (ih hrest)

/-- **A formed expression is understood as a flat filter.** By induction on the expression; joining
flattens what the groups nest. -/
theorem FilterExpr.Formed.flat {e : FilterExpr} (h : e.Formed q) :
    ∀ {spec : FilterSpec}, e.toSpec = .ok spec → Flat (ParsedLeaf q) spec := by
  have hchildren : ∀ {es : List FilterExpr} {specs : List FilterSpec}, es ≠ [] →
      (∀ e ∈ es, ∀ {s : FilterSpec}, e.toSpec = .ok s → Flat (ParsedLeaf q) s) →
      FilterExpr.toSpecs es = .ok specs → specs ≠ [] ∧ ∀ s ∈ specs, Flat (ParsedLeaf q) s := by
    intro es specs hne ih hspecs
    have hsteps := forall₂_of_toSpecs hspecs
    refine ⟨?_, fun s hs => ?_⟩
    · rintro rfl
      cases hsteps
      exact hne rfl
    · obtain ⟨e, he, hes⟩ := exists_of_mem_forall₂ hsteps s hs
      exact ih e he hes
  induction h with
  | criterion hc =>
      intro spec hspec
      rw [FilterExpr.toSpec] at hspec
      exact hc.flat hspec
  | and some_term _ ih =>
      intro spec hspec
      obtain ⟨specs, hspecs, rfl⟩ := toSpec_and_iff.mp hspec
      obtain ⟨hne, hflat⟩ := hchildren some_term ih hspecs
      exact Flat.all hne hflat
  | or some_branch _ ih =>
      intro spec hspec
      obtain ⟨specs, hspecs, rfl⟩ := toSpec_or_iff.mp hspec
      obtain ⟨hne, hflat⟩ := hchildren some_branch ih hspecs
      exact Flat.any hne hflat

/-- **The filter of a text is flat**, of values of any sort the tokens of the text are of. -/
theorem flat_of_parseFilter {s : String} {ts : List Token} (hcut : tokens s = .ok ts)
    (hts : YieldOnly q ts) {spec : FilterSpec} (h : parseFilter s = .ok spec) :
    Flat (ParsedLeaf q) spec := by
  unfold parseFilter at h
  split at h
  · cases h
  case h_2 e he => exact (formed_of_readFilter hcut hts he).flat h

theorem exists_tokens_of_parseFilter {s : String} {spec : FilterSpec} (h : parseFilter s = .ok spec) :
    ∃ ts, tokens s = .ok ts := by
  cases hcut : tokens s with
  | ok ts => exact ⟨ts, rfl⟩
  | error e =>
      rw [parseFilter, readFilter, hcut] at h
      cases h

/-! ## Values of texts -/

theorem yieldOnly_of_tokens {s : String} {ts : List Token} (h : tokens s = .ok ts) :
    YieldOnly TextValue ts := by
  intro t ht v hv
  cases hv with
  | number _ hread => exact (isNumber_of_readNumber hread).2
  | bound _ _ hread => exact (isNumber_of_readNumber hread).2
  | quoted => exact textValue_classify _
  | url hkind =>
      show looksLikeUrl (String.ofList t.text).toList = true
      rw [String.toList_ofList]
      exact (cut_of_tokensFrom h t ht).url hkind
  | bool => trivial
  | null => trivial

/-- **Whatever text a filter is parsed from, its leaves can be written and are known to hold values
of texts.** -/
theorem flat_textValue_of_parseFilter {s : String} {spec : FilterSpec} (h : parseFilter s = .ok spec) :
    Flat (ParsedLeaf TextValue) spec := by
  obtain ⟨ts, hcut⟩ := exists_tokens_of_parseFilter h
  exact flat_of_parseFilter hcut (yieldOnly_of_tokens hcut) h

end EntityStore.QueryText
