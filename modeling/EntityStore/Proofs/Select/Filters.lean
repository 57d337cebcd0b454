import EntityStore.Proofs.Filter.Criteria
import EntityStore.Proofs.Schema.Walk
import EntityStore.Proofs.Select.Leaf
import EntityStore.Proofs.Select.Truth
import Mathlib.Data.List.Nodup

/-!
# Filters over entities and over rows

Where a path crosses a relation, the process follows handles and the query asks for a row in
another table. The two meet because of what the tables are: a to-one column holds an id that only
one row of the other table has, and the rows that refer back are those of the related entities.
So a row satisfies the condition of a path exactly when some value at the end of the path passes
the test, and a filter built of conditions follows the filter built of tests through every
conjunction, disjunction and negation.
-/

namespace EntityStore

/-- What is asked of the literals of a criterion: no number is a NaN, and an operator on
substrings is given a text to look for. -/
structure Criterion.WellPosed (c : Criterion) : Prop where
  numbers : ∀ v ∈ c.operand.values, v.isNaN = false
  texts : c.operator.isTextual = true → ∀ v, c.operand = .single v → v.text?.isSome = true

/-- All criteria of a filter are well posed. -/
def FilterSpec.WellPosed (spec : FilterSpec) : Prop := ∀ c ∈ spec.criteria, c.WellPosed

/-! ## What a check leaves to compare -/

namespace Criterion

/-- Checked literals are of the kind of the attribute. -/
theorem accepts_of_checkLast {c : Criterion} {a : Attribute} {kind : ValueKind}
    (h : c.checkLast a = .ok ()) (hkind : a.kind = .terminal (some kind)) :
    ∀ v ∈ c.operand.values, kind.accepts v = true := by
  unfold checkLast at h
  rw [hkind] at h
  dsimp only at h
  split at h
  · cases h
  · unfold checkLiterals at h
    split at h
    · cases h
    · rename_i hnone
      simpa using hnone

/-- Checked literals of a relation are ids. -/
theorem idLiteral_of_checkLast {c : Criterion} {a : Attribute} (h : c.checkLast a = .ok ())
    (hrel : a.isTerminal = false) : ∀ v ∈ c.operand.values, isIdLiteral v = true := by
  have hcheck : c.checkRelation = .ok () := by
    unfold checkLast at h
    split at h
    · rename_i hkind
      rw [Attribute.isTerminal, hkind] at hrel
      cases hrel
    · rename_i hkind
      rw [Attribute.isTerminal, hkind] at hrel
      cases hrel
    · exact h
  unfold checkRelation at hcheck
  split at hcheck
  · cases hcheck
  · split at hcheck
    · cases hcheck
    · rename_i hnone
      simpa using hnone

end Criterion

/-- Ids compare with ids. -/
theorem Value.meets_of_ids {x v : Value} (hx : Criterion.isIdLiteral x = true)
    (hv : Criterion.isIdLiteral v = true) : x.Meets v := by
  cases x with
  | null => exact .inl rfl
  | int a =>
      cases v with
      | null => exact .inr (.inl rfl)
      | int b => exact .inr (.inr rfl)
      | _ => cases hv
  | _ => cases hx

theorem Value.agrees_int {a b : Int64} : (Value.int a).agrees (.int b) = true ↔ a = b := by
  rw [agrees, compare?, beq_iff_eq, Option.some.injEq, Std.LawfulEqOrd.compare_eq_iff_eq,
    Int64.toInt_inj]

/-! ## Rows of related entities -/

namespace Dataset.Image

variable {schema : Schema} {d : Dataset} {t u : EntityType} {h r s : Handle}

/-- Two entities of a type with the same id are one. -/
theorem eq_of_idValue (hd : d.Image schema) (hu : schema.Registered u) (hr : r ∈ d.members u.name)
    (hs : s ∈ d.members u.name) (heq : d.pool.idValue r = d.pool.idValue s) : r = s :=
  List.inj_on_of_nodup_map (hd.unique u hu) hr hs heq

/-- Comparing ids tells entities of a type apart. -/
theorem agrees_iff_eq (hd : d.Image schema) (hu : schema.Registered u)
    (hr : r ∈ d.members u.name) (hs : s ∈ d.members u.name) :
    (d.pool.idValue r).agrees (d.pool.idValue s) = true ↔ r = s := by
  obtain ⟨a, ha⟩ := hd.ids u hu r hr
  obtain ⟨b, hb⟩ := hd.ids u hu s hs
  rw [ha, hb, Value.agrees_int]
  constructor
  · intro hab
    exact hd.eq_of_idValue hu hr hs (by rw [ha, hb, hab])
  · intro hrs
    rw [hrs, hb] at ha
    exact (Value.int.inj ha).symm

theorem isIdLiteral_idValue (hd : d.Image schema) (hu : schema.Registered u)
    (hr : r ∈ d.members u.name) : Criterion.isIdLiteral (d.pool.idValue r) = true := by
  obtain ⟨a, ha⟩ := hd.ids u hu r hr
  rw [ha]
  rfl

/-- A related row is the row of a related entity. -/
theorem exists_row (hd : d.Image schema) (hu : schema.Registered u) {p : Row → Prop} :
    (∃ row ∈ d.tables u.table, p row) ↔ ∃ r ∈ d.members u.name, p (d.row r) := by
  rw [hd.rows u hu]
  simp

end Dataset.Image

/-! ## Conditions that mirror tests -/

/-- Whether some entity that a relation leads to passes. -/
def Pool.anyRelated (pool : Pool) (name : String) (passes : Handle → Bool) (h : Handle) : Bool :=
  match (pool.entity h).field? name with
  | some (.one related) => related.any passes
  | some (.many related) => related.any passes
  | _ => false

/-- A path that goes on goes on from a related entity. -/
theorem Pool.anyValue_cons_of_ne_nil {pool : Pool} {test : Value → Bool} {name : String}
    {rest : List String} (hrest : rest ≠ []) (h : Handle) :
    pool.anyValue test (name :: rest) h = pool.anyRelated name (pool.anyValue test rest) h := by
  have hempty : rest.isEmpty = false := by simpa using hrest
  rw [anyValue, anyRelated]
  cases (pool.entity h).field? name with
  | none => rfl
  | some field =>
      cases field with
      | value v => simp [hempty]
      | one related => cases related <;> simp [hempty]
      | many related => simp [hempty]

/-- A condition on the rows under a label says of every row what a test says of its entity. -/
def Condition.Mirrors (d : Dataset) (t : EntityType) (label : String) (cond : Condition)
    (passes : Handle → Bool) : Prop :=
  ∀ h ∈ d.members t.name, ∀ env : RowEnv, env.Shows label (d.row h) →
    (cond.truth d.tables env = some true ↔ passes h = true)

namespace Condition

variable {schema : Schema} {d : Dataset} {t u : EntityType} {a : Attribute} {c : Criterion}
  {owner label : String}

theorem mirrors_leaf_terminal (hd : d.Image schema) (ht : schema.Registered t)
    (ha : t.attribute? a.name = some a) {kind : Option ValueKind} (hkind : a.kind = .terminal kind)
    (hc : c.WellPosed) (hcheck : c.checkLast a = .ok ()) :
    (leaf ⟨owner, a.column⟩ c.operator c.operand).Mirrors d t owner
      (d.pool.anyValue (c.operator.test c.operand) [a.name]) := by
  intro h hh env henv
  cases hd.shown t ht h hh a ha with
  | terminal kind' v declared field kindOf number cell =>
      have hx : env.value ⟨owner, a.column⟩ = v := by rw [henv, cell]
      have haccepts := Criterion.accepts_of_checkLast hcheck declared
      rw [truth_leaf _ hc.texts, hx, Pool.anyValue, field]
      · simp
      · intro w hw
        rw [hx]
        exact Value.meets_of_accepts kindOf number (haccepts w hw) (hc.numbers w hw)
  | toOne _ _ declared => rw [hkind] at declared; cases declared
  | toMany _ _ _ declared => rw [hkind] at declared; cases declared

/-- The id of an entity passes a relation's criterion where the column that shows it does. -/
theorem truth_leaf_id {env : RowEnv} {column : Column} {x : Value} (hc : c.WellPosed)
    (hcheck : c.checkLast a = .ok ()) (hrel : a.isTerminal = false)
    (hx : Criterion.isIdLiteral x = true) (hcell : env.value column = x) :
    (leaf column c.operator c.operand).truth d.tables env = some true
      ↔ c.operator.test c.operand x = true := by
  have hids := Criterion.idLiteral_of_checkLast hcheck hrel
  rw [truth_leaf _ hc.texts, hcell]
  intro v hv
  rw [hcell]
  exact Value.meets_of_ids hx (hids v hv)

theorem mirrors_leaf_toOne (hd : d.Image schema) (ht : schema.Registered t)
    (ha : t.attribute? a.name = some a) {target : Option String} (hkind : a.kind = .toOne target)
    (hu : schema.targetOf a = .ok u) (hc : c.WellPosed) (hcheck : c.checkLast a = .ok ()) :
    (leaf ⟨owner, a.column⟩ c.operator c.operand).Mirrors d t owner
      (d.pool.anyValue (c.operator.test c.operand) [a.name]) := by
  intro h hh env henv
  have hrel : a.isTerminal = false := by rw [Attribute.isTerminal, hkind]
  cases hd.shown t ht h hh a ha with
  | terminal _ _ declared => rw [hkind] at declared; cases declared
  | toOne _ related declared field present cell =>
      have hcell : env.value ⟨owner, a.column⟩ = d.idOf related := by rw [henv, cell]
      have hid : Criterion.isIdLiteral (d.idOf related) = true := by
        cases related with
        | none => rfl
        | some r =>
            exact hd.isIdLiteral_idValue (Schema.registered_of_targetOf hu) (present r rfl u hu)
      rw [truth_leaf_id hc hcheck hrel hid hcell, Pool.anyValue, field]
      cases related <;> simp [Dataset.idOf]
  | toMany _ _ _ declared => rw [hkind] at declared; cases declared

/-- The row a to-one column refers to is the row of the related entity. -/
theorem mirrors_tied_toOne (hd : d.Image schema) (ht : schema.Registered t)
    (ha : t.attribute? a.name = some a) {target : Option String} (hkind : a.kind = .toOne target)
    (hu : schema.targetOf a = .ok u) (hne : owner ≠ label) {inner : Condition}
    {passes : Handle → Bool} (hinner : inner.Mirrors d u label passes) :
    (Condition.exists u.table label
        (.and [.columnsEqual ⟨label, u.idColumn⟩ ⟨owner, a.column⟩, inner])).Mirrors d t owner
      (d.pool.anyRelated a.name passes) := by
  intro h hh env henv
  have hur := Schema.registered_of_targetOf hu
  cases hd.shown t ht h hh a ha with
  | terminal _ _ declared => rw [hkind] at declared; cases declared
  | toOne _ related declared field present cell =>
      rw [truth_exists_tied, hd.exists_row hur, Pool.anyRelated, field]
      dsimp only
      -- the row with the id in the column is that of the related entity, and of no other
      have htie : ∀ r ∈ d.members u.name,
          ((RowEnv.value ((label, d.row r) :: env) ⟨label, u.idColumn⟩).agrees
              (RowEnv.value ((label, d.row r) :: env) ⟨owner, a.column⟩) = true
            ↔ related = some r) := by
        intro r hr
        rw [RowEnv.shows_cons_self env label (d.row r), hd.idCell u hur r hr, henv.cons hne, cell]
        cases related with
        | none => simp [Dataset.idOf, Value.agrees]
        | some s =>
            rw [Dataset.idOf, hd.agrees_iff_eq hur hr (present s rfl u hu), Option.some.injEq]
            exact eq_comm
      constructor
      · rintro ⟨r, hr, htied, htrue⟩
        rw [(htie r hr).mp htied]
        exact (hinner r hr _ (RowEnv.shows_cons_self _ _ _)).mp htrue
      · intro hany
        cases related with
        | none => cases hany
        | some r =>
            have hr := present r rfl u hu
            exact ⟨r, hr, (htie r hr).mpr rfl,
              (hinner r hr _ (RowEnv.shows_cons_self _ _ _)).mpr hany⟩
  | toMany _ _ _ declared => rw [hkind] at declared; cases declared

/-- The rows that refer back are those of the related entities. -/
theorem mirrors_tied_toMany (hd : d.Image schema) (ht : schema.Registered t)
    (ha : t.attribute? a.name = some a) {target remote : Option String}
    (hkind : a.kind = .toMany target remote) (hu : schema.targetOf a = .ok u) (hne : owner ≠ label)
    {inner : Condition} {passes : Handle → Bool} (hinner : inner.Mirrors d u label passes) :
    (Condition.exists u.table label
        (.and [.columnsEqual ⟨label, remote.getD a.column⟩ ⟨owner, t.idColumn⟩, inner])).Mirrors d
      t owner (d.pool.anyRelated a.name passes) := by
  intro h hh env henv
  have hur := Schema.registered_of_targetOf hu
  cases hd.shown t ht h hh a ha with
  | terminal _ _ declared => rw [hkind] at declared; cases declared
  | toOne _ _ declared => rw [hkind] at declared; cases declared
  | toMany _ remote' related declared field refer =>
      obtain ⟨rfl, rfl⟩ := AttributeKind.toMany.inj (hkind.symm.trans declared)
      rw [truth_exists_tied, hd.exists_row hur, Pool.anyRelated, field]
      dsimp only
      rw [List.any_eq_true]
      refine exists_congr fun r => ?_
      rw [refer u hu r, RowEnv.shows_cons_self env label (d.row r), henv.cons hne,
        hd.idCell t ht h hh, and_assoc]
      refine and_congr_right fun hr => and_congr_right fun _ => ?_
      exact hinner r hr _ (RowEnv.shows_cons_self _ _ _)

/-- The id column of a related row shows the id of the related entity. -/
theorem mirrors_leaf_id (hd : d.Image schema) (hu : schema.Registered u) (hc : c.WellPosed)
    (hcheck : c.checkLast a = .ok ()) (hrel : a.isTerminal = false) :
    (leaf ⟨label, u.idColumn⟩ c.operator c.operand).Mirrors d u label
      (fun r => c.operator.test c.operand (d.pool.idValue r)) := by
  intro r hr env henv
  refine truth_leaf_id hc hcheck hrel (hd.isIdLiteral_idValue hu hr) ?_
  rw [henv, hd.idCell u hu r hr]

/-- A to-many relation as the last step asks for the ids of the related entities. -/
theorem anyValue_toMany (hd : d.Image schema) (ht : schema.Registered t)
    (ha : t.attribute? a.name = some a) {target remote : Option String}
    (hkind : a.kind = .toMany target remote) (test : Value → Bool) {h : Handle}
    (hh : h ∈ d.members t.name) :
    d.pool.anyValue test [a.name] h
      = d.pool.anyRelated a.name (fun r => test (d.pool.idValue r)) h := by
  cases hd.shown t ht h hh a ha with
  | terminal _ _ declared => rw [hkind] at declared; cases declared
  | toOne _ _ declared => rw [hkind] at declared; cases declared
  | toMany _ _ related _ field => simp [Pool.anyValue, Pool.anyRelated, field]

/-- **The condition of a path mirrors the test at its end.** By induction on the path: every
relation crossed adds one tied sub-select, under a label that no row above it has. -/
theorem ofSteps_mirrors (hs : schema.Closed) (hd : d.Image schema) (hc : c.WellPosed)
    {steps : List Step} (hpath : IsPath schema t steps) (ht : schema.Registered t) {last : Step}
    (hlast : steps.getLast? = some last) (hcheck : c.checkLast last.attr = .ok ()) (used : Nat)
    (hfresh : ∀ n, used < n → owner ≠ subLabel n) :
    ∃ cond used', ofSteps schema c owner used steps = .ok (cond, used') ∧
      cond.Mirrors d t owner
        (d.pool.anyValue (c.operator.test c.operand) (steps.map fun s => s.attr.name)) := by
  have hlabel : owner ≠ subLabel (used + 1) := hfresh _ (Nat.lt_succ_self _)
  induction hpath generalizing owner used with
  | @last t a ha =>
      obtain rfl := Option.some.inj hlast
      rw [ofSteps]
      cases hkind : a.kind with
      | terminal kind =>
          exact ⟨_, _, rfl, mirrors_leaf_terminal hd ht ha hkind hc hcheck⟩
      | toOne target =>
          obtain ⟨u, hu⟩ := hs.target ht ha (by rw [Attribute.isTerminal, hkind])
          exact ⟨_, _, rfl, mirrors_leaf_toOne hd ht ha hkind hu hc hcheck⟩
      | toMany target remote =>
          have hrel : a.isTerminal = false := by rw [Attribute.isTerminal, hkind]
          obtain ⟨u, hu⟩ := hs.target ht ha hrel
          have hur := Schema.registered_of_targetOf hu
          dsimp only
          rw [hu]
          refine ⟨_, _, rfl, ?_⟩
          intro h hh
          rw [List.map_singleton, anyValue_toMany hd ht ha hkind _ hh]
          exact mirrors_tied_toMany hd ht ha hkind hu hlabel
            (mirrors_leaf_id hd hur hc hcheck hrel) h hh
  | @hop t u a rest ha hrel hu hrest ih =>
      have hne := hrest.ne_nil
      have hlast' : rest.getLast? = some last := by
        rw [List.getLast?_cons_of_ne_nil hne] at hlast
        exact hlast
      -- the sub-select is the owner of what comes, and later labels differ from its own
      have hfresh' : ∀ n, used + 1 < n → subLabel (used + 1) ≠ subLabel n := by
        intro n hn heq
        have := subLabel_injective heq
        omega
      obtain ⟨inner, used', hok, hinner⟩ := ih (Schema.registered_of_targetOf hu) hlast' (used + 1)
        hfresh' (hfresh' _ (Nat.lt_succ_self _))
      have hnames : rest.map (fun s => s.attr.name) ≠ [] := by simpa using hne
      have hempty : rest.isEmpty = false := by simpa using hne
      rw [ofSteps]
      cases hkind : a.kind with
      | terminal kind => rw [Attribute.isTerminal, hkind] at hrel; cases hrel
      | toOne target =>
          dsimp only
          rw [hempty, hu]
          dsimp only
          rw [hok]
          refine ⟨_, _, rfl, ?_⟩
          intro h hh
          rw [List.map_cons, Pool.anyValue_cons_of_ne_nil hnames]
          exact mirrors_tied_toOne hd ht ha hkind hu hlabel hinner h hh
      | toMany target remote =>
          dsimp only
          rw [hempty, hu]
          dsimp only
          rw [hok]
          refine ⟨_, _, rfl, ?_⟩
          intro h hh
          rw [List.map_cons, Pool.anyValue_cons_of_ne_nil hnames]
          exact mirrors_tied_toMany hd ht ha hkind hu hlabel hinner h hh

end Condition

/-! ## Whole filters -/

namespace Condition

variable {schema : Schema} {d : Dataset} {root : String} {t : EntityType}

/-- What mirrors one by one mirrors together. -/
theorem forall_mirrors {label : String} {conds : List Condition} {ps : List Predicate}
    (hm : List.Forall₂ (fun cond p => cond.Mirrors d t label (fun h => p.holds d.pool h)) conds ps)
    {h : Handle} (hh : h ∈ d.members t.name) {env : RowEnv} (henv : env.Shows label (d.row h)) :
    ((∀ c ∈ conds, c.truth d.tables env = some true) ↔ (ps.all fun p => p.holds d.pool h) = true) ∧
      ((∃ c ∈ conds, c.truth d.tables env = some true) ↔
        (ps.any fun p => p.holds d.pool h) = true) := by
  induction hm with
  | nil => simp
  | cons hcond _ ih =>
      have hhead := hcond h hh env henv
      constructor
      · rw [List.forall_mem_cons, ih.1, hhead, List.all_cons, Bool.and_eq_true]
      · rw [List.any_cons, Bool.or_eq_true, ← ih.2, ← hhead]
        simp

mutual

/-- **The condition of a filter mirrors the checked filter.** By recursion on the filter. -/
theorem ofFilter_mirrors (hs : schema.Closed) (hd : d.Image schema)
    (hroot : schema.find? root = some t) (used : Nat) :
    ∀ (spec : FilterSpec), spec.WellPosed → ∀ p, spec.compile schema root = .ok p →
      ∃ cond used', ofFilter schema root used spec = .ok (cond, used') ∧
        cond.Mirrors d t rootLabel (fun h => p.holds d.pool h)
  | .criterion c, hw, p, hp => by
      cases FilterSpec.compiled_of_compile hp with
      | criterion hsteps =>
          obtain ⟨hresolve, last, hlast, hcheck⟩ := Criterion.resolve_inv hsteps
          obtain ⟨u, hu, hur, hpath⟩ := IsPath.of_resolve hresolve
          obtain rfl : u = t := Option.some.inj (hu.symm.trans hroot)
          obtain ⟨cond, used', hok, hmirrors⟩ := ofSteps_mirrors hs hd
            (hw c (List.mem_singleton_self c)) hpath hur hlast hcheck used
            fun n _ => (subLabel_ne_rootLabel n).symm
          refine ⟨cond, used', ?_, ?_⟩
          · rw [ofFilter, hsteps]
            exact hok
          · simpa only [Predicate.holds] using hmirrors
  | .conjunction children, hw, p, hp => by
      cases FilterSpec.compiled_of_compile hp with
      | conjunction hps =>
          obtain ⟨conds, used', hok, hmirrors⟩ := ofFilters_mirror hs hd hroot used children hw _ hps
          refine ⟨.and conds, used', by rw [ofFilter, hok], ?_⟩
          intro h hh env henv
          simp only [truth_and, Predicate.holds, Predicate.allHold_eq]
          exact (forall_mirrors hmirrors hh henv).1
  | .disjunction children, hw, p, hp => by
      cases FilterSpec.compiled_of_compile hp with
      | disjunction hps =>
          obtain ⟨conds, used', hok, hmirrors⟩ := ofFilters_mirror hs hd hroot used children hw _ hps
          refine ⟨.or conds, used', by rw [ofFilter, hok], ?_⟩
          intro h hh env henv
          simp only [truth_or, Predicate.holds, Predicate.anyHolds_eq]
          exact (forall_mirrors hmirrors hh henv).2
  | .negation child, hw, p, hp => by
      cases FilterSpec.compiled_of_compile hp with
      | negation hq =>
          obtain ⟨cond, used', hok, hmirrors⟩ := ofFilter_mirrors hs hd hroot used child hw _ hq
          refine ⟨.not cond, used', by rw [ofFilter, hok], ?_⟩
          intro h hh env henv
          rw [truth_not, hmirrors h hh env henv]
          simp [Predicate.holds]

/-- The conditions of a list of filters mirror the checked filters one by one. -/
theorem ofFilters_mirror (hs : schema.Closed) (hd : d.Image schema)
    (hroot : schema.find? root = some t) (used : Nat) :
    ∀ (specs : List FilterSpec), (∀ c ∈ FilterSpec.criteriaOfList specs, c.WellPosed) →
      ∀ ps, List.Forall₂ (fun s p => s.compile schema root = .ok p) specs ps →
      ∃ conds used', ofFilters schema root used specs = .ok (conds, used') ∧
        List.Forall₂ (fun cond p => cond.Mirrors d t rootLabel (fun h => p.holds d.pool h)) conds ps
  | [], _, ps, hps => by
      cases hps
      exact ⟨[], used, rfl, .nil⟩
  | spec :: rest, hw, ps, hps => by
      cases hps with
      | cons hp hqs =>
          obtain ⟨cond, used₁, hok₁, hm₁⟩ := ofFilter_mirrors hs hd hroot used spec
            (fun c hc => hw c (List.mem_append_left _ hc)) _ hp
          obtain ⟨conds, used₂, hok₂, hm₂⟩ := ofFilters_mirror hs hd hroot used₁ rest
            (fun c hc => hw c (List.mem_append_right _ hc)) _ hqs
          refine ⟨cond :: conds, used₂, ?_, .cons hm₁ hm₂⟩
          rw [ofFilters, hok₁]
          dsimp only
          rw [hok₂]

end

end Condition

end EntityStore
