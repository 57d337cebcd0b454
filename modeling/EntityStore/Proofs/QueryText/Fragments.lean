import EntityStore.Proofs.QueryText.Clauses

/-!
# Fragments and what they are read as

The writer makes a fragment of every part of a filter and puts fragments together; what it merges
are clauses. Here its steps are followed on clauses: merging two written clauses writes the joined
clause, and conjunctions and disjunctions of fragments that are read as something are read as the
terms and branches of that. `means` relates a part to what its fragment is read as: it is equality
where a text gives back the very filter, and equality of meaning where that is all one can ask.
-/

namespace EntityStore.QueryText

/-! ## Joining clauses -/

namespace Clause

/-- Two clauses as one: literals of their own on one path and operator, none of them twice. -/
def join? (a b : Clause) : Option Clause :=
  if a.operator.arity ≠ .list ∧ a.path = b.path ∧ a.operator = b.operator ∧
      a.negated = b.negated ∧ ∀ l ∈ b.literals, l.text ∉ a.literals.map Literal.text then
    some { a with literals := a.literals ++ b.literals }
  else none

theorem join?_eq_some {a b m : Clause} (h : a.join? b = some m) :
    (a.operator.arity ≠ .list ∧ a.path = b.path ∧ a.operator = b.operator ∧
      a.negated = b.negated ∧ ∀ l ∈ b.literals, l.text ∉ a.literals.map Literal.text) ∧
    m = { a with literals := a.literals ++ b.literals } := by
  rw [join?] at h
  split at h
  case isTrue hcond => exact ⟨hcond, (Option.some.inj h).symm⟩
  case isFalse => cases h

theorem Readable.join {a b m : Clause} (ha : a.Readable) (hb : b.Readable)
    (h : a.join? b = some m) : m.Readable := by
  obtain ⟨⟨-, hpath, hop, hneg, -⟩, rfl⟩ := join?_eq_some h
  have hmem : ∀ l, l ∈ a.literals ++ b.literals → l ∈ a.literals ∨ l ∈ b.literals :=
    fun l hl => List.mem_append.mp hl
  exact
    { path := ha.path
      literals := fun l hl => (hmem l hl).elim (ha.literals l) (hb.literals l)
      nonempty := fun l hl => (hmem l hl).elim (ha.nonempty l) (hb.nonempty l)
      fits := fun l hl => (hmem l hl).elim (ha.fits l) fun h => hop ▸ hb.fits l h
      some_literal := fun hor hnil => ha.some_literal hor (List.append_eq_nil_iff.mp hnil).1
      negation := ha.negation }

/-- Joining keeps the criteria of both. -/
theorem leaves_join {a b m : Clause} (h : a.join? b = some m) :
    m.leaves m.literals = a.leaves a.literals ++ b.leaves b.literals := by
  obtain ⟨⟨harity, hpath, hop, hneg, -⟩, rfl⟩ := join?_eq_some h
  have harity' : b.operator.arity ≠ .list := hop ▸ harity
  have hleaf : ∀ operand, b.leaf operand = a.leaf operand := by
    intro operand
    rw [leaf, leaf, hpath, hop, hneg]
  simp only [leaves, if_neg harity, if_neg harity', List.map_append, hleaf]
  rfl

theorem operatorText_inj {a b : Clause} (ha : a.Readable) (hb : b.Readable)
    (h : a.operatorText = b.operatorText) : a.operator = b.operator ∧ a.negated = b.negated := by
  have hop := operatorOf?_operatorText ha
  rw [h, operatorOf?_operatorText hb] at hop
  obtain ⟨hop, hneg⟩ := Prod.mk.inj (Option.some.inj hop)
  exact ⟨hop.symm, hneg.symm⟩

/-- **Merging two written clauses writes the joined clause.** -/
theorem merge?_written {a b : Clause} (ha : a.Readable) (hb : b.Readable) :
    merge? (.criterion a.written) (.criterion b.written)
      = (a.join? b).map fun c => .criterion c.written := by
  have hcond : (a.written.mergeable && b.written.mergeable && a.written.path == b.written.path &&
        a.written.operator == b.written.operator &&
        b.written.values.all fun v => !a.written.values.contains v) = true
      ↔ a.operator.arity ≠ .list ∧ a.path = b.path ∧ a.operator = b.operator ∧
        a.negated = b.negated ∧ ∀ l ∈ b.literals, l.text ∉ a.literals.map Literal.text := by
    simp only [written, Bool.and_eq_true, bne_iff_ne, beq_iff_eq, List.all_map, List.all_eq_true,
      Function.comp_apply, Bool.not_eq_true', List.contains_eq_mem, decide_eq_false_iff_not]
    constructor
    · rintro ⟨⟨⟨⟨harity, -⟩, hpath⟩, htext⟩, hvalues⟩
      obtain ⟨hop, hneg⟩ := operatorText_inj ha hb htext
      exact ⟨harity, ha.path.isAttributePath.writtenPath_inj hb.path.isAttributePath hpath, hop, hneg, hvalues⟩
    · rintro ⟨harity, hpath, hop, hneg, hvalues⟩
      refine ⟨⟨⟨⟨harity, hop ▸ harity⟩, by rw [hpath]⟩, ?_⟩, hvalues⟩
      rw [operatorText, operatorText, hop, hneg]
  rw [merge?, join?]
  by_cases hjoin : a.operator.arity ≠ .list ∧ a.path = b.path ∧ a.operator = b.operator ∧
      a.negated = b.negated ∧ ∀ l ∈ b.literals, l.text ∉ a.literals.map Literal.text
  · rw [if_pos hjoin, if_pos (hcond.mpr hjoin), Option.map_some]
    simp [written, operatorText]
  · rw [if_neg hjoin, if_neg (hjoin ∘ hcond.mp), Option.map_none]

end Clause

/-! ## Parts of a disjunction -/

/-- A part of a disjunction, as the writer sees it: a clause, or something it does not look into. -/
inductive Part
  | clause (c : Clause)
  | spec (s : FilterSpec)

namespace Part

/-- What the part contributes to the disjunction. -/
def disjuncts : Part → List FilterSpec
  | .clause c => c.leaves c.literals
  | .spec s => [s]

def join? : Part → Part → Option Part
  | .clause a, .clause b => (a.join? b).map .clause
  | _, _ => none

/-- Join neighbours from left to right, as the writer merges them. -/
def joinAll (last : Part) : List Part → List Part
  | [] => [last]
  | next :: rest =>
    match last.join? next with
    | some both => joinAll both rest
    | none => last :: joinAll next rest

theorem joinAll_ne_nil (last : Part) (rest : List Part) : joinAll last rest ≠ [] := by
  induction rest generalizing last with
  | nil => simp [joinAll]
  | cons next rest ih =>
      rw [joinAll]
      split
      · exact ih _
      · simp

/-- What a joined clause has from both clauses, joining neighbours keeps. -/
theorem flatMap_joinAll {α : Type} {g : Part → List α}
    (hjoin : ∀ a b m, Clause.join? a b = some m → g (.clause m) = g (.clause a) ++ g (.clause b))
    (last : Part) (rest : List Part) : (joinAll last rest).flatMap g = (last :: rest).flatMap g := by
  induction rest generalizing last with
  | nil => rfl
  | cons next rest ih =>
      rw [joinAll]
      split
      case h_1 both hboth =>
        rw [ih both, List.flatMap_cons, List.flatMap_cons, List.flatMap_cons, ← List.append_assoc]
        congr 1
        cases last with
        | spec s => cases hboth
        | clause a =>
            cases next with
            | spec s => cases hboth
            | clause b =>
                obtain ⟨m, hm, rfl⟩ := Option.map_eq_some_iff.mp hboth
                exact hjoin a b m hm
      case h_2 => rw [List.flatMap_cons, ih next, ← List.flatMap_cons]

/-- Joining neighbours keeps what the parts contribute. -/
theorem flatMap_disjuncts_joinAll (last : Part) (rest : List Part) :
    (joinAll last rest).flatMap disjuncts = (last :: rest).flatMap disjuncts :=
  flatMap_joinAll (fun _ _ _ => Clause.leaves_join) last rest

/-- What joining keeps is true of all joined parts, if it is true of all parts. -/
theorem forall_joinAll {P : Part → Prop} (hjoin : ∀ a b m, Clause.join? a b = some m →
      P (.clause a) → P (.clause b) → P (.clause m))
    {p : Part} {ps : List Part} (hp : P p) (hps : ∀ r ∈ ps, P r) : ∀ r ∈ p.joinAll ps, P r := by
  induction ps generalizing p with
  | nil =>
      intro r hr
      rw [List.mem_singleton.mp hr]
      exact hp
  | cons next ps ih =>
      have hnext := hps next List.mem_cons_self
      have hps' := fun r hr => hps r (List.mem_cons_of_mem _ hr)
      rw [joinAll]
      split
      case h_1 both hboth =>
        refine ih ?_ hps'
        cases p with
        | spec s => cases hboth
        | clause a =>
            cases next with
            | spec s => cases hboth
            | clause b =>
                obtain ⟨m, hm, rfl⟩ := Option.map_eq_some_iff.mp hboth
                exact hjoin a b m hm hp hnext
      case h_2 =>
        intro r hr
        rcases List.mem_cons.mp hr with rfl | hr
        · exact hp
        · exact ih hnext hps' r hr

/-- All literals of the part are of the given sort. -/
def AllLiterals (q : Literal → Prop) : Part → Prop
  | .clause c => ∀ l ∈ c.literals, q l
  | .spec _ => True

theorem allLiterals_join {q : Literal → Prop} {a b m : Clause} (h : a.join? b = some m)
    (ha : (Part.clause a).AllLiterals q) (hb : (Part.clause b).AllLiterals q) :
    (Part.clause m).AllLiterals q := by
  obtain ⟨-, rfl⟩ := Clause.join?_eq_some h
  exact fun l hl => (List.mem_append.mp hl).elim (ha l) (hb l)

/-- The literals of the part are different values. -/
def Distinct : Part → Prop
  | .clause c => c.literals.Pairwise fun k l => k.same l = false
  | .spec _ => True

end Part

/-- A fragment that is no criterion, and the branches it is read as. -/
inductive Composite : Fragment → List (List FilterSpec) → Prop
  | and {text : String} {specs : List FilterSpec} (h : Reads text.toList [specs]) :
      Composite (.and text) [specs]
  | or {text : String} {bs : List (List FilterSpec)} (h : Reads text.toList bs) :
      Composite (.or text) bs

/-- The fragment of a part. What `means` relates is the part and what the fragment is read as. -/
inductive Part.Written (means : FilterSpec → FilterSpec → Prop) : Part → Fragment → Prop
  | clause {c : Clause} (h : c.Readable) : Written means (.clause c) (.criterion c.written)
  | spec {s : FilterSpec} {f : Fragment} {bs : List (List FilterSpec)} (h : Composite f bs)
      (hmeans : means s (groupSpec bs)) : Written means (.spec s) f

variable {means : FilterSpec → FilterSpec → Prop}

theorem merge?_of_written {p q : Part} {f g : Fragment} (hp : p.Written means f)
    (hq : q.Written means g) :
    (∀ both, p.join? q = some both → ∃ m, merge? f g = some m ∧ both.Written means m) ∧
      (p.join? q = none → merge? f g = none) := by
  cases hp with
  | @spec s f bs h hmeans =>
      refine ⟨fun both hboth => (by cases hboth), fun _ => ?_⟩
      cases h <;> rfl
  | @clause a ha =>
      cases hq with
      | @spec s g bs h hmeans =>
          refine ⟨fun both hboth => (by cases hboth), fun _ => ?_⟩
          cases h <;> rfl
      | @clause b hb =>
          rw [Part.join?, Clause.merge?_written ha hb]
          constructor
          · intro both hboth
            obtain ⟨m, hm, rfl⟩ := Option.map_eq_some_iff.mp hboth
            exact ⟨_, by rw [hm]; rfl, .clause (ha.join hb hm)⟩
          · intro hnone
            rw [Option.map_eq_none_iff] at hnone ⊢
            exact hnone

/-- **Merging fragments writes the joined parts.** By induction on the fragments to come. -/
theorem mergeAll_written {p : Part} {f : Fragment} {ps : List Part} {fs : List Fragment}
    (hp : p.Written means f) (hps : List.Forall₂ (Part.Written means) ps fs) :
    List.Forall₂ (Part.Written means) (p.joinAll ps) (mergeAll f fs) := by
  induction hps generalizing p f with
  | nil => exact .cons hp .nil
  | @cons q g ps fs hq hps ih =>
      obtain ⟨hsome, hnone⟩ := merge?_of_written hp hq
      rw [Part.joinAll, mergeAll]
      cases hjoin : p.join? q with
      | none =>
          rw [hnone hjoin]
          exact .cons hp (ih hq)
      | some both =>
          obtain ⟨m, hm, hwritten⟩ := hsome both hjoin
          rw [hm]
          -- the last part is the joined one now, and is written as the merged fragment
          exact ih hwritten

/-! ## What parts are read as -/

/-- The branches a part is read as: a clause as its criteria on the literals that are kept. -/
inductive Part.ReadAs (means : FilterSpec → FilterSpec → Prop) : Part → List (List FilterSpec) → Prop
  | clause (c : Clause) : ReadAs means (.clause c) [[.any (c.leaves c.kept)]]
  | spec {s : FilterSpec} {bs : List (List FilterSpec)} (h : means s (groupSpec bs)) :
      ReadAs means (.spec s) bs

/-- The fragment of a part reads as branches. -/
theorem Part.Written.text {p : Part} {f : Fragment} (h : p.Written means f) :
    ∃ bs, Reads f.text.toList bs ∧ p.ReadAs means bs := by
  cases h with
  | @clause c hc => exact ⟨_, Clause.reads hc, .clause c⟩
  | @spec s f bs hf hmeans =>
      cases hf with
      | and h => exact ⟨_, h, .spec hmeans⟩
      | or h => exact ⟨_, h, .spec hmeans⟩

theorem toList_parens (s : String) : ("(" ++ s ++ ")").toList = '(' :: (s.toList ++ [')']) := by
  simp

/-- Inside a conjunction the fragment of a part reads as terms. -/
theorem Part.Written.conjunct {p : Part} {f : Fragment} (h : p.Written means f) :
    ∃ terms, Reads f.conjunctText.toList [terms] ∧ p.ReadAs means [terms] := by
  cases h with
  | @clause c hc => exact ⟨_, Clause.reads hc, .clause c⟩
  | @spec s f bs hf hmeans =>
      cases hf with
      | and h => exact ⟨_, h, .spec hmeans⟩
      | or h =>
          refine ⟨[groupSpec bs], ?_, .spec hmeans⟩
          rw [Fragment.conjunctText, toList_parens]
          exact h.parens

/-- Terms with `~` between them are read in a row. -/
theorem reads_tildes {css : List (List Char)} {ts : List (List FilterSpec)} (hne : css ≠ [])
    (h : List.Forall₂ (fun cs terms => Reads cs [terms]) css ts) :
    Reads (['~'].intercalate css) [ts.flatten] := by
  induction h with
  | nil => exact absurd rfl hne
  | @cons cs terms css ts hhead htail ih =>
      cases htail with
      | nil => simpa using hhead
      | cons _ _ =>
          have := hhead.tilde (ih (by simp))
          rw [List.intercalate_cons_cons, List.append_assoc]
          simpa using this

/-- Branches with ` or ` between them are read side by side. -/
theorem reads_ors {css : List (List Char)} {bss : List (List (List FilterSpec))} (hne : css ≠ [])
    (h : List.Forall₂ Reads css bss) : Reads ([' ', 'o', 'r', ' '].intercalate css) bss.flatten := by
  induction h with
  | nil => exact absurd rfl hne
  | @cons cs bs css bss hhead htail ih =>
      cases htail with
      | nil => simpa using hhead
      | cons _ _ =>
          have := hhead.or (ih (by simp))
          rw [List.intercalate_cons_cons, List.append_assoc]
          simpa using this

/-- What each of a list of parts is read as. -/
theorem exists_forall₂ {α β γ : Type} {r : α → β → Prop} {q : β → γ → Prop} {t : α → γ → Prop}
    {as : List α} {bs : List β} (h : List.Forall₂ r as bs)
    (hr : ∀ a b, r a b → ∃ c, q b c ∧ t a c) :
    ∃ cs, List.Forall₂ q bs cs ∧ List.Forall₂ t as cs := by
  induction h with
  | nil => exact ⟨[], .nil, .nil⟩
  | cons hab _ ih =>
      obtain ⟨cs, hq, ht⟩ := ih
      obtain ⟨c, hqc, htc⟩ := hr _ _ hab
      exact ⟨c :: cs, .cons hqc hq, .cons htc ht⟩

theorem exists_of_mem_forall₂ {α β : Type} {r : α → β → Prop} {xs : List α} {ys : List β}
    (h : List.Forall₂ r xs ys) : ∀ y ∈ ys, ∃ x ∈ xs, r x y := by
  induction h with
  | nil => exact fun y hy => (by cases hy)
  | @cons x y xs ys hxy _ ih =>
      intro z hz
      rcases List.mem_cons.mp hz with rfl | hz
      · exact ⟨x, List.mem_cons_self, hxy⟩
      · obtain ⟨w, hw, hwz⟩ := ih z hz
        exact ⟨w, List.mem_cons_of_mem _ hw, hwz⟩

/-- **A conjunction is written, and read as the terms of its parts in a row.** -/
theorem writeConjunction_written {ps : List Part} {fs : List Fragment} (hne : ps ≠ [])
    (h : List.Forall₂ (Part.Written means) ps fs) :
    ∃ f ts, writeConjunction fs = .ok f ∧ Composite f [ts.flatten] ∧
      List.Forall₂ (fun p terms => p.ReadAs means [terms]) ps ts := by
  have hfs : fs ≠ [] := by
    rintro rfl
    cases h
    exact hne rfl
  obtain ⟨ts, hreads, hparts⟩ := exists_forall₂
    (q := fun f terms => Reads (Fragment.conjunctText f).toList [terms]) h
    fun p f hpf => hpf.conjunct
  refine ⟨_, ts, by rw [writeConjunction, if_neg (by simpa using hfs)], .and ?_, hparts⟩
  rw [String.toList_intercalate, List.map_map]
  refine reads_tildes (by simpa using hfs) ?_
  rw [List.forall₂_map_left_iff]
  exact hreads

/-- **A disjunction is written, and read as the branches of its joined parts.** When only one part
is left, it is that part. -/
theorem writeDisjunction_written {p : Part} {f : Fragment} {ps : List Part} {fs : List Fragment}
    (hp : p.Written means f) (hps : List.Forall₂ (Part.Written means) ps fs) :
    ∃ g, writeDisjunction (f :: fs) = .ok g ∧
      ((∃ q, p.joinAll ps = [q] ∧ q.Written means g) ∨
        ∃ bss, Composite g bss.flatten ∧
          List.Forall₂ (Part.ReadAs means) (p.joinAll ps) bss) := by
  have hmerged := mergeAll_written hp hps
  have hne := Part.joinAll_ne_nil p ps
  rw [writeDisjunction]
  generalize p.joinAll ps = qs at hmerged hne ⊢
  generalize mergeAll f fs = gs at hmerged ⊢
  cases hmerged with
  | nil => exact absurd rfl hne
  | @cons q g qs gs hq hqs =>
      cases hqs with
      | nil => exact ⟨g, rfl, .inl ⟨q, rfl, hq⟩⟩
      | @cons q' g' qs gs hq' hqs =>
          obtain ⟨bss, hreads, hparts⟩ := exists_forall₂ (q := fun f bs => Reads (Fragment.text f).toList bs)
            (List.Forall₂.cons hq (.cons hq' hqs)) fun p f hpf => hpf.text
          refine ⟨_, rfl, .inr ⟨bss, .or ?_, hparts⟩⟩
          rw [String.toList_intercalate]
          refine reads_ors (by simp) ?_
          rw [List.forall₂_map_left_iff, List.forall₂_map_left_iff]
          exact hreads

/-! ## Collapsing -/

/-- What is joined into a conjunction of at least two is that conjunction. -/
theorem joinSpecs_all_eq {specs children : List FilterSpec}
    (h : specs.flatMap FilterSpec.conjuncts = children) (htwo : 2 ≤ children.length) :
    joinSpecs .all specs = .conjunction children := by
  have hall : FilterSpec.all specs = .conjunction children := by
    rw [FilterSpec.all, h]
    match children, htwo with
    | _ :: _ :: _, _ => rfl
  match specs with
  | [] => exact hall
  | _ :: _ :: _ => exact hall
  | [only] =>
      rw [List.flatMap_singleton] at h
      rw [joinSpecs]
      cases only with
      | conjunction cs => rw [← h]; rfl
      | criterion c => rw [← h] at htwo; exact absurd htwo (by simp [FilterSpec.conjuncts])
      | disjunction cs => rw [← h] at htwo; exact absurd htwo (by simp [FilterSpec.conjuncts])
      | negation c => rw [← h] at htwo; exact absurd htwo (by simp [FilterSpec.conjuncts])

/-- What is joined into a disjunction of at least two is that disjunction. -/
theorem joinSpecs_any_eq {specs children : List FilterSpec}
    (h : specs.flatMap FilterSpec.disjuncts = children) (htwo : 2 ≤ children.length) :
    joinSpecs .any specs = .disjunction children := by
  have hany : FilterSpec.any specs = .disjunction children := by
    rw [FilterSpec.any, h]
    rcases children with _ | ⟨_, _ | _⟩
    · exact absurd htwo (by simp)
    · exact absurd htwo (by simp)
    · rfl
  rcases specs with _ | ⟨only, _ | _⟩
  · exact hany
  · rw [List.flatMap_singleton] at h
    rw [joinSpecs]
    cases only with
    | disjunction cs => rw [← h]; rfl
    | criterion c => rw [← h] at htwo; exact absurd htwo (by simp [FilterSpec.disjuncts])
    | conjunction cs => rw [← h] at htwo; exact absurd htwo (by simp [FilterSpec.disjuncts])
    | negation c => rw [← h] at htwo; exact absurd htwo (by simp [FilterSpec.disjuncts])
  · exact hany

end EntityStore.QueryText
