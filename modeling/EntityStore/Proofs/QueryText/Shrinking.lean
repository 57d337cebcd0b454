import EntityStore.Proofs.Filter.Criteria
import EntityStore.Proofs.QueryText.Regular

/-!
# Literals that are lost

The reader drops a literal of a value that it has seen, and adds none. **The text of a filter of
writable leaves reads back as a filter with some of its literals, in their order, and with all of
them only if nothing that the writer joins is repeated.** The number of literals is what carries
the argument: a whole has as many as its parts, so a literal that one part loses is missed at the
end.
-/

namespace EntityStore

/-! ## Literals of filters -/

namespace FilterSpec

open QueryText

/-- The literals of the leaves, from left to right. -/
def literals (s : FilterSpec) : List Literal := s.criteria.flatMap fun c => operandLiterals c.operand

theorem literals_criterion (c : Criterion) : literals (.criterion c) = operandLiterals c.operand := by
  rw [literals, criteria, List.flatMap_singleton]

theorem literals_negation (s : FilterSpec) : literals (.negation s) = s.literals := by
  rw [literals, criteria, literals]

theorem literals_conjunction (ss : List FilterSpec) : literals (.conjunction ss) = ss.flatMap literals := by
  rw [literals, criteria, criteriaOfList_eq, List.flatMap_assoc]
  rfl

theorem literals_disjunction (ss : List FilterSpec) : literals (.disjunction ss) = ss.flatMap literals := by
  rw [literals, criteria, criteriaOfList_eq, List.flatMap_assoc]
  rfl

/-- Wrapping filters keeps their literals. -/
theorem literals_collapse {wrap : List FilterSpec → FilterSpec}
    (hwrap : ∀ ss, (wrap ss).literals = ss.flatMap literals) (ss : List FilterSpec) :
    (collapse wrap ss).literals = ss.flatMap literals := by
  rw [collapse.eq_def]
  split
  case h_1 only => rw [List.flatMap_singleton]
  case h_2 => exact hwrap _

theorem literals_all (ss : List FilterSpec) : (all ss).literals = ss.flatMap literals := by
  rw [all, literals_collapse literals_conjunction, List.flatMap_assoc]
  congr 1
  funext s
  cases s with
  | conjunction children => exact (literals_conjunction children).symm
  | _ => exact List.flatMap_singleton ..

theorem literals_any (ss : List FilterSpec) : (any ss).literals = ss.flatMap literals := by
  rw [any, literals_collapse literals_disjunction, List.flatMap_assoc]
  congr 1
  funext s
  cases s with
  | disjunction children => exact (literals_disjunction children).symm
  | _ => exact List.flatMap_singleton ..

end FilterSpec

namespace QueryText

theorem literals_joinSpecs {wrap : List FilterSpec → FilterSpec}
    (hwrap : ∀ ss, (wrap ss).literals = ss.flatMap FilterSpec.literals) (ss : List FilterSpec) :
    (joinSpecs wrap ss).literals = ss.flatMap FilterSpec.literals :=
  FilterSpec.literals_collapse hwrap ss

/-- A group has the literals of its terms. -/
theorem literals_groupSpec (bs : List (List FilterSpec)) :
    (groupSpec bs).literals = bs.flatMap fun b => b.flatMap FilterSpec.literals := by
  rw [groupSpec, literals_joinSpecs FilterSpec.literals_any, List.flatMap_map]
  congr 1
  funext b
  exact literals_joinSpecs FilterSpec.literals_all b

/-- The criteria of a clause have the literals they are made of. -/
theorem Clause.flatMap_literals_leaves (c : Clause) {ls : List Literal}
    (h : ∀ l ∈ ls, l.fits c.operator.arity = true) :
    (c.leaves ls).flatMap FilterSpec.literals = ls := by
  have hleaf : ∀ operand, (c.leaf operand).literals = operandLiterals operand := by
    intro operand
    rw [leaf]
    split
    · rw [FilterSpec.literals_negation, FilterSpec.literals_criterion]
    · rw [FilterSpec.literals_criterion]
  rw [leaves]
  by_cases harity : c.operator.arity = .list
  · rw [if_pos harity, List.flatMap_singleton, hleaf, operandLiterals]
    rw [harity] at h
    induction ls with
    | nil => rfl
    | cons l ls ih =>
        have hl := h l List.mem_cons_self
        cases l with
        | range low high => cases hl
        | value v =>
            rw [List.filterMap_cons, Literal.value?]
            dsimp only
            rw [List.map_cons, ih fun l hl => h l (List.mem_cons_of_mem _ hl)]
  · have hone : ∀ l : Literal, operandLiterals l.operand = [l] := by
      intro l
      cases l <;> rfl
    rw [if_neg harity, List.flatMap_map]
    simp only [hleaf, hone]
    exact List.flatMap_singleton' ls

/-! ## What is not repeated -/

/-- The parts of a disjunction, as the writer joins them. -/
def joinedParts : List FilterSpec → List Part
  | [] => []
  | first :: rest => (partOf first).joinAll (rest.map partOf)

/-- Nothing that the writer joins is repeated in the filter: no joined clause has two literals of
one value. -/
inductive Unrepeated : FilterSpec → Prop
  | criterion (c : Criterion) : Unrepeated (.criterion c)
  | negation {s : FilterSpec} (h : Unrepeated s) : Unrepeated (.negation s)
  | conjunction {children : List FilterSpec} (h : ∀ s ∈ children, Unrepeated s) :
      Unrepeated (.conjunction children)
  | disjunction {children : List FilterSpec} (h : ∀ s ∈ children, Unrepeated s)
      (distinct : ∀ p ∈ joinedParts children, p.Distinct) : Unrepeated (.disjunction children)

namespace Part

/-- The literals of a part. -/
def literals : Part → List Literal
  | .clause c => c.literals
  | .spec s => s.literals

/-- Nothing in the part is repeated. -/
def Intact : Part → Prop
  | .clause c => (Part.clause c).Distinct
  | .spec s => Unrepeated s

theorem Intact.distinct {p : Part} (h : p.Intact) : p.Distinct := by
  cases p with
  | clause c => exact h
  | spec s => trivial

theorem flatMap_literals_joinAll (p : Part) (ps : List Part) :
    (p.joinAll ps).flatMap literals = (p :: ps).flatMap literals := by
  refine flatMap_joinAll (fun a b m hm => ?_) p ps
  obtain ⟨-, rfl⟩ := Clause.join?_eq_some hm
  rfl

/-- Where the joined parts are intact, the parts are. -/
theorem intact_of_joinAll {p : Part} {ps : List Part} (h : ∀ r ∈ p.joinAll ps, r.Intact) :
    ∀ r ∈ p :: ps, r.Intact := by
  induction ps generalizing p with
  | nil => exact h
  | cons next ps ih =>
      rw [joinAll] at h
      split at h
      case h_1 both hboth =>
        have hall := ih h
        intro r hr
        cases p with
        | spec s => cases hboth
        | clause a =>
            cases next with
            | spec s => cases hboth
            | clause b =>
                obtain ⟨m, hm, rfl⟩ := Option.map_eq_some_iff.mp hboth
                obtain ⟨-, rfl⟩ := Clause.join?_eq_some hm
                -- the literals of the joined clause are those of both, so both are intact
                obtain ⟨ha, hb, -⟩ := List.pairwise_append.mp (hall _ List.mem_cons_self)
                rcases List.mem_cons.mp hr with rfl | hr
                · exact ha
                · rcases List.mem_cons.mp hr with rfl | hr
                  · exact hb
                  · exact hall r (List.mem_cons_of_mem _ hr)
      case h_2 =>
        have hall := ih fun r hr => h r (List.mem_cons_of_mem _ hr)
        intro r hr
        rcases List.mem_cons.mp hr with rfl | hr
        · exact h r List.mem_cons_self
        · exact hall r hr

end Part

/-! ## What is lost -/

/-- What is read for the filter has some of its literals, in their order, and all of them only if
nothing is repeated. -/
structure Shrinks (s s' : FilterSpec) : Prop where
  sublist : List.Sublist s'.literals s.literals
  unrepeated : s.literals.length ≤ s'.literals.length → Unrepeated s

/-- A part is read with some of its literals, and with all of them only if it is intact. -/
theorem Part.Written.shrinks {p : Part} {f : Fragment} (h : p.Written Shrinks f)
    {bs : List (List FilterSpec)} (hread : p.ReadAs Shrinks bs) :
    List.Sublist (bs.flatMap fun b => b.flatMap FilterSpec.literals) p.literals ∧
      (p.literals.length ≤ (bs.flatMap fun b => b.flatMap FilterSpec.literals).length → p.Intact) := by
  cases hread with
  | clause c =>
      cases h with
      | clause hc =>
      have hkept : List.Sublist c.kept c.literals := sublist_distinctLiterals [] c.literals
      have hliterals : ([[.any (c.leaves c.kept)]].flatMap fun b => b.flatMap FilterSpec.literals)
          = c.kept := by
        rw [List.flatMap_singleton, List.flatMap_singleton, FilterSpec.literals_any]
        exact c.flatMap_literals_leaves fun l hl => hc.fits l (hkept.subset hl)
      -- as many literals as before: none was dropped, and those that are kept are different
      rw [hliterals]
      refine ⟨hkept, fun hlength => ?_⟩
      show c.literals.Pairwise fun k l => k.same l = false
      rw [← hkept.eq_of_length_le hlength]
      exact pairwise_distinctLiterals .nil
  | spec hmeans =>
      rw [← literals_groupSpec]
      exact ⟨hmeans.sublist, hmeans.unrepeated⟩

/-- **Parts in a row are read with some of their literals, and with all of them only if all parts
are intact.** -/
theorem shrinks_of_forall₂ {ps : List Part} {fs : List Fragment} {bss : List (List (List FilterSpec))}
    (hwritten : List.Forall₂ (Part.Written Shrinks) ps fs)
    (hread : List.Forall₂ (Part.ReadAs Shrinks) ps bss) :
    List.Sublist (bss.flatten.flatMap fun b => b.flatMap FilterSpec.literals) (ps.flatMap Part.literals) ∧
      ((ps.flatMap Part.literals).length
          ≤ (bss.flatten.flatMap fun b => b.flatMap FilterSpec.literals).length →
        ∀ p ∈ ps, p.Intact) := by
  induction hread generalizing fs with
  | nil => exact ⟨.slnil, fun _ p hp => (by cases hp)⟩
  | @cons p bs ps bss hp _ ih =>
      cases hwritten with
      | @cons _ f _ fs hf hfs =>
      obtain ⟨hhead, hintact⟩ := hf.shrinks hp
      obtain ⟨htail, hrest⟩ := ih hfs
      rw [List.flatten_cons, List.flatMap_append, List.flatMap_cons]
      refine ⟨hhead.append htail, fun hlength => ?_⟩
      rw [List.length_append, List.length_append] at hlength
      -- neither side can make up for a literal that the other loses
      have hlengthHead := hhead.length_le
      have hlengthTail := htail.length_le
      intro r hr
      rcases List.mem_cons.mp hr with rfl | hr
      · exact hintact (by omega)
      · exact hrest (by omega) r hr

/-- The part has the literals of the filter, and tells whether anything in it is repeated. -/
def Part.Covers (s : FilterSpec) (p : Part) : Prop :=
  p.literals = s.literals ∧ (p.Intact → Unrepeated s)

theorem flatMap_literals_of_covers {ss : List FilterSpec} {ps : List Part}
    (h : List.Forall₂ Part.Covers ss ps) :
    ps.flatMap Part.literals = ss.flatMap FilterSpec.literals := by
  induction h with
  | nil => rfl
  | cons hp _ ih => rw [List.flatMap_cons, List.flatMap_cons, hp.1, ih]

theorem unrepeated_of_covers {ss : List FilterSpec} {ps : List Part}
    (h : List.Forall₂ Part.Covers ss ps) (hps : ∀ p ∈ ps, p.Intact) : ∀ s ∈ ss, Unrepeated s := by
  intro s hs
  obtain ⟨p, hp, hcovers⟩ := exists_of_mem_forall₂ h.flip s hs
  exact hcovers.2 (hps p hp)

theorem exists_covers_conjunction {children : List FilterSpec} (two : 2 ≤ children.length)
    (hs : ∀ s ∈ children, ∃ f p, WrittenAs Shrinks Part.Covers s f p) :
    ∃ f p, WrittenAs Shrinks Part.Covers (.conjunction children) f p := by
  obtain ⟨fs, ps, hwrite, hwritten, hcovers, -⟩ := exists_writeSpecs hs
  have hne : ps ≠ [] := by
    rintro rfl
    cases hcovers
    exact absurd two (by simp)
  obtain ⟨f, ts, hf, hcomposite, hread⟩ := writeConjunction_written hne hwritten
  -- each part of a conjunction is one branch
  have hread' : List.Forall₂ (Part.ReadAs Shrinks) ps (ts.map fun terms => [terms]) := by
    rw [List.forall₂_map_right_iff]
    exact hread
  obtain ⟨hsublist, hintact⟩ := shrinks_of_forall₂ hwritten hread'
  have hterms : ((ts.map fun terms => [terms]).flatten.flatMap fun b => b.flatMap FilterSpec.literals)
      = (groupSpec [ts.flatten]).literals := by
    rw [literals_groupSpec, List.flatMap_singleton, ← List.flatMap_def, List.flatMap_singleton',
      ← List.flatMap_id, List.flatMap_assoc]
    rfl
  rw [hterms, flatMap_literals_of_covers hcovers, ← FilterSpec.literals_conjunction]
    at hsublist hintact
  refine ⟨f, .spec (.conjunction children), ?_,
    .spec hcomposite ⟨hsublist, fun hlength => .conjunction ?_⟩, ⟨rfl, fun h => h⟩, fun _ => rfl⟩
  · rw [writeSpec, hwrite]
    exact hf
  · exact unrepeated_of_covers hcovers (hintact hlength)

theorem exists_covers_disjunction {first : FilterSpec} {rest : List FilterSpec}
    (flat : ∀ s ∈ first :: rest, ∀ nested, s ≠ .disjunction nested)
    (hs : ∀ s ∈ first :: rest, ∃ f p, WrittenAs Shrinks Part.Covers s f p) :
    ∃ f p, WrittenAs Shrinks Part.Covers (.disjunction (first :: rest)) f p := by
  obtain ⟨fs, ps, hwrite, hwritten, hcovers, hpartOf⟩ := exists_writeSpecs hs
  obtain rfl := hpartOf flat
  cases hwritten with
  | @cons _ f _ fs hf hfs =>
  have hmerged := mergeAll_written hf hfs
  have hliterals : ((partOf first).joinAll (rest.map partOf)).flatMap Part.literals
      = (FilterSpec.disjunction (first :: rest)).literals := by
    rw [Part.flatMap_literals_joinAll, FilterSpec.literals_disjunction]
    exact flatMap_literals_of_covers hcovers
  have hunrepeated : (∀ p ∈ (partOf first).joinAll (rest.map partOf), p.Intact) →
      Unrepeated (.disjunction (first :: rest)) := fun hintact =>
    .disjunction (unrepeated_of_covers hcovers (Part.intact_of_joinAll hintact))
      fun p hp => (hintact p hp).distinct
  obtain ⟨g, hg, hcases⟩ := writeDisjunction_written hf hfs
  have hwriteSpec : writeSpec (.disjunction (first :: rest)) = .ok g := by
    rw [writeSpec, hwrite]
    exact hg
  rcases hcases with ⟨r, hr, hrg⟩ | ⟨bss, hcomposite, hread⟩
  · -- everything is one clause
    rw [hr] at hliterals hunrepeated
    rw [List.flatMap_singleton] at hliterals
    exact ⟨g, r, hwriteSpec, hrg,
      ⟨hliterals, fun h => hunrepeated (List.forall_mem_singleton.mpr h)⟩,
      fun hne => absurd rfl (hne _)⟩
  · obtain ⟨hsublist, hintact⟩ := shrinks_of_forall₂ hmerged hread
    rw [← literals_groupSpec, hliterals] at hsublist hintact
    exact ⟨g, .spec (.disjunction (first :: rest)), hwriteSpec,
      .spec hcomposite ⟨hsublist, fun hlength => hunrepeated (hintact hlength)⟩,
      ⟨rfl, fun h => h⟩, fun hne => absurd rfl (hne _)⟩

/-- **What is written for writable leaves is read with some of its literals.** By induction on the
filter. -/
theorem Flat.exists_covers {s : FilterSpec} (h : Flat WritableLeaf s) :
    ∃ f p, WrittenAs Shrinks Part.Covers s f p := by
  induction h with
  | @criterion c leaf =>
      refine ⟨_, _, leaf.writeSpec_criterion, .clause leaf.readable, ⟨?_, fun _ => .criterion c⟩,
        fun _ => rfl⟩
      exact (FilterSpec.literals_criterion c).symm
  | @negation c leaf =>
      refine ⟨_, _, leaf.writeSpec_negation, .clause leaf.readable,
        ⟨?_, fun _ => .negation (.criterion c)⟩, fun _ => rfl⟩
      rw [FilterSpec.literals_negation]
      exact (FilterSpec.literals_criterion c).symm
  | conjunction two _ _ ih => exact exists_covers_conjunction two ih
  | @disjunction children two flat _ ih =>
      cases children with
      | nil => exact absurd two (by simp)
      | cons first rest => exact exists_covers_disjunction flat ih

/-- **The text of a filter of writable leaves reads back as a filter with some of its literals, and
with all of them only if nothing is repeated.** -/
theorem Flat.exists_shrinks {s : FilterSpec} (h : Flat WritableLeaf s) :
    ∃ t s', writeFilter s = .ok t ∧ parseFilter t = .ok s' ∧ Shrinks s s' := by
  obtain ⟨f, p, hs⟩ := h.exists_covers
  obtain ⟨bs, hreads, hread⟩ := hs.written.text
  obtain ⟨hsublist, hintact⟩ := hs.written.shrinks hread
  rw [← literals_groupSpec, hs.holds.1] at hsublist hintact
  refine ⟨f.text, groupSpec bs, by rw [writeFilter, hs.write]; rfl, hreads.parseFilter_eq, hsublist, ?_⟩
  exact fun hlength => hs.holds.2 (hintact hlength)

end QueryText

end EntityStore
