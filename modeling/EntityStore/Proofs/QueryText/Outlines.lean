import EntityStore.Proofs.QueryText.Layout
import EntityStore.QueryText.Meaning

/-!
# What a layout amounts to

The outline of an expression leaves out where its criteria begin, which only the messages about them
tell. A layout amounts to an outline, one item after the other, with nothing known of tokens.

**A text is the filter that the layout of its tokens amounts to.**
-/

namespace EntityStore.QueryText

open Text

/-! ## Outlines of expressions -/

mutual

/-- The expression with every criterion at the first byte. -/
def FilterExpr.outline : FilterExpr → FilterExpr
  | .criterion c => .criterion { c with position := 0 }
  | .and terms => .and (FilterExpr.outlines terms)
  | .or branches => .or (FilterExpr.outlines branches)

@[inherit_doc FilterExpr.outline]
def FilterExpr.outlines : List FilterExpr → List FilterExpr
  | [] => []
  | e :: rest => e.outline :: FilterExpr.outlines rest

end

theorem outlines_eq_map (es : List FilterExpr) : FilterExpr.outlines es = es.map FilterExpr.outline := by
  induction es with
  | nil => rfl
  | cons e es ih => rw [FilterExpr.outlines, ih, List.map_cons]

/-- Where a criterion begins is only told when its operator is unknown. -/
theorem RawCriterion.toSpec_outline (c : RawCriterion) (spec : FilterSpec) :
    RawCriterion.toSpec { c with position := 0 } = .ok spec ↔ c.toSpec = .ok spec := by
  unfold RawCriterion.toSpec
  cases operatorOf? c.operator with
  | none => simp
  | some => exact Iff.rfl

mutual

/-- **An outline means what the expression means.** By induction on the expression, with its terms. -/
theorem FilterExpr.toSpec_outline : ∀ (e : FilterExpr) (spec : FilterSpec),
    e.outline.toSpec = .ok spec ↔ e.toSpec = .ok spec
  | .criterion c, spec => c.toSpec_outline spec
  | .and terms, spec => by
      rw [FilterExpr.outline, toSpec_and_iff, toSpec_and_iff]
      exact exists_congr fun specs => and_congr_left' (FilterExpr.toSpecs_outlines terms specs)
  | .or branches, spec => by
      rw [FilterExpr.outline, toSpec_or_iff, toSpec_or_iff]
      exact exists_congr fun specs => and_congr_left' (FilterExpr.toSpecs_outlines branches specs)

@[inherit_doc FilterExpr.toSpec_outline]
theorem FilterExpr.toSpecs_outlines : ∀ (es : List FilterExpr) (specs : List FilterSpec),
    FilterExpr.toSpecs (FilterExpr.outlines es) = .ok specs ↔ FilterExpr.toSpecs es = .ok specs
  | [], specs => Iff.rfl
  | e :: es, specs => by
      have ih := FilterExpr.toSpecs_outlines es
      rw [FilterExpr.outlines]
      constructor
      · intro h
        obtain ⟨spec, rest, rfl, he, hes⟩ := mean_inv h
        exact mean_cons ((e.toSpec_outline spec).mp he) ((ih rest).mp hes)
      · intro h
        obtain ⟨spec, rest, rfl, he, hes⟩ := mean_inv h
        exact mean_cons ((e.toSpec_outline spec).mpr he) ((ih rest).mpr hes)

end

theorem joined?_outlines {wrap : List FilterExpr → FilterExpr}
    (hwrap : ∀ es, (wrap es).outline = wrap (FilterExpr.outlines es)) (es : List FilterExpr) :
    joined? wrap (FilterExpr.outlines es) = (joined? wrap es).map FilterExpr.outline := by
  match es with
  | [] => rfl
  | [e] => rfl
  | e :: e' :: rest => exact congrArg some (hwrap (e :: e' :: rest)).symm

namespace Group

/-- The outlines of what is in a group, with no regard to whether a term may come next. -/
def outline (g : Group) : Group :=
  ⟨FilterExpr.outlines g.branches, FilterExpr.outlines g.terms, true⟩

theorem outline_addTerm (g : Group) (term : Option FilterExpr) :
    (g.addTerm term).outline = (g.outline.addTerm (term.map FilterExpr.outline)).separate := by
  simp [outline, addTerm, separate, outlines_eq_map, Option.toList_map]

theorem outline_endBranch (g : Group) : g.endBranch.outline = g.outline.endBranch := by
  have hjoined := @joined?_outlines .and FilterExpr.outline.eq_2 g.terms
  simp only [outline, endBranch, hjoined]
  simp [outlines_eq_map, Option.toList_map]

theorem outline_result (g : Group) : g.outline.result = g.result.map FilterExpr.outline := by
  rw [result, ← outline_endBranch]
  exact @joined?_outlines .or FilterExpr.outline.eq_3 _

end Group

/-! ## Outlines of layouts -/

mutual

/-- The group after one more item. A group in parentheses that amounts to nothing leaves no trace. -/
def Item.after (g : Group) : Item → Group
  | .separator => g
  | .or => g.endBranch
  | .criterion path operator slots =>
    (g.addTerm (some (.criterion ⟨path, operator, Slot.literals slots, 0⟩))).separate
  | .group items => (g.addTerm (Item.afterAll .empty items).result).separate

/-- The group after some more items. -/
def Item.afterAll (g : Group) : List Item → Group
  | [] => g
  | i :: items => afterAll (i.after g) items

end

/-- What a layout amounts to. -/
def Item.outline (items : List Item) : Option FilterExpr := (Item.afterAll .empty items).result

/-- Where no term may come, separated items begin with a separator or the word `or`. -/
theorem Spells.endCriterion {items : List Item} {ts rest : List Token} (h : Spells items ts)
    (hitems : Separated false items) (hrest : EndCriterion rest) : EndCriterion (ts ++ rest) := by
  cases h with
  | nil => exact hrest
  | separator ht =>
      rintro t ⟨⟩
      rcases ht with ht | ht
      · exact .inl ht
      · exact .inr (.inr (.inl ht))
  | or ht =>
      rintro t ⟨⟩
      exact .inr (.inr (.inr ht))
  | criterion => cases hitems
  | group => cases hitems

/-- **The tokens of a separated layout are read into an open group, which then has the outline the items
give it.** By induction on the layout. -/
theorem Spells.readGroups {items : List Item} {ts : List Token} (h : Spells items ts) (size : Nat)
    (outer : List Group) (g : Group) {separated : Bool} (hg : g.separated = separated)
    (hitems : Separated separated items) {rest : List Token} (hrest : EndCriterion rest) :
    ∃ g', QueryText.readGroups size outer g (ts ++ rest) = QueryText.readGroups size outer g' rest ∧
      g'.outline = Item.afterAll g.outline items := by
  induction h generalizing outer g separated rest with
  | nil => exact ⟨g, rfl, rfl⟩
  | separator ht _ ih =>
      cases hitems with
      | separator hitems =>
          rw [List.cons_append, readGroups_separator ht]
          exact ih outer g.separate rfl hitems hrest
  | or ht _ ih =>
      cases hitems with
      | or hitems =>
          obtain ⟨g', hread, houtline⟩ := ih outer g.endBranch rfl hitems hrest
          rw [List.cons_append, readGroups_or ht]
          refine ⟨g', hread, ?_⟩
          rw [houtline, Group.outline_endBranch, Item.afterAll, Item.after]
  | @criterion path operator slots us vs ts items hnames hslots h ih =>
      cases hitems with
      | criterion hseparated hitems =>
          -- what comes after a term begins with nothing that its values could go on with
          obtain ⟨position, hread⟩ :=
            hnames.readGroups hslots hseparated (h.endCriterion hitems hrest) size outer hg
          obtain ⟨g', hread', houtline⟩ := ih outer (g.addTerm _) rfl hitems hrest
          rw [List.append_assoc, List.append_assoc, hread]
          refine ⟨g', hread', ?_⟩
          rw [houtline, Group.outline_addTerm, Item.afterAll, Item.after]
          rfl
  | @group left right inner items us ts hleft hinner hright h ihinner ih =>
      cases hitems with
      | group hseparated hitems =>
          -- the items inside are read into a group of their own, up to the parenthesis
          have hclose : EndCriterion (right :: (ts ++ rest)) := by
            rintro t ⟨⟩
            exact .inr (.inl hright)
          obtain ⟨inside, hread, hinside⟩ :=
            ihinner (g :: outer) .empty rfl hseparated hclose
          obtain ⟨g', hread', houtline⟩ :=
            ih outer (g.addTerm inside.result) rfl hitems hrest
          rw [List.cons_append, readGroups_open hleft hg, List.append_assoc, List.cons_append, hread,
            readGroups_close hright]
          refine ⟨g', hread', ?_⟩
          rw [houtline, Group.outline_addTerm, ← Group.outline_result, hinside, Item.afterAll,
            Item.after]
          rfl

/-- **The tokens of a separated layout are read, as an expression with the outline of the layout.** -/
theorem Spells.exists_readGroups {items : List Item} {ts : List Token} (h : Spells items ts)
    (hitems : Separated true items) (size : Nat) :
    ∃ e, QueryText.readGroups size [] .empty ts = .ok e ∧
      e.map FilterExpr.outline = Item.outline items := by
  obtain ⟨g, hread, houtline⟩ := h.readGroups size [] .empty rfl hitems endCriterion_nil
  rw [List.append_nil] at hread
  refine ⟨g.result, by rw [hread, QueryText.readGroups], ?_⟩
  rw [← Group.outline_result, houtline]
  rfl

/-- The tokens of a filter have a separated layout. -/
theorem exists_spells_of_parseFilter {input : String} {ts : List Token} {spec : FilterSpec}
    (hcut : tokens input = .ok ts) (h : parseFilter input = .ok spec) :
    ∃ items, Spells items ts ∧ Separated true items := by
  unfold parseFilter readFilter at h
  rw [hcut] at h
  dsimp only at h
  cases hread : readGroups (byteLength input.toList) [] .empty ts with
  | error e =>
      rw [hread] at h
      cases h
  | ok e => exact exists_spells_of_readGroups hread

/-- **A text whose tokens have a separated layout is the filter that the layout amounts to**, if it is
one at all. -/
theorem Spells.parseFilter_eq_ok_iff {items : List Item} {ts : List Token} (h : Spells items ts)
    (hitems : Separated true items) {input : String} (hcut : tokens input = .ok ts)
    {spec : FilterSpec} :
    parseFilter input = .ok spec ↔ ∃ e, Item.outline items = some e ∧ e.toSpec = .ok spec := by
  obtain ⟨e, hread, houtline⟩ := h.exists_readGroups hitems (byteLength input.toList)
  rw [← houtline, parseFilter, readFilter, hcut]
  dsimp only
  rw [hread]
  cases e with
  | none => simp
  | some e => simp [e.toSpec_outline spec]

end EntityStore.QueryText
