import EntityStore.Proofs.QueryText.Outlines
import Mathlib.Logic.Relation

/-!
# Looser ways to write a filter

A filter may be written with separators, words `or`, commas, empty groups and parentheses that it
could do without. Each of them, put where it may stand, leaves the layout separated and what the layout
amounts to the same.

**A filter stays the same filter whatever is put into its text in these ways, any number of times.**
-/

namespace EntityStore.QueryText

open Text

/-! ## Putting in what changes nothing -/

/-- A branch begins after these items: there are none, or since the last word `or` only separators. -/
inductive BeginsBranch : List Item → Prop
  | first : BeginsBranch []
  | or (before : List Item) : BeginsBranch (before ++ [.or])
  | separator {before : List Item} (h : BeginsBranch before) : BeginsBranch (before ++ [.separator])

/-- A branch ends before these items: there are none, or up to the first word `or` only separators. -/
inductive EndsBranch : List Item → Prop
  | last : EndsBranch []
  | or (after : List Item) : EndsBranch (.or :: after)
  | separator {after : List Item} (h : EndsBranch after) : EndsBranch (.separator :: after)

/-- Items that are no terms. -/
inductive Bare : List Item → Prop
  | nil : Bare []
  | separator {items : List Item} (h : Bare items) : Bare (.separator :: items)
  | or {items : List Item} (h : Bare items) : Bare (.or :: items)

/-- The one layout is the other with one thing more: a separator anywhere, an empty group where that
leaves it separated, the word `or` where a branch begins or ends, a comma anywhere among values, or
parentheses around a criterion, around the terms of a branch, or around all terms. -/
inductive Loosens : List Item → List Item → Prop
  | separator {before after : List Item} : Loosens (before ++ after) (before ++ .separator :: after)
  | empty {before after : List Item} (h : Separated true (before ++ .group [] :: after)) :
    Loosens (before ++ after) (before ++ .group [] :: after)
  | orBegins {before after : List Item} (h : BeginsBranch before) :
    Loosens (before ++ after) (before ++ .or :: after)
  | orEnds {before after : List Item} (h : EndsBranch after) :
    Loosens (before ++ after) (before ++ .or :: after)
  | comma {before after : List Item} {path : List String} {operator : String} {a b : List Slot} :
    Loosens (before ++ .criterion path operator (a ++ b) :: after)
      (before ++ .criterion path operator (a ++ .comma :: b) :: after)
  | criterion {before after : List Item} {path : List String} {operator : String} {slots : List Slot} :
    Loosens (before ++ .criterion path operator slots :: after)
      (before ++ .group [.criterion path operator slots] :: after)
  | branch {before branch after : List Item} (hbefore : BeginsBranch before)
    (hbranch : .or ∉ branch) (hafter : EndsBranch after) :
    Loosens (before ++ (branch ++ after)) (before ++ .group branch :: after)
  | chain {before items after : List Item} (hbefore : Bare before) (hafter : Bare after) :
    Loosens (before ++ (items ++ after)) (before ++ .group items :: after)
  | inside {before after inner inner' : List Item} (h : Loosens inner inner') :
    Loosens (before ++ .group inner :: after) (before ++ .group inner' :: after)

/-- Parentheses around some tokens. -/
theorem Spells.parens {inner items : List Item} {us ts : List Token} (hinner : Spells inner us)
    (h : Spells items ts) :
    Spells (.group inner :: items)
      (⟨.openParen, ['('], 0⟩ :: (us ++ ⟨.closeParen, [')'], 0⟩ :: ts)) :=
  .group rfl hinner rfl h

/-- **Each of these puts in tokens and takes none away.** -/
theorem Loosens.exists_spells {items items' : List Item} (h : Loosens items items') {ts : List Token}
    (hspells : Spells items ts) : ∃ ts', Spells items' ts' ∧ ts.Sublist ts' := by
  induction h generalizing ts with
  | separator =>
      obtain ⟨us, vs, rfl, hbefore, hafter⟩ := exists_append_of_spells hspells
      refine ⟨_, hbefore.append (.separator (t := ⟨.tilde, ['~'], 0⟩) (.inl rfl) hafter), ?_⟩
      simp
  | empty =>
      obtain ⟨us, vs, rfl, hbefore, hafter⟩ := exists_append_of_spells hspells
      refine ⟨_, hbefore.append (.parens .nil hafter), ?_⟩
      simp
  | orBegins | orEnds =>
      obtain ⟨us, vs, rfl, hbefore, hafter⟩ := exists_append_of_spells hspells
      refine ⟨_, hbefore.append (.or (t := ⟨.word, ['o', 'r'], 0⟩) rfl hafter), ?_⟩
      simp
  | comma =>
      obtain ⟨us, vs, rfl, hbefore, hafter⟩ := exists_append_of_spells hspells
      cases hafter with
      | criterion hnames hslots hafter =>
          obtain ⟨as, bs, rfl, ha, hb⟩ := exists_append_of_spellsSlots hslots
          refine ⟨_, hbefore.append (.criterion hnames
            (ha.append (.comma (t := ⟨.comma, [','], 0⟩) rfl hb)) hafter), ?_⟩
          simp
  | criterion =>
      obtain ⟨us, vs, rfl, hbefore, hafter⟩ := exists_append_of_spells hspells
      cases hafter with
      | criterion hnames hslots hafter =>
          refine ⟨_, hbefore.append (.parens (.criterion hnames hslots .nil) hafter), ?_⟩
          simp
  | branch | chain =>
      obtain ⟨us, vs, rfl, hbefore, hrest⟩ := exists_append_of_spells hspells
      obtain ⟨ws, vs, rfl, hbranch, hafter⟩ := exists_append_of_spells hrest
      refine ⟨_, hbefore.append (.parens hbranch hafter), ?_⟩
      simp
  | inside _ ih =>
      obtain ⟨us, vs, rfl, hbefore, hafter⟩ := exists_append_of_spells hspells
      cases hafter with
      | group hleft hinner hright hafter =>
          obtain ⟨ws, hinner', hsub⟩ := ih hinner
          refine ⟨_, hbefore.append (.group hleft hinner' hright hafter), ?_⟩
          simp [hsub]

/-! ## What is put in leaves a layout separated -/

theorem BeginsBranch.ready {before : List Item} (h : BeginsBranch before) :
    Item.ready true before = true := by
  cases h with
  | first => rfl
  | or => rw [ready_append]; rfl
  | separator => rw [ready_append]; rfl

theorem EndsBranch.separated {after : List Item} (h : EndsBranch after) {ready : Bool}
    (hafter : Separated ready after) : Separated false after := by
  cases h with
  | last => exact .nil
  | or => exact separated_or.mpr (separated_or.mp hafter)
  | separator => exact separated_separator.mpr (separated_separator.mp hafter)

theorem Bare.ready {items : List Item} (h : Bare items) : Item.ready true items = true := by
  induction h with
  | nil => rfl
  | separator _ ih => exact ih
  | or _ ih => exact ih

theorem Bare.separated {items : List Item} (h : Bare items) {ready : Bool} : Separated ready items := by
  induction h generalizing ready with
  | nil => exact .nil
  | separator _ ih => exact .separator ih
  | or _ ih => exact .or ih

/-- **What is put in leaves a layout separated.** -/
theorem Loosens.separated {items items' : List Item} (h : Loosens items items')
    (hitems : Separated true items) : Separated true items' := by
  induction h with
  | separator | orBegins | orEnds =>
      rw [separated_append] at hitems ⊢
      exact ⟨hitems.1, by simpa using hitems.2.of_ready⟩
  | empty h => exact h
  | comma =>
      rw [separated_append, separated_criterion] at hitems ⊢
      obtain ⟨hbefore, hready, hslots, hafter⟩ := hitems
      exact ⟨hbefore, hready, hslots.comma_between, hafter⟩
  | criterion =>
      rw [separated_append, separated_criterion] at hitems
      obtain ⟨hbefore, hready, hslots, hafter⟩ := hitems
      rw [separated_append, separated_group]
      exact ⟨hbefore, hready, .criterion hslots .nil, hafter⟩
  | branch hbefore _ hafter =>
      rw [separated_append, separated_append] at hitems
      rw [separated_append, separated_group]
      exact ⟨hitems.1, hbefore.ready, hitems.2.1.of_ready, hafter.separated hitems.2.2⟩
  | chain hbefore hafter =>
      rw [separated_append, separated_append] at hitems
      rw [separated_append, separated_group]
      exact ⟨hitems.1, hbefore.ready, hitems.2.1.of_ready, hafter.separated⟩
  | inside _ ih =>
      rw [separated_append, separated_group] at hitems ⊢
      obtain ⟨hbefore, hready, hinner, hafter⟩ := hitems
      exact ⟨hbefore, hready, ih hinner, hafter⟩

/-! ## What is put in leaves no trace -/

theorem joined?_toList (wrap : List FilterExpr → FilterExpr) (e : Option FilterExpr) :
    joined? wrap e.toList = e := by
  cases e <;> rfl

namespace Group

/-- A branch is ended once. -/
theorem endBranch_endBranch (g : Group) : g.endBranch.endBranch = g.endBranch := by
  simp [endBranch, joined?]

theorem result_endBranch (g : Group) : g.endBranch.result = g.result := by
  rw [result, endBranch_endBranch, result]

/-- Nothing in the place of a term leaves the group as it is. -/
theorem addTerm_none {g : Group} (hg : g.separated = true) : (g.addTerm none).separate = g := by
  rw [addTerm, separate, Option.toList_none, List.append_nil, ← hg]

/-- A group of one term amounts to the term. -/
theorem result_addTerm (term : Option FilterExpr) :
    (Group.empty.addTerm term).separate.result = term := by
  simp only [result, endBranch, addTerm, separate, empty, List.nil_append, joined?_toList]

end Group

namespace Item

theorem afterAll_append (g : Group) (a b : List Item) :
    afterAll g (a ++ b) = afterAll (afterAll g a) b := by
  induction a generalizing g with
  | nil => rfl
  | cons i a ih => exact ih (i.after g)

theorem separated_afterAll {g : Group} (hg : g.separated = true) (items : List Item) :
    (afterAll g items).separated = true := by
  induction items generalizing g with
  | nil => exact hg
  | cons i items ih =>
      cases i with
      | separator => exact ih hg
      | or => exact ih rfl
      | criterion => exact ih rfl
      | group => exact ih rfl

/-- Items without the word `or` add terms to the branch that is read. -/
theorem exists_afterAll {items : List Item} (h : .or ∉ items) :
    ∃ terms, ∀ g : Group, g.separated = true →
      afterAll g items = ⟨g.branches, g.terms ++ terms, true⟩ := by
  induction items with
  | nil => exact ⟨[], fun g hg => by rw [List.append_nil, ← hg, afterAll]⟩
  | cons i items ih =>
      rw [List.mem_cons, not_or] at h
      obtain ⟨terms, hterms⟩ := ih h.2
      -- a criterion and a group alike add what they amount to
      have hterm : ∀ term : Option FilterExpr, (∀ g, i.after g = (g.addTerm term).separate) →
          ∃ terms, ∀ g : Group, g.separated = true →
            afterAll g (i :: items) = ⟨g.branches, g.terms ++ terms, true⟩ := by
        intro term hafter
        refine ⟨term.toList ++ terms, fun g _ => ?_⟩
        rw [afterAll, hafter, hterms (g.addTerm term).separate rfl, ← List.append_assoc]
        rfl
      cases i with
      | separator => exact ⟨terms, hterms⟩
      | or => exact absurd rfl h.1
      | criterion => exact hterm _ fun _ => rfl
      | group => exact hterm _ fun _ => rfl

theorem literals_append (a b : List Slot) :
    Slot.literals (a ++ b) = Slot.literals a ++ Slot.literals b := by
  induction a with
  | nil => rfl
  | cons slot a ih =>
      cases slot with
      | comma => exact ih
      | literal l => exact congrArg (l :: ·) ih

/-- What amounts to the same in any group may stand for one another. -/
theorem outline_congr {i j : Item} (h : ∀ g, i.after g = j.after g) (before after : List Item) :
    outline (before ++ i :: after) = outline (before ++ j :: after) := by
  rw [outline, outline, afterAll_append, afterAll_append, afterAll, afterAll, h]

/-- A group in parentheses stands for what it amounts to. -/
theorem after_group (g : Group) (items : List Item) :
    (Item.group items).after g = (g.addTerm (outline items)).separate := rfl

end Item

theorem BeginsBranch.endBranch {before : List Item} (h : BeginsBranch before) :
    (Item.afterAll .empty before).endBranch = Item.afterAll .empty before := by
  induction h with
  | first => rfl
  | or before =>
      rw [Item.afterAll_append]
      exact Group.endBranch_endBranch _
  | separator _ ih =>
      rw [Item.afterAll_append]
      exact ih

/-- Where a branch ends, it only counts what the branch amounts to. -/
theorem EndsBranch.result_eq {after : List Item} (h : EndsBranch after) {g g' : Group}
    (hg : g.endBranch = g'.endBranch) :
    (Item.afterAll g after).result = (Item.afterAll g' after).result := by
  induction h with
  | last =>
      rw [Item.afterAll, Item.afterAll, Group.result, Group.result, hg]
  | or after =>
      rw [Item.afterAll, Item.afterAll, Item.after, Item.after, hg]
  | separator _ ih => exact ih

theorem Bare.afterAll {items : List Item} (h : Bare items) : Item.afterAll .empty items = .empty := by
  induction h with
  | nil => rfl
  | separator _ ih => exact ih
  | or _ ih => exact ih

theorem Bare.result_eq {items : List Item} (h : Bare items) (g : Group) :
    (Item.afterAll g items).result = g.result := by
  induction h generalizing g with
  | nil => rfl
  | separator _ ih => exact ih g
  | or _ ih => exact (ih g.endBranch).trans g.result_endBranch

/-- **What is put in leaves no trace.** -/
theorem Loosens.outline_eq {items items' : List Item} (h : Loosens items items') :
    Item.outline items' = Item.outline items := by
  induction h with
  | separator =>
      rw [Item.outline, Item.outline, Item.afterAll_append, Item.afterAll_append]
      rfl
  | @empty before after =>
      have hready := Item.separated_afterAll (g := .empty) rfl before
      rw [Item.outline, Item.afterAll_append, Item.afterAll, Item.after_group]
      rw [show Item.outline [] = none from rfl, Group.addTerm_none hready, ← Item.afterAll_append]
      rfl
  | orBegins hbefore =>
      rw [Item.outline, Item.outline, Item.afterAll_append, Item.afterAll_append, Item.afterAll,
        Item.after, hbefore.endBranch]
  | orEnds hafter =>
      rw [Item.outline, Item.outline, Item.afterAll_append, Item.afterAll_append]
      exact hafter.result_eq (Group.endBranch_endBranch _)
  | @comma before after path operator a b =>
      refine Item.outline_congr (fun g => ?_) _ _
      rw [Item.after, Item.after, Item.literals_append, Item.literals_append, Slot.literals]
  | criterion => exact Item.outline_congr (fun g => by rw [Item.after_group]; rfl) _ _
  | @branch before branch after hbefore hbranch hafter =>
      obtain ⟨terms, hterms⟩ := Item.exists_afterAll hbranch
      have houtline : Item.outline branch = joined? .and terms := by
        rw [Item.outline, hterms .empty rfl]
        exact joined?_toList _ _
      have hready := Item.separated_afterAll (g := .empty) rfl before
      have hnone : (Item.afterAll .empty before).terms = [] := by
        rw [← hbefore.endBranch]
        rfl
      -- both ways the branch, once ended, amounts to its terms joined
      rw [Item.outline, Item.outline, Item.afterAll_append, Item.afterAll_append, Item.afterAll_append,
        hterms _ hready, Item.afterAll, Item.after_group, houtline]
      refine hafter.result_eq ?_
      simp only [Group.endBranch, Group.addTerm, Group.separate, hnone, List.nil_append, joined?_toList]
  | @chain before items after hbefore hafter =>
      rw [Item.outline, Item.outline, Item.afterAll_append, Item.afterAll_append, Item.afterAll_append,
        hbefore.afterAll, Item.afterAll, Item.after_group, hafter.result_eq, hafter.result_eq,
        Group.result_addTerm, Item.outline]
  | inside _ ih =>
      exact Item.outline_congr (fun g => by rw [Item.after_group, Item.after_group, ih]) _ _

/-! ## Filters -/

/-- Any number of such steps keeps what one keeps. -/
theorem loosens_run {items items' : List Item} (h : Relation.ReflTransGen Loosens items items')
    (hitems : Separated true items) {ts : List Token} (hspells : Spells items ts) :
    Separated true items' ∧ Item.outline items' = Item.outline items ∧
      ∃ ts', Spells items' ts' ∧ ts.Sublist ts' := by
  induction h with
  | refl => exact ⟨hitems, rfl, ts, hspells, List.Sublist.refl ts⟩
  | tail _ hstep ih =>
      obtain ⟨hseparated, houtline, us, hus, hsub⟩ := ih
      obtain ⟨ts', hts', hsub'⟩ := hstep.exists_spells hus
      exact ⟨hstep.separated hseparated, hstep.outline_eq.trans houtline, ts', hts', hsub.trans hsub'⟩

/-- **A filter stays the same filter** when separators, empty groups, words `or`, commas and parentheses
are put into its tokens where they change nothing, any number of times. -/
theorem parseFilter_of_loosens {input : String} {spec : FilterSpec} {ts : List Token}
    (h : parseFilter input = .ok spec) (hcut : tokens input = .ok ts) :
    (∃ items, Spells items ts ∧ Separated true items) ∧
      ∀ items items', Spells items ts → Separated true items →
        Relation.ReflTransGen Loosens items items' →
          (∃ ts', Spells items' ts' ∧ ts.Sublist ts') ∧
            ∀ input' ts', tokens input' = .ok ts' → Spells items' ts' →
              parseFilter input' = .ok spec := by
  refine ⟨exists_spells_of_parseFilter hcut h, fun items items' hspells hitems hloosens => ?_⟩
  obtain ⟨hitems', houtline, hinsert⟩ := loosens_run hloosens hitems hspells
  refine ⟨hinsert, fun input' ts' hcut' hspells' => ?_⟩
  rw [hspells.parseFilter_eq_ok_iff hitems hcut, ← houtline] at h
  exact (hspells'.parseFilter_eq_ok_iff hitems' hcut').mpr h

/-- Whoever is younger than the values say. -/
def younger (slots : List Slot) : Item := .criterion ["age"] "less-than" slots

/-- The tokens of the names of such a criterion that begins at a byte. -/
def youngerNames (start : Nat) : List Token :=
  [⟨.word, "age".toList, start⟩, ⟨.colon, [':'], start + 3⟩, ⟨.word, "less-than".toList, start + 4⟩,
    ⟨.colon, [':'], start + 13⟩]

theorem spellsNames_younger (start : Nat) :
    SpellsNames ["age"] "less-than" (youngerNames start) := by
  have h := @SpellsNames.intro ⟨.word, "age".toList, start⟩ ⟨.colon, [':'], start + 3⟩
    ⟨.word, "less-than".toList, start + 4⟩ ⟨.colon, [':'], start + 13⟩ [] [] rfl rfl rfl .nil
    ⟨rfl, rfl, rfl⟩
  rwa [String.ofList_toList, String.ofList_toList] at h

/-- A comma, parentheses, a `~` on either side, an empty group and an `or`. -/
theorem loosens_younger (l : Literal) :
    Relation.ReflTransGen Loosens [younger [.literal l]]
      [.separator, .group [younger [.comma, .literal l]], .separator, .group [], .or] := by
  generalize hgroup : Item.group [younger [.comma, .literal l]] = group
  have hcomma : Loosens [younger [.literal l]] [younger [.comma, .literal l]] :=
    @Loosens.comma [] [] ["age"] "less-than" [] [.literal l]
  have hchain : Loosens [younger [.comma, .literal l]] [group] :=
    hgroup ▸ @Loosens.chain [] [younger [.comma, .literal l]] [] .nil .nil
  have hbefore : Loosens [group] [.separator, group] := @Loosens.separator [] [group]
  have hafter : Loosens [.separator, group] [.separator, group, .separator] :=
    @Loosens.separator [.separator, group] []
  have hempty : Loosens [.separator, group, .separator] [.separator, group, .separator, .group []] := by
    refine @Loosens.empty [.separator, group, .separator] [] ?_
    have hslots : SeparatedSlots true [.comma, .literal l] := .comma (.literal .nil)
    exact hgroup ▸ .separator (.group (.criterion hslots .nil) (.separator (.group .nil .nil)))
  have hor : Loosens [.separator, group, .separator, .group []]
      [.separator, group, .separator, .group [], .or] :=
    @Loosens.orEnds [.separator, group, .separator, .group []] [] .last
  have hmiddle := ((Relation.ReflTransGen.single hcomma).tail hchain).tail hbefore
  exact ((hmiddle.tail hafter).tail hempty).tail hor

/-- With all of these the text is read as the same filter. -/
theorem parseFilter_of_loosens_younger :
    ∃ spec, parseFilter "age:less-than:1" = .ok spec ∧
      parseFilter "~(age:less-than:,1)~()or" = .ok spec := by
  have hisOk : (parseFilter "age:less-than:1").isOk = true := by decide +kernel
  cases h : parseFilter "age:less-than:1" with
  | error e =>
      rw [h] at hisOk
      cases hisOk
  | ok spec =>
      have hcut : tokens "age:less-than:1" = .ok (youngerNames 0 ++ [⟨.number, ['1'], 14⟩]) := by
        decide +kernel
      have hnumber : ∀ start, SpellsSlots [.literal (.value (.int 1))] [⟨.number, ['1'], start⟩] :=
        fun start => @SpellsSlots.literal _ [] _ _ _ rfl rfl .nil
      have hspells : Spells [younger [.literal (.value (.int 1))]]
          (youngerNames 0 ++ [⟨.number, ['1'], 14⟩]) :=
        .criterion (spellsNames_younger 0) (hnumber 14) .nil
      have hseparated : Separated true [younger [.literal (.value (.int 1))]] :=
        .criterion (.literal .nil) .nil
      -- the tokens of the other text
      have hcut' : tokens "~(age:less-than:,1)~()or" = .ok
          (⟨.tilde, ['~'], 0⟩ :: ⟨.openParen, ['('], 1⟩ ::
            (youngerNames 2 ++ [⟨.comma, [','], 16⟩, ⟨.number, ['1'], 17⟩]) ++
            [⟨.closeParen, [')'], 18⟩, ⟨.tilde, ['~'], 19⟩, ⟨.openParen, ['('], 20⟩,
              ⟨.closeParen, [')'], 21⟩, ⟨.word, ['o', 'r'], 22⟩]) := by
        decide +kernel
      have hgroup := Spells.criterion (spellsNames_younger 2)
        (.comma (t := ⟨.comma, [','], 16⟩) rfl (hnumber 17)) .nil
      have hempty := @Spells.group ⟨.openParen, ['('], 20⟩ ⟨.closeParen, [')'], 21⟩ [] _ [] _ rfl .nil rfl
        (.or (t := ⟨.word, ['o', 'r'], 22⟩) rfl .nil)
      have hspells' : Spells
          [.separator, .group [younger [.comma, .literal (.value (.int 1))]], .separator, .group [], .or]
          (⟨.tilde, ['~'], 0⟩ :: ⟨.openParen, ['('], 1⟩ ::
            (youngerNames 2 ++ [⟨.comma, [','], 16⟩, ⟨.number, ['1'], 17⟩]) ++
            [⟨.closeParen, [')'], 18⟩, ⟨.tilde, ['~'], 19⟩, ⟨.openParen, ['('], 20⟩,
              ⟨.closeParen, [')'], 21⟩, ⟨.word, ['o', 'r'], 22⟩]) :=
        .separator (.inl rfl) (.group rfl hgroup rfl (.separator (.inl rfl) hempty))
      obtain ⟨-, hedited⟩ := parseFilter_of_loosens h hcut
      exact ⟨spec, rfl, (hedited _ _ hspells hseparated (loosens_younger _)).2 _ _ hcut' hspells'⟩

end EntityStore.QueryText
