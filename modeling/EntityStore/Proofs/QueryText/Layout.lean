import EntityStore.Proofs.QueryText.Branches
import EntityStore.Proofs.QueryText.Formed

/-!
# Layouts of filters

A layout is what a filter's tokens show before anything collapses: the separators, the words `or`, the
criteria with their commas, and the groups with what stands in them. It leaves out where the tokens
begin. A layout is separated when between two terms there is a separator or the word `or`, and between
two values a comma.

**The tokens of a separated layout are read, and into an open group as the items say, one after the
other. All tokens that are read have a separated layout.**
-/

namespace EntityStore.QueryText

open Text

/-- What stands in the list of values of a criterion. -/
inductive Slot
  | comma
  | literal (l : Literal)

/-- What stands in a group, or in a filter: a `~` or `and`, the word `or`, or a term. -/
inductive Item
  | separator
  | or
  | criterion (path : List String) (operator : String) (slots : List Slot)
  | group (items : List Item)

/-- The literals of a list of values. -/
def Slot.literals : List Slot → List Literal
  | [] => []
  | .comma :: rest => literals rest
  | .literal l :: rest => l :: literals rest

/-! ## The tokens of a layout -/

/-- The tokens of a list of values. -/
inductive SpellsSlots : List Slot → List Token → Prop
  | nil : SpellsSlots [] []
  | comma {t : Token} {slots : List Slot} {ts : List Token} (ht : t.kind = .comma)
    (h : SpellsSlots slots ts) : SpellsSlots (.comma :: slots) (t :: ts)
  | literal {t : Token} {us : List Token} {l : Literal} {slots : List Slot} {ts : List Token}
    (hstarts : startsLiteral t = true) (hread : readLiteral t us = .ok (l, us.length))
    (h : SpellsSlots slots ts) : SpellsSlots (.literal l :: slots) (t :: (us ++ ts))

/-- The tokens of the segments of a path after the first one, each with its dot. -/
inductive SpellsRest : List String → List Token → Prop
  | nil : SpellsRest [] []
  | cons {dot w : Token} {segments : List String} {ts : List Token} (hdot : dot.kind = .dot)
    (hw : w.kind = .word) (h : SpellsRest segments ts) :
    SpellsRest (String.ofList w.text :: segments) (dot :: w :: ts)

/-- The tokens of the path and the operator of a criterion, with both colons. -/
inductive SpellsNames : List String → String → List Token → Prop
  | intro {w colon operator colon' : Token} {segments : List String} {ts : List Token}
    (hw : w.kind = .word) (hand : w.isKeyword "and" = false) (hor : w.isKeyword "or" = false)
    (hrest : SpellsRest segments ts)
    (hkinds : colon.kind = .colon ∧ operator.kind = .word ∧ colon'.kind = .colon) :
    SpellsNames (String.ofList w.text :: segments) (String.ofList operator.text)
      (w :: (ts ++ [colon, operator, colon']))

/-- The tokens of a layout, wherever in a text they begin. -/
inductive Spells : List Item → List Token → Prop
  | nil : Spells [] []
  | separator {t : Token} {items : List Item} {ts : List Token}
    (ht : t.kind = .tilde ∨ t.isKeyword "and" = true) (h : Spells items ts) :
    Spells (.separator :: items) (t :: ts)
  | or {t : Token} {items : List Item} {ts : List Token} (ht : t.isKeyword "or" = true)
    (h : Spells items ts) : Spells (.or :: items) (t :: ts)
  | criterion {path : List String} {operator : String} {slots : List Slot} {us vs ts : List Token}
    {items : List Item} (hnames : SpellsNames path operator us) (hslots : SpellsSlots slots vs)
    (h : Spells items ts) : Spells (.criterion path operator slots :: items) (us ++ (vs ++ ts))
  | group {left right : Token} {inner items : List Item} {us ts : List Token}
    (hleft : left.kind = .openParen) (hinner : Spells inner us) (hright : right.kind = .closeParen)
    (h : Spells items ts) : Spells (.group inner :: items) (left :: (us ++ right :: ts))

theorem SpellsSlots.append {a b : List Slot} {us vs : List Token} (ha : SpellsSlots a us)
    (hb : SpellsSlots b vs) : SpellsSlots (a ++ b) (us ++ vs) := by
  induction ha with
  | nil => exact hb
  | comma ht _ ih => exact .comma ht ih
  | literal hstarts hread _ ih => simpa using SpellsSlots.literal hstarts hread ih

theorem exists_append_of_spellsSlots {a b : List Slot} {ts : List Token}
    (h : SpellsSlots (a ++ b) ts) :
    ∃ us vs, ts = us ++ vs ∧ SpellsSlots a us ∧ SpellsSlots b vs := by
  induction a generalizing ts with
  | nil => exact ⟨[], ts, rfl, .nil, h⟩
  | cons slot a ih =>
      cases h with
      | @comma t _ _ ht h =>
          obtain ⟨us, vs, rfl, ha, hb⟩ := ih h
          exact ⟨t :: us, vs, rfl, .comma ht ha, hb⟩
      | @literal t ws _ _ _ hstarts hread h =>
          obtain ⟨us, vs, rfl, ha, hb⟩ := ih h
          exact ⟨t :: (ws ++ us), vs, by simp, .literal hstarts hread ha, hb⟩

theorem Spells.append {a b : List Item} {us vs : List Token} (ha : Spells a us) (hb : Spells b vs) :
    Spells (a ++ b) (us ++ vs) := by
  induction ha with
  | nil => exact hb
  | separator ht _ ih => exact .separator ht ih
  | or ht _ ih => exact .or ht ih
  | criterion hnames hslots _ ih => simpa using Spells.criterion hnames hslots ih
  | group hleft hinner hright _ _ ih => simpa using Spells.group hleft hinner hright ih

theorem exists_append_of_spells {a b : List Item} {ts : List Token} (h : Spells (a ++ b) ts) :
    ∃ us vs, ts = us ++ vs ∧ Spells a us ∧ Spells b vs := by
  induction a generalizing ts with
  | nil => exact ⟨[], ts, rfl, .nil, h⟩
  | cons i a ih =>
      cases h with
      | @separator t _ _ ht h =>
          obtain ⟨us, vs, rfl, ha, hb⟩ := ih h
          exact ⟨t :: us, vs, rfl, .separator ht ha, hb⟩
      | @or t _ _ ht h =>
          obtain ⟨us, vs, rfl, ha, hb⟩ := ih h
          exact ⟨t :: us, vs, rfl, .or ht ha, hb⟩
      | criterion hnames hslots h =>
          obtain ⟨us, vs, rfl, ha, hb⟩ := ih h
          exact ⟨_, vs, by simp, .criterion hnames hslots ha, hb⟩
      | group hleft hinner hright h =>
          obtain ⟨us, vs, rfl, ha, hb⟩ := ih h
          exact ⟨_, vs, by simp, .group hleft hinner hright ha, hb⟩

/-! ## Separated layouts -/

/-- There are commas between the literals; the flag says whether a literal may come first. -/
inductive SeparatedSlots : Bool → List Slot → Prop
  | nil {expecting : Bool} : SeparatedSlots expecting []
  | comma {expecting : Bool} {slots : List Slot} (h : SeparatedSlots true slots) :
    SeparatedSlots expecting (.comma :: slots)
  | literal {l : Literal} {slots : List Slot} (h : SeparatedSlots false slots) :
    SeparatedSlots true (.literal l :: slots)

/-- There are separators or words `or` between the terms, in every group; the flag says whether a term
may come first. -/
inductive Separated : Bool → List Item → Prop
  | nil {separated : Bool} : Separated separated []
  | separator {separated : Bool} {items : List Item} (h : Separated true items) :
    Separated separated (.separator :: items)
  | or {separated : Bool} {items : List Item} (h : Separated true items) :
    Separated separated (.or :: items)
  | criterion {path : List String} {operator : String} {slots : List Slot} {items : List Item}
    (hslots : SeparatedSlots true slots) (h : Separated false items) :
    Separated true (.criterion path operator slots :: items)
  | group {inner items : List Item} (hinner : Separated true inner) (h : Separated false items) :
    Separated true (.group inner :: items)

section Separated

variable {separated : Bool} {items : List Item}

@[simp] theorem separated_separator :
    Separated separated (.separator :: items) ↔ Separated true items :=
  ⟨fun | .separator h => h, .separator⟩

@[simp] theorem separated_or : Separated separated (.or :: items) ↔ Separated true items :=
  ⟨fun | .or h => h, .or⟩

@[simp] theorem separated_criterion {path : List String} {operator : String} {slots : List Slot} :
    Separated separated (.criterion path operator slots :: items) ↔
      separated = true ∧ SeparatedSlots true slots ∧ Separated false items :=
  ⟨fun | .criterion hslots h => ⟨rfl, hslots, h⟩,
    fun ⟨hseparated, hslots, h⟩ => hseparated ▸ .criterion hslots h⟩

@[simp] theorem separated_group {inner : List Item} :
    Separated separated (.group inner :: items) ↔
      separated = true ∧ Separated true inner ∧ Separated false items :=
  ⟨fun | .group hinner h => ⟨rfl, hinner, h⟩,
    fun ⟨hseparated, hinner, h⟩ => hseparated ▸ .group hinner h⟩

/-- Items are the more separated the more may come before them. -/
theorem Separated.of_ready (h : Separated separated items) : Separated true items := by
  cases h with
  | nil => exact .nil
  | separator h => exact .separator h
  | or h => exact .or h
  | criterion hslots h => exact .criterion hslots h
  | group hinner h => exact .group hinner h

/-- Whether a term may come after the items. -/
def Item.ready : Bool → List Item → Bool
  | ready, [] => ready
  | _, .separator :: items => Item.ready true items
  | _, .or :: items => Item.ready true items
  | _, .criterion _ _ _ :: items => Item.ready false items
  | _, .group _ :: items => Item.ready false items

theorem separated_append {after : List Item} :
    Separated separated (items ++ after) ↔
      Separated separated items ∧ Separated (Item.ready separated items) after := by
  induction items generalizing separated with
  | nil => simp [Item.ready, Separated.nil]
  | cons i items ih => cases i <;> simp [Item.ready, ih, and_assoc]

theorem ready_append {after : List Item} :
    Item.ready separated (items ++ after) = Item.ready (Item.ready separated items) after := by
  induction items generalizing separated with
  | nil => rfl
  | cons i items ih => cases i <;> exact ih

end Separated

/-- A comma may be put anywhere among separated values. -/
theorem SeparatedSlots.comma_between {expecting : Bool} {a b : List Slot}
    (h : SeparatedSlots expecting (a ++ b)) : SeparatedSlots expecting (a ++ .comma :: b) := by
  induction a generalizing expecting with
  | nil =>
      refine .comma ?_
      cases h with
      | nil => exact .nil
      | comma h => exact .comma h
      | literal h => exact .literal h
  | cons slot a ih =>
      cases h with
      | comma h => exact .comma (ih h)
      | literal h => exact .literal (ih h)

/-! ## Literals -/

/-- Tokens that go on with no literal. -/
def Unglued (ts : List Token) : Prop := ∀ t ∈ ts.head?, t.kind ≠ .number ∧ t.kind ≠ .minus

theorem unglued_nil : Unglued [] := by simp [Unglued]

/-- An upper bound is read off its own tokens, whatever follows. -/
theorem readRangeEnd_local {stop : Nat} {ts : List Token} {high : Value} {n : Nat}
    (h : readRangeEnd stop ts = .ok (some (high, n))) :
    ∃ us vs, ts = us ++ vs ∧ us.length = n ∧
      ∀ rest, readRangeEnd stop (us ++ rest) = .ok (some (high, n)) := by
  cases rangeEnd_of_readRangeEnd h with
  | @glued t rest digits position kind hyphen read =>
      refine ⟨[t], rest, rfl, rfl, fun rest' => ?_⟩
      rw [readRangeEnd.eq_def] at h ⊢
      simpa [kind, hyphen] using h
  | @apart t u rest position minus kind read =>
      refine ⟨[t, u], rest, rfl, rfl, fun rest' => ?_⟩
      rw [readRangeEnd.eq_def] at h ⊢
      simpa [minus] using h

theorem readRangeEnd_of_unglued {stop : Nat} {ts : List Token} (h : Unglued ts) :
    readRangeEnd stop ts = .ok none := by
  cases ts with
  | nil => rfl
  | cons t ts =>
      obtain ⟨hnumber, hminus⟩ := h t rfl
      rw [readRangeEnd.eq_def]
      simp [hnumber, hminus]

/-- Only a number is read together with what follows it. -/
theorem readLiteral_of_kind {t : Token} (h : t.kind ≠ .number) (ts us : List Token) :
    readLiteral t ts = readLiteral t us := by
  unfold readLiteral
  split
  case h_1 hnumber => exact absurd hnumber h
  all_goals rfl

/-- **A literal is read off its own tokens**, if what follows does not go on with it. -/
theorem readLiteral_local {t : Token} {ts : List Token} {l : Literal} {n : Nat}
    (h : readLiteral t ts = .ok (l, n)) :
    ∃ us vs, ts = us ++ vs ∧ us.length = n ∧
      ∀ rest, Unglued rest → readLiteral t (us ++ rest) = .ok (l, n) := by
  by_cases hnumber : t.kind = .number
  · unfold readLiteral at h
    simp only [hnumber] at h
    split at h
    · cases h
    case h_2 low hlow =>
      split at h
      · cases h
      · -- no range: the number alone
        obtain ⟨rfl, rfl⟩ := Prod.mk.inj (Except.ok.inj h)
        refine ⟨[], ts, rfl, rfl, fun rest hrest => ?_⟩
        simp [readLiteral, hnumber, hlow, readRangeEnd_of_unglued hrest]
      case h_3 high m hhigh =>
        obtain ⟨rfl, rfl⟩ := Prod.mk.inj (Except.ok.inj h)
        obtain ⟨us, vs, rfl, hlength, hlocal⟩ := readRangeEnd_local hhigh
        refine ⟨us, vs, rfl, hlength, fun rest _ => ?_⟩
        simp [readLiteral, hnumber, hlow, hlocal]
  · obtain rfl : n = 0 := by
      cases takesLiteral_of_readLiteral h with
      | value => rfl
      | range kind => exact absurd kind hnumber
    exact ⟨[], ts, rfl, rfl, fun rest _ => (readLiteral_of_kind hnumber rest ts).trans h⟩

/-! ## Values -/

/-- The token with which a criterion is over. -/
def Token.EndsCriterion (t : Token) : Prop :=
  t.kind = .tilde ∨ t.kind = .closeParen ∨ t.isKeyword "and" = true ∨ t.isKeyword "or" = true

theorem Token.EndsCriterion.endsValues {t : Token} (h : t.EndsCriterion) : t.endsValues := by
  have hword : ∀ keyword : String, t.isKeyword keyword = true →
      (∀ literal ∈ ["true", "false", "null"],
        lowerAscii keyword.toList ≠ lowerAscii literal.toList) → t.endsValues := by
    intro keyword hkeyword hne
    have hkind := kind_of_isKeyword hkeyword
    have hnot := fun literal hliteral => isKeyword_of_ne hkeyword (hne literal hliteral)
    refine ⟨by simp [hkind], ?_⟩
    simp [startsLiteral, hkind, hnot]
  rcases h with h | h | h | h
  · exact ⟨by simp [h], by simp [startsLiteral, h]⟩
  · exact ⟨by simp [h], by simp [startsLiteral, h]⟩
  · exact hword "and" h (by decide)
  · exact hword "or" h (by decide)

theorem Token.EndsCriterion.unglued {t : Token} (h : t.EndsCriterion) :
    t.kind ≠ .number ∧ t.kind ≠ .minus := by
  rcases h with h | h | h | h
  · simp [h]
  · simp [h]
  · simp [kind_of_isKeyword h]
  · simp [kind_of_isKeyword h]

/-- The tokens end a criterion, or are none. -/
def EndCriterion (ts : List Token) : Prop := ∀ t ∈ ts.head?, t.EndsCriterion

theorem endCriterion_nil : EndCriterion [] := by simp [EndCriterion]

/-- Separated values begin with a comma where no literal may come. -/
theorem SpellsSlots.unglued {slots : List Slot} {vs rest : List Token} (h : SpellsSlots slots vs)
    (hslots : SeparatedSlots false slots) (hrest : EndCriterion rest) : Unglued (vs ++ rest) := by
  cases h with
  | nil => exact fun t ht => (hrest t ht).unglued
  | comma ht =>
      rintro t ⟨⟩
      simp [ht]
  | literal => cases hslots

/-- **The tokens of separated values are read as their literals.** -/
theorem SpellsSlots.readValues {slots : List Slot} {vs : List Token} (h : SpellsSlots slots vs)
    {expecting : Bool} (hslots : SeparatedSlots expecting slots) {rest : List Token}
    (hrest : EndCriterion rest) :
    QueryText.readValues expecting (vs ++ rest) = .ok (Slot.literals slots, rest) := by
  induction h generalizing expecting with
  | nil => exact readValues_of_ends (fun t ht => (hrest t ht).endsValues) expecting
  | comma ht _ ih =>
      cases hslots with
      | comma hslots =>
          rw [List.cons_append, QueryText.readValues]
          simp [ht, ih hslots, Slot.literals]
  | @literal t us l slots ts hstarts hread h ih =>
      cases hslots with
      | literal hslots =>
          -- the literal was read off all of its tokens, and now is with others behind them
          obtain ⟨us', vs', hsplit, hlength, hlocal⟩ := readLiteral_local hread
          obtain rfl : us' = us := by
            have hnil : vs' = [] := by
              rw [hsplit, List.length_append] at hlength
              exact List.length_eq_zero_iff.mp (by omega)
            rw [hsplit, hnil, List.append_nil]
          rw [List.cons_append, List.append_assoc]
          exact readValues_literal hstarts (hlocal _ (h.unglued hslots hrest)) (ih hslots)

/-- **All values that are read are separated.** -/
theorem exists_spellsSlots {expecting : Bool} {ts rest : List Token} {ls : List Literal}
    (h : readValues expecting ts = .ok (ls, rest)) :
    ∃ slots vs, ts = vs ++ rest ∧ SpellsSlots slots vs ∧ SeparatedSlots expecting slots ∧
      Slot.literals slots = ls := by
  fun_induction readValues expecting ts generalizing ls rest with
  | case1 =>
      obtain ⟨rfl, rfl⟩ := Prod.mk.inj (Except.ok.inj h)
      exact ⟨[], [], rfl, .nil, .nil, rfl⟩
  | case2 expecting t ts hcomma ih =>
      obtain ⟨slots, vs, rfl, hspells, hslots, rfl⟩ := ih h
      exact ⟨.comma :: slots, t :: vs, rfl, .comma hcomma hspells, .comma hslots, rfl⟩
  | case3 => cases h
  | case4 => cases h
  | case5 expecting t ts hcomma hstarts l n hread ls' rest' hrest ih =>
      obtain ⟨rfl, rfl⟩ := Prod.mk.inj (Except.ok.inj h)
      -- what is dropped after the first token belongs to the literal
      obtain ⟨us, after, rfl, rfl, hlocal⟩ := readLiteral_local hread
      rw [List.drop_left] at hrest ih
      obtain ⟨slots, vs, rfl, hspells, hslots, rfl⟩ := ih hrest
      rw [Bool.and_eq_true] at hstarts
      obtain ⟨rfl, hstarts⟩ := hstarts
      have hread' : readLiteral t us = .ok (l, us.length) := by
        have hnothing := hlocal [] unglued_nil
        rwa [List.append_nil] at hnothing
      refine ⟨.literal l :: slots, t :: (us ++ vs), by simp, .literal hstarts hread' hspells,
        .literal hslots, rfl⟩
  | case6 =>
      obtain ⟨rfl, rfl⟩ := Prod.mk.inj (Except.ok.inj h)
      exact ⟨[], [], rfl, .nil, .nil, rfl⟩

/-! ## Paths and criteria -/

/-- The segments of a path are read up to the colon after it. -/
theorem SpellsRest.readPathRest {segments : List String} {ts : List Token}
    (h : SpellsRest segments ts) {size : Nat} {colon : Token} {rest : List Token}
    (hcolon : colon.kind = .colon) :
    QueryText.readPathRest size (ts ++ colon :: rest) = .ok (segments, colon :: rest) := by
  induction h with
  | nil =>
      rw [List.nil_append, QueryText.readPathRest.eq_def]
      simp [hcolon]
  | cons hdot hw h ih =>
      rw [List.cons_append, List.cons_append, QueryText.readPathRest]
      simp [hdot, hw, ih]

theorem exists_spellsRest {size : Nat} {ts rest : List Token} {segments : List String}
    (h : readPathRest size ts = .ok (segments, rest)) :
    ∃ us, ts = us ++ rest ∧ SpellsRest segments us := by
  fun_induction readPathRest size ts generalizing segments rest with
  | case1 => cases h
  | case2 t hdot w ts hword segments' rest' hrest ih =>
      obtain ⟨rfl, rfl⟩ := Prod.mk.inj (Except.ok.inj h)
      obtain ⟨us, rfl, hus⟩ := ih hrest
      exact ⟨t :: w :: us, rfl, .cons hdot hword hus⟩
  | case3 => cases h
  | case4 => cases h
  | case5 =>
      obtain ⟨rfl, rfl⟩ := Prod.mk.inj (Except.ok.inj h)
      exact ⟨[], rfl, .nil⟩
  | case6 =>
      obtain ⟨rfl, rfl⟩ := Prod.mk.inj (Except.ok.inj h)
      exact ⟨[], rfl, .nil⟩

/-- **The tokens of a criterion with separated values are read as a term.** -/
theorem SpellsNames.readGroups {path : List String} {operator : String} {us : List Token}
    (hnames : SpellsNames path operator us) {slots : List Slot} {vs : List Token}
    (hslots : SpellsSlots slots vs) (hseparated : SeparatedSlots true slots) {rest : List Token}
    (hrest : EndCriterion rest) (size : Nat) (outer : List Group) {g : Group}
    (hg : g.separated = true) :
    ∃ position, QueryText.readGroups size outer g (us ++ (vs ++ rest))
      = QueryText.readGroups size outer
          (g.addTerm (some (.criterion ⟨path, operator, Slot.literals slots, position⟩))) rest := by
  obtain @⟨w, _, _, _, _, _, hw, hand, hor, hpath, hcolon, hoperator, hcolon'⟩ := hnames
  refine ⟨w.start, ?_⟩
  rw [List.cons_append]
  refine readGroups_criterion hw hand hor hg ?_
  rw [List.append_assoc, readCriterion, List.cons_append, hpath.readPathRest hcolon]
  simp [expect, hcolon, hoperator, hcolon', hslots.readValues hseparated hrest]

theorem exists_spells_of_readCriterion {size : Nat} {w : Token} {ts rest : List Token}
    {c : RawCriterion} (h : readCriterion size w ts = .ok (c, rest)) (hw : w.kind = .word)
    (hand : w.isKeyword "and" = false) (hor : w.isKeyword "or" = false) :
    ∃ path operator us slots vs, w :: ts = us ++ (vs ++ rest) ∧ SpellsNames path operator us ∧
      SpellsSlots slots vs ∧ SeparatedSlots true slots := by
  obtain ⟨taken⟩ := takesCriterion_of_readCriterion h
  obtain ⟨us, hts, hpath⟩ := exists_spellsRest taken.path
  obtain ⟨slots, vs, hmore, hslots, hseparated, -⟩ := exists_spellsSlots taken.values
  refine ⟨_, _, _, slots, vs, ?_, .intro hw hand hor hpath taken.kinds, hslots, hseparated⟩
  simp [hts, hmore]

/-! ## What is read has a layout -/

/-- The tokens that are left of a group and of the groups around it, so many. -/
inductive SpellsOpen : Bool → Nat → List Token → Prop
  | last {separated : Bool} {items : List Item} {ts : List Token} (h : Spells items ts)
    (hitems : Separated separated items) : SpellsOpen separated 0 ts
  | close {separated : Bool} {items : List Item} {us : List Token} {right : Token} {depth : Nat}
    {ts : List Token} (h : Spells items us) (hitems : Separated separated items)
    (hright : right.kind = .closeParen) (hrest : SpellsOpen false depth ts) :
    SpellsOpen separated (depth + 1) (us ++ right :: ts)

/-- One more item in front of what is left of a group. -/
theorem SpellsOpen.cons (i : Item) (us : List Token) {before after : Bool}
    (hspells : ∀ {items ts}, Spells items ts → Spells (i :: items) (us ++ ts))
    (hitems : ∀ {items}, Separated after items → Separated before (i :: items)) {depth : Nat}
    {ts : List Token} (h : SpellsOpen after depth ts) : SpellsOpen before depth (us ++ ts) := by
  cases h with
  | last h hseparated => exact .last (hspells h) (hitems hseparated)
  | close h hseparated hright hrest =>
      rw [← List.append_assoc]
      exact .close (hspells h) (hitems hseparated) hright hrest

/-- What is left after a parenthesis that opens a group begins with the rest of that group. -/
theorem SpellsOpen.open {left : Token} (hleft : left.kind = .openParen) {depth : Nat}
    {ts : List Token} (h : SpellsOpen true (depth + 1) ts) : SpellsOpen true depth (left :: ts) := by
  cases h with
  | @close _ inner us right _ ts hinner hseparated hright hrest =>
      -- the group is one more item of the group around it
      have hcons : SpellsOpen true depth (left :: (us ++ [right]) ++ ts) := by
        refine hrest.cons (.group inner) _ (fun h => ?_) (.group hseparated)
        simpa using Spells.group hleft hinner hright h
      simpa using hcons

/-- **Whatever is read into a group has a separated layout.** By induction on the steps of the reader;
the groups that are open are those whose rest is still to come. -/
theorem spellsOpen_of_readGroups {size : Nat} {outer : List Group} {group : Group} {ts : List Token}
    {e : Option FilterExpr} (h : readGroups size outer group ts = .ok e) :
    SpellsOpen group.separated outer.length ts := by
  fun_induction readGroups size outer group ts generalizing e with
  | case1 => exact .last .nil .nil
  | case2 => cases h
  | case3 outer group t rest hand ih =>
      rw [Bool.or_eq_true, decide_eq_true_eq] at hand
      exact (ih h).cons .separator [t] (.separator hand) .separator
  | case4 outer group t rest hand hor ih => exact (ih h).cons .or [t] (.or hor) .or
  | case5 outer group t rest hand hor hopen hseparated ih =>
      rw [hseparated]
      exact (ih h).open hopen
  | case6 => cases h
  | case7 => simp_all
  -- a criterion and its values, up to where no literal comes
  | case8 outer group t rest hand hor hopen hword hseparated c rest' hread hlength ih =>
      rw [Bool.or_eq_true, not_or, Bool.not_eq_true, Bool.not_eq_true] at hand
      rw [Bool.not_eq_true] at hor
      obtain ⟨path, operator, us, slots, vs, hts, hnames, hslots, hitems⟩ :=
        exists_spells_of_readCriterion hread hword hand.2 hor
      rw [hseparated, hts, ← List.append_assoc]
      refine (ih h).cons (.criterion path operator slots) _ (fun h => ?_) (.criterion hitems)
      rw [List.append_assoc]
      exact .criterion hnames hslots h
  | case9 => cases h
  | case10 => cases h
  -- nothing is left of the group, and the one around it has a term more
  | case11 group t rest hand hor hopen hword head tail hclose ih =>
      exact .close .nil .nil hclose (ih h)
  | case12 => cases h

/-- **The tokens that are read as a filter have a separated layout.** -/
theorem exists_spells_of_readGroups {size : Nat} {ts : List Token} {e : Option FilterExpr}
    (h : readGroups size [] .empty ts = .ok e) :
    ∃ items, Spells items ts ∧ Separated true items := by
  cases spellsOpen_of_readGroups h with
  | last h hitems => exact ⟨_, h, hitems⟩

end EntityStore.QueryText
