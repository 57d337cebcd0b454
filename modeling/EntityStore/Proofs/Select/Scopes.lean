import EntityStore.Proofs.Filter.Criteria
import EntityStore.Proofs.Select.Truth

/-!
# What the columns of a condition are read from

A condition is made of atoms, which read columns, and of composites, which do not. A sub-select
gives a label to the rows it goes through, and its columns may be read inside it and nowhere else.
In the condition of a filter every column is read under the label of the queried table or of a
sub-select around it. The labels of the sub-selects are numbered from left to right, as they are
handed out, so no two are the same.

Null is never compared with for equality and never listed: such an atom would be unknown for every
row, and the negation of one that lists null with it.
-/

namespace EntityStore

namespace Condition

/-! ## The parts of a condition -/

/-- Conditions without conditions in them. -/
def isAtom : Condition → Bool
  | .and _ | .or _ | .not _ | .exists .. => false
  | _ => true

/-- Induction on a condition, with what is known of the children of a composite. -/
@[elab_as_elim]
theorem ind {P : Condition → Prop} (atom : ∀ c, c.isAtom = true → P c)
    (and : ∀ children, (∀ c ∈ children, P c) → P (.and children))
    (or : ∀ children, (∀ c ∈ children, P c) → P (.or children))
    (not : ∀ child, P child → P (.not child))
    (exist : ∀ table label child, P child → P (.exists table label child)) (c : Condition) : P c :=
  @Condition.rec P (fun children => ∀ c ∈ children, P c) (fun _ => atom _ rfl)
    (fun _ _ _ => atom _ rfl) (fun _ _ => atom _ rfl) (fun _ _ => atom _ rfl)
    (fun _ _ _ => atom _ rfl) (fun _ _ _ => atom _ rfl) (fun _ _ _ => atom _ rfl) and or not exist
    (fun _ hc => by cases hc)
    (fun _ _ hhead htail c hc => (List.mem_cons.mp hc).elim (fun heq => heq ▸ hhead) (htail c)) c

mutual

/-- The atoms of a condition, each with the labels that stand for a row where it is: those of the
sub-selects around it and those of `scope`. -/
def atoms (scope : List String) : Condition → List (List String × Condition)
  | .and children => atomsOfList scope children
  | .or children => atomsOfList scope children
  | .not child => atoms scope child
  | .exists _ label child => atoms (label :: scope) child
  | atom => [(scope, atom)]

@[inherit_doc atoms]
def atomsOfList (scope : List String) : List Condition → List (List String × Condition)
  | [] => []
  | c :: rest => atoms scope c ++ atomsOfList scope rest

end

mutual

/-- The labels of the sub-selects of a condition, from left to right, an outer one first. -/
def labels : Condition → List String
  | .and children => labelsOfList children
  | .or children => labelsOfList children
  | .not child => labels child
  | .exists _ label child => label :: labels child
  | _ => []

@[inherit_doc labels]
def labelsOfList : List Condition → List String
  | [] => []
  | c :: rest => labels c ++ labelsOfList rest

end

/-- The columns an atom reads. -/
def columns : Condition → List Column
  | .compare column _ _ | .isNull column _ | .like column _ _ | .oneOf column _ _
  | .between column _ _ => [column]
  | .columnsEqual left right => [left, right]
  | _ => []

/-- An atom does not compare with null for equality, and what it lists is something and not null. -/
def SparesNull : Condition → Prop
  | .compare _ .eq v | .compare _ .ne v => v ≠ .null
  | .oneOf _ values _ => values ≠ [] ∧ Value.null ∉ values
  | _ => True

/-- What is asked of an atom where some labels stand for a row. -/
structure SoundIn (scope : List String) (atom : Condition) : Prop where
  placed : ∀ column ∈ atom.columns, column.label ∈ scope
  sparesNull : atom.SparesNull

/-- All atoms of a condition are sound where they are. -/
def Sound (scope : List String) (c : Condition) : Prop := ∀ a ∈ c.atoms scope, a.2.SoundIn a.1

variable {scope : List String} {c : Condition} {cs : List Condition}

theorem sound_of_isAtom (hc : c.isAtom = true) (h : c.SoundIn scope) : c.Sound scope := by
  have hatoms : c.atoms scope = [(scope, c)] := by
    cases c <;> first | rfl | cases hc
  rw [Sound, hatoms]
  exact List.forall_mem_singleton.mpr h

theorem labels_of_isAtom (hc : c.isAtom = true) : c.labels = [] := by
  cases c <;> first | rfl | cases hc

theorem atomsOfList_sound (h : ∀ c ∈ cs, c.Sound scope) :
    ∀ a ∈ atomsOfList scope cs, a.2.SoundIn a.1 := by
  induction cs with
  | nil => exact fun a ha => absurd ha List.not_mem_nil
  | cons c rest ih =>
    obtain ⟨hc, hrest⟩ := List.forall_mem_cons.mp h
    exact List.forall_mem_append.mpr ⟨hc, ih hrest⟩

theorem sound_and (h : ∀ c ∈ cs, c.Sound scope) : (Condition.and cs).Sound scope :=
  atomsOfList_sound h

theorem sound_or (h : ∀ c ∈ cs, c.Sound scope) : (Condition.or cs).Sound scope :=
  atomsOfList_sound h

/-! ## Conditions of criteria -/

theorem soundIn_oneOf {column : Column} (h : column.label ∈ scope) {vs : List Value}
    (hne : vs.filter (fun v => !v.isNull) ≠ []) (negated : Bool) :
    (oneOf column (vs.filter fun v => !v.isNull) negated).SoundIn scope := by
  refine ⟨List.forall_mem_singleton.mpr h, hne, fun hnull => ?_⟩
  exact absurd (List.mem_filter.mp hnull).2 (by decide)

/-- Whatever the operator and the operand, the condition reads the column and is sound. -/
theorem soundIn_leaf {column : Column} (h : column.label ∈ scope) (operator : FilterOperator)
    (operand : Operand) :
    (leaf column operator operand).isAtom = true ∧
      (leaf column operator operand).SoundIn scope := by
  have hcolumn : ∀ d ∈ [column], d.label ∈ scope := List.forall_mem_singleton.mpr h
  have hnone : ∀ d ∈ ([] : List Column), d.label ∈ scope := fun d hd => absurd hd List.not_mem_nil
  unfold leaf
  split
  -- equality comes after the cases of null, lists go by what is left without null
  case h_3 v hv | h_4 v hv => exact ⟨rfl, hcolumn, hv⟩
  case h_14 vs =>
    dsimp only
    split
    · exact ⟨rfl, hnone, trivial⟩
    case h_2 hne => exact ⟨rfl, soundIn_oneOf h hne false⟩
  case h_15 vs =>
    dsimp only
    split
    · exact ⟨rfl, hcolumn, trivial⟩
    case h_2 hne => exact ⟨rfl, soundIn_oneOf h hne true⟩
  case h_16 => exact ⟨rfl, hnone, trivial⟩
  all_goals exact ⟨rfl, hcolumn, trivial⟩

/-- What has been made of a part of a filter after `used` labels: it is sound under `scope`, and
the labels in it are the next ones. -/
structure Made (scope : List String) (used : Nat) (c : Condition) (used' : Nat) : Prop where
  sound : c.Sound scope
  labels : ∃ n, used' = used + n ∧ c.labels = (List.range' (used + 1) n).map subLabel

theorem made_leaf {column : Column} (h : column.label ∈ scope) (operator : FilterOperator)
    (operand : Operand) (used : Nat) : Made scope used (leaf column operator operand) used := by
  obtain ⟨hatom, hsound⟩ := soundIn_leaf h operator operand
  exact ⟨sound_of_isAtom hatom hsound, 0, rfl, labels_of_isAtom hatom⟩

/-- The related rows of a step get the next label, and what is asked of them may read it. -/
theorem made_exists {used used' : Nat} {inner : Condition} {table : String} {left right : Column}
    (hleft : left.label ∈ subLabel (used + 1) :: scope)
    (hright : right.label ∈ subLabel (used + 1) :: scope)
    (h : Made (subLabel (used + 1) :: scope) (used + 1) inner used') :
    Made scope used (.exists table (subLabel (used + 1)) (.and [.columnsEqual left right, inner]))
      used' := by
  have htie : (columnsEqual left right).SoundIn (subLabel (used + 1) :: scope) :=
    ⟨List.forall_mem_cons.mpr ⟨hleft, List.forall_mem_singleton.mpr hright⟩, trivial⟩
  obtain ⟨n, hn, hlabels⟩ := h.labels
  refine ⟨?_, n + 1, by omega, ?_⟩
  · exact sound_and (List.forall_mem_cons.mpr
      ⟨sound_of_isAtom rfl htie, List.forall_mem_singleton.mpr h.sound⟩)
  · rw [Condition.labels, Condition.labels, labelsOfList, labelsOfList, labelsOfList,
      labels_of_isAtom rfl, List.nil_append, List.append_nil, hlabels, List.range'_succ,
      List.map_cons]

/-- A path is made under any scope that has the label of its owner. By induction on the path. -/
theorem made_ofSteps {schema : Schema} {criterion : Criterion} {steps : List Step} {owner : String}
    {used used' : Nat} {c : Condition} (howner : owner ∈ scope)
    (h : ofSteps schema criterion owner used steps = .ok (c, used')) : Made scope used c used' := by
  induction steps generalizing scope owner used used' c with
  | nil => cases h
  | cons step rest ih =>
    have hself : subLabel (used + 1) ∈ subLabel (used + 1) :: scope := List.mem_cons_self
    have hout : owner ∈ subLabel (used + 1) :: scope := List.mem_cons_of_mem _ howner
    rw [ofSteps] at h
    split at h
    case h_1 =>
      cases h
      exact made_leaf howner _ _ _
    case h_2 =>
      split at h
      · cases h
        exact made_leaf howner _ _ _
      · split at h
        · cases h
        · dsimp only at h
          split at h
          · cases h
          case h_2 hinner =>
            cases h
            exact made_exists hself hout (ih hself hinner)
    case h_3 =>
      split at h
      · cases h
      · dsimp only at h
        split at h
        · cases h
          exact made_exists hself hout (made_leaf hself _ _ _)
        · split at h
          · cases h
          case h_2 hinner =>
            cases h
            exact made_exists hself hout (ih hself hinner)

/-! ## Conditions of filters -/

/-- What has been made of the parts of a filter one after the other. -/
theorem made_ofFilters {schema : Schema} {root : String} {specs : List FilterSpec}
    (hspecs : ∀ spec ∈ specs, ∀ used c used', ofFilter schema root used spec = .ok (c, used') →
      Made [rootLabel] used c used') {used used' : Nat} {cs : List Condition}
    (h : ofFilters schema root used specs = .ok (cs, used')) :
    (∀ c ∈ cs, c.Sound [rootLabel]) ∧
      ∃ n, used' = used + n ∧ labelsOfList cs = (List.range' (used + 1) n).map subLabel := by
  induction specs generalizing used used' cs with
  | nil =>
    cases h
    exact ⟨fun c hc => absurd hc List.not_mem_nil, 0, rfl, rfl⟩
  | cons spec rest ih =>
    rw [ofFilters] at h
    split at h
    · cases h
    case h_2 c mid hfirst =>
      split at h
      · cases h
      case h_2 cs last hrest =>
        cases h
        have hmade := hspecs spec List.mem_cons_self _ _ _ hfirst
        obtain ⟨m, hm, hlabels⟩ := hmade.labels
        obtain ⟨hsound, n, hn, hothers⟩ :=
          ih (fun s hs => hspecs s (List.mem_cons_of_mem _ hs)) hrest
        refine ⟨List.forall_mem_cons.mpr ⟨hmade.sound, hsound⟩, m + n, by omega, ?_⟩
        rw [labelsOfList, hlabels, hothers, hm, ← List.map_append, Nat.add_right_comm,
          List.range'_append_1]

/-- **A filter's condition reads rows where they stand, and its labels are the first ones.** -/
theorem made_ofFilter {schema : Schema} {root : String} (spec : FilterSpec) :
    ∀ used c used', ofFilter schema root used spec = .ok (c, used') →
      Made [rootLabel] used c used' := by
  induction spec using FilterSpec.ind with
  | criterion criterion =>
    intro used c used' h
    rw [ofFilter] at h
    split at h
    · cases h
    · exact made_ofSteps (List.mem_singleton_self _) h
  | conjunction children ih =>
    intro used c used' h
    rw [ofFilter] at h
    split at h
    · cases h
    case h_2 hchildren =>
      cases h
      obtain ⟨hsound, hlabels⟩ := made_ofFilters ih hchildren
      exact ⟨sound_and hsound, hlabels⟩
  | disjunction children ih =>
    intro used c used' h
    rw [ofFilter] at h
    split at h
    · cases h
    case h_2 hchildren =>
      cases h
      obtain ⟨hsound, hlabels⟩ := made_ofFilters ih hchildren
      exact ⟨sound_or hsound, hlabels⟩
  | negation child ih =>
    intro used c used' h
    rw [ofFilter] at h
    split at h
    · cases h
    case h_2 hchild =>
      cases h
      obtain ⟨hsound, hlabels⟩ := ih _ _ _ hchild
      exact ⟨hsound, hlabels⟩

end Condition

end EntityStore
