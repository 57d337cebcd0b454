import EntityStore.Filter.Json
import EntityStore.Proofs.Filter.Criteria
import EntityStore.Proofs.QueryText.Parsed

/-!
# Where criteria come from

A criterion is well-formed when its path is not empty and its operand has the shape its operator
takes. The checked constructor refuses every other criterion, and the query language makes its
criteria with it. The builders of single criteria fill in what they are given: their operands
always fit, and the path is as good as the one they get. A document is read part by part, and
nothing brings the parts of a criterion together.
-/

namespace EntityStore

/-! ## The checked constructor -/

/-- **The checked constructor makes the criterion it is asked for, if that is well-formed.** -/
theorem Criterion.build_eq_ok_iff {path : String} {operator : FilterOperator} {operand : Operand}
    {c : Criterion} :
    Criterion.build path operator operand = .ok c ↔ c = ⟨path, operator, operand⟩ ∧ c.WellFormed := by
  unfold Criterion.build
  by_cases hpath : path = ""
  · rw [if_pos hpath]
    constructor
    · intro h
      cases h
    · rintro ⟨rfl, hne, -⟩
      exact absurd hpath hne
  · rw [if_neg hpath]
    by_cases harity : operand.arity = operator.arity
    · rw [if_neg (not_not.mpr harity)]
      refine ⟨fun h => ?_, fun h => by rw [h.1]⟩
      obtain rfl := Except.ok.inj h
      exact ⟨rfl, hpath, harity⟩
    · rw [if_pos harity]
      constructor
      · intro h
        cases h
      · rintro ⟨rfl, -, hfits⟩
        exact absurd hfits harity

/-! ## Query text -/

/-- What holds of the leaves of a flat filter holds of its criteria. -/
theorem QueryText.Flat.of_mem_criteria {leaf : Criterion → Bool → Prop} {s : FilterSpec}
    (h : QueryText.Flat leaf s) : ∀ c ∈ s.criteria, ∃ negated, leaf c negated := by
  induction h with
  | criterion h => exact fun c hc => List.mem_singleton.mp hc ▸ ⟨false, h⟩
  | negation h => exact fun c hc => List.mem_singleton.mp hc ▸ ⟨true, h⟩
  | conjunction _ _ _ ih =>
      intro c hc
      obtain ⟨t, ht, hct⟩ := FilterSpec.mem_criteriaOfList.mp hc
      exact ih t ht c hct
  | disjunction _ _ _ ih =>
      intro c hc
      obtain ⟨t, ht, hct⟩ := FilterSpec.mem_criteriaOfList.mp hc
      exact ih t ht c hct

/-- **Whatever text a filter is parsed from, its criteria are well-formed.** -/
theorem QueryText.wellFormed_of_parseFilter {input : String} {s : FilterSpec}
    (h : QueryText.parseFilter input = .ok s) : ∀ c ∈ s.criteria, c.WellFormed := by
  intro c hc
  obtain ⟨_, hleaf⟩ := (QueryText.flat_textValue_of_parseFilter h).of_mem_criteria c hc
  exact ⟨hleaf.path.isAttributePath.ne_empty, hleaf.arity⟩

/-! ## Documents -/

namespace Json.Written

mutual

/-- The documents of a filter's criteria, from left to right. -/
def leaves : Written → List Written
  | .object [(name, content)] =>
    match decodeText? name with
    | some "nullary" => [content]
    | some "negation" => leaves content
    | some "conjunction" => leavesOfChildren content
    | some "disjunction" => leavesOfChildren content
    | _ => []
  | _ => []

@[inherit_doc leaves]
def leavesOfChildren : Written → List Written
  | .array items => leavesOfList items
  | _ => []

@[inherit_doc leaves]
def leavesOfList : List Written → List Written
  | [] => []
  | w :: rest => leaves w ++ leavesOfList rest

end

/-- The name a choice is given by. -/
def choiceText? : Written → Option String
  | .text s => decodeText? s
  | .object [(name, _)] => decodeText? name
  | _ => none

/-- The shape an operand is tagged with. -/
def shapeText? : Written → Option String
  | .array [tag, _] => tag.choiceText?
  | .object members => do
    let members ← decodeNames? members
    let tag ← (← onlyMember? "shape" members)
    tag.choiceText?
  | _ => none

end Json.Written

/-- The name of a shape in a document. -/
def Arity.shape : Arity → String
  | .single => "single"
  | .pair => "range"
  | .list => "list"

theorem Arity.shape_injective : Function.Injective Arity.shape := by
  intro a b h
  cases a <;> cases b <;> first | rfl | (revert h; decide)

open Json (Written)

/-- The document of a criterion names a path, and tags the operand with the shape the operator
takes. -/
def Json.Written.FitsCriterion (w : Written) : Prop :=
  ∃ path operator operand,
    w.fields? ["path", "operator", "operand"] = some [some path, some operator, some operand] ∧
    path.string? ≠ some "" ∧
    ∃ op, operator.choiceText?.bind FilterOperator.ofName? = some op ∧
      operand.shapeText? = some op.arity.shape

namespace Json.Written

theorem string?_of_name? {names : List String} {w : Written} {name : String}
    (h : w.name? names = some name) : w.string? = some name := by
  obtain ⟨s, hs, hfind⟩ := Option.bind_eq_some_iff.mp h
  have heq : name = s := beq_iff_eq.mp (List.find?_some (p := (· == s)) hfind)
  rw [hs, heq]

theorem choiceText?_of_string? {w : Written} {s : String} (h : w.string? = some s) :
    w.choiceText? = some s := by
  cases w with
  | text pieces => exact h
  | _ => cases h

theorem choiceText?_of_choice? {buffered : Bool} {depth : Nat} {names : List String} {w : Written}
    {name : String} (h : w.choice? buffered depth names = some name) : w.choiceText? = some name := by
  unfold choice? at h
  split at h
  · exact choiceText?_of_string? (string?_of_name? h)
  · split at h
    · exact string?_of_name? h
    · cases h
  · cases h

/-- The tag of a tagged value that is read on its own is the name that stands there. -/
theorem shapeText?_of_tagged? {depth : Nat} {content : String} {names : List String} {w : Written}
    {t : Tagged} (h : w.tagged? false depth "shape" content names = some t) :
    w.shapeText? = some t.tag := by
  unfold tagged? at h
  split at h
  · obtain ⟨tag, htag, rfl⟩ := Option.map_eq_some_iff.mp h
    unfold itemName? at htag
    split at htag
    · cases htag
    · exact choiceText?_of_string? (string?_of_name? htag)
  · obtain ⟨members, hmembers, h⟩ := Option.bind_eq_some_iff.mp h
    obtain ⟨only, honly, h⟩ := Option.bind_eq_some_iff.mp h
    obtain ⟨tag, htag, h⟩ := Option.bind_eq_some_iff.mp h
    obtain ⟨_, _, h⟩ := Option.bind_eq_some_iff.mp h
    obtain ⟨name, hname, h⟩ := Option.bind_eq_some_iff.mp h
    have hshape : t.tag = name := by
      dsimp only at h
      split at h
      · cases h
      · rw [← Option.some.inj h]
    rw [shapeText?, hmembers, Option.bind_eq_bind, Option.bind_some, honly, Option.bind_eq_bind,
      Option.bind_some, htag, Option.bind_eq_bind, Option.bind_some, hshape]
    exact choiceText?_of_choice? hname
  · cases h

end Json.Written

/-- An operand has the shape its document is tagged with. -/
theorem Operand.shapeText?_of_ofWritten? {depth : Nat} {w : Written} {operand : Operand}
    (h : Operand.ofWritten? depth w = some operand) : w.shapeText? = some operand.arity.shape := by
  unfold Operand.ofWritten? at h
  split at h
  · cases h
  · obtain ⟨t, ht, h⟩ := Option.bind_eq_some_iff.mp h
    obtain ⟨content, _, h⟩ := Option.bind_eq_some_iff.mp h
    rw [Json.Written.shapeText?_of_tagged? ht]
    unfold Operand.ofContent? at h
    split at h
    case h_1 =>
      obtain ⟨v, -, rfl⟩ := Option.map_eq_some_iff.mp h
      simp_all [Operand.arity, Arity.shape]
    case h_2 =>
      split at h
      · cases h
      · obtain ⟨low, -, h⟩ := Option.bind_eq_some_iff.mp h
        obtain ⟨high, -, h⟩ := Option.bind_eq_some_iff.mp h
        obtain rfl := Option.some.inj h
        simp_all [Operand.arity, Arity.shape]
    case h_3 =>
      split at h
      · cases h
      · obtain ⟨vs, -, rfl⟩ := Option.map_eq_some_iff.mp h
        simp_all [Operand.arity, Arity.shape]
    case h_4 => cases h

/-- **A criterion that is read is well-formed exactly when its document fits together.** -/
theorem Criterion.wellFormed_iff_of_ofWritten? {depth : Nat} {w : Written} {c : Criterion}
    (h : Criterion.ofWritten? depth w = some c) : c.WellFormed ↔ w.FitsCriterion := by
  unfold Criterion.ofWritten? at h
  split at h
  · cases h
  · obtain ⟨parts, hparts, h⟩ := Option.bind_eq_some_iff.mp h
    split at h
    case h_2 => cases h
    case h_1 path operator operand =>
      obtain ⟨pathText, hpath, h⟩ := Option.bind_eq_some_iff.mp h
      obtain ⟨op, hop, h⟩ := Option.bind_eq_some_iff.mp h
      obtain ⟨shape, hshape, h⟩ := Option.bind_eq_some_iff.mp h
      obtain rfl := Option.some.inj h
      have hopText : operator.choiceText?.bind FilterOperator.ofName? = some op := by
        obtain ⟨name, hname, hof⟩ := Option.bind_eq_some_iff.mp hop
        rw [Json.Written.choiceText?_of_choice? hname, Option.bind_some, hof]
      have hshapeText := Operand.shapeText?_of_ofWritten? hshape
      constructor
      · rintro ⟨hne, harity⟩
        refine ⟨path, operator, operand, hparts, ?_, op, hopText, ?_⟩
        · rw [hpath]
          exact fun heq => hne (Option.some.inj heq)
        · rw [hshapeText]
          exact congrArg (fun a => some a.shape) harity
      · rintro ⟨path', operator', operand', hparts', hne, op', hop', harity⟩
        obtain ⟨rfl, rfl, rfl⟩ : path = path' ∧ operator = operator' ∧ operand = operand' := by
          simpa using hparts.symm.trans hparts'
        rw [hopText] at hop'
        obtain rfl := Option.some.inj hop'
        refine ⟨fun heq => hne (heq ▸ hpath), Arity.shape_injective ?_⟩
        exact Option.some.inj (hshapeText.symm.trans harity)

/-- A document and the criterion that is read from it. -/
def Criterion.ReadFrom (w : Written) (c : Criterion) : Prop :=
  ∃ depth, Criterion.ofWritten? depth w = some c

open Criterion (ReadFrom)

mutual

/-- **A filter is read leaf by leaf**: its criteria are those of the leaves of its document. -/
theorem FilterSpec.readFrom_leaves {depth : Nat} {w : Written} {s : FilterSpec}
    (h : FilterSpec.ofWritten? depth w = some s) : List.Forall₂ ReadFrom w.leaves s.criteria := by
  match w, depth with
  | .object [(name, content)], depth + 1 =>
    rw [FilterSpec.ofWritten?] at h
    split at h
    case h_1 hname =>
      obtain ⟨c, hc, rfl⟩ := Option.map_eq_some_iff.mp h
      rw [Written.leaves, hname]
      exact .cons ⟨depth, hc⟩ .nil
    case h_2 hname =>
      obtain ⟨child, hchild, rfl⟩ := Option.map_eq_some_iff.mp h
      rw [Written.leaves, hname, FilterSpec.criteria]
      exact FilterSpec.readFrom_leaves hchild
    case h_3 hname =>
      obtain ⟨children, hchildren, rfl⟩ := Option.map_eq_some_iff.mp h
      rw [Written.leaves, hname]
      exact FilterSpec.readFrom_leavesOfChildren hchildren
    case h_4 hname =>
      obtain ⟨children, hchildren, rfl⟩ := Option.map_eq_some_iff.mp h
      rw [Written.leaves, hname]
      exact FilterSpec.readFrom_leavesOfChildren hchildren
    case h_5 => cases h

@[inherit_doc FilterSpec.readFrom_leaves]
theorem FilterSpec.readFrom_leavesOfChildren {depth : Nat} {w : Written} {children : List FilterSpec}
    (h : FilterSpec.childrenOfWritten? depth w = some children) :
    List.Forall₂ ReadFrom w.leavesOfChildren (FilterSpec.criteriaOfList children) := by
  match w, depth with
  | .array items, depth + 1 => exact FilterSpec.readFrom_leavesOfList h

@[inherit_doc FilterSpec.readFrom_leaves]
theorem FilterSpec.readFrom_leavesOfList {depth : Nat} {items : List Written} {specs : List FilterSpec}
    (h : FilterSpec.listOfWritten? depth items = some specs) :
    List.Forall₂ ReadFrom (Json.Written.leavesOfList items) (FilterSpec.criteriaOfList specs) := by
  match items with
  | [] =>
    obtain rfl := Option.some.inj h
    exact .nil
  | w :: rest =>
    obtain ⟨spec, hspec, h⟩ := Option.bind_eq_some_iff.mp h
    obtain ⟨specs', hspecs, h⟩ := Option.bind_eq_some_iff.mp h
    obtain rfl := Option.some.inj h
    exact List.rel_append (FilterSpec.readFrom_leaves hspec) (FilterSpec.readFrom_leavesOfList hspecs)

end

/-- **The criteria of a filter that is read are well-formed exactly when the documents of its leaves
fit together.** -/
theorem FilterSpec.criteria_wellFormed_iff_leaves {depth : Nat} {w : Written} {s : FilterSpec}
    (h : FilterSpec.ofWritten? depth w = some s) :
    (∀ c ∈ s.criteria, c.WellFormed) ↔ ∀ leaf ∈ w.leaves, leaf.FitsCriterion := by
  have hread := FilterSpec.readFrom_leaves h
  generalize w.leaves = leaves at hread
  generalize s.criteria = criteria at hread
  induction hread with
  | nil => simp
  | cons hc _ ih =>
      obtain ⟨_, hc⟩ := hc
      rw [List.forall_mem_cons, List.forall_mem_cons]
      exact and_congr (Criterion.wellFormed_iff_of_ofWritten? hc) ih

/-! ## All the ways a criterion is made -/

/-- A way of making criteria, with what is given for them. -/
inductive CriterionSource
  | checked (path : String) (operator : FilterOperator) (operand : Operand)
  /-- A builder of one literal, of which every operator that takes one has its own. -/
  | single (operator : FilterOperator) (takes : operator.arity = .single) (path : String) (value : Value)
  /-- A builder of a list of literals. -/
  | membership (operator : FilterOperator) (takes : operator.arity = .list) (path : String)
      (values : List Value)
  | inRange (path : String) (low high : Value)
  | queryText (input : String)
  | document (text : String)

namespace CriterionSource

/-- The filter that is made, unless what is given is refused. -/
def filter? : CriterionSource → Option FilterSpec
  | .checked path operator operand => ((Criterion.build path operator operand).map .criterion).toOption
  | .single operator _ path value => some (.single operator path value)
  | .membership operator _ path values => some (.membership operator path values)
  | .inRange path low high => some (.inRange path low high)
  | .queryText input => (QueryText.parseFilter input).toOption
  | .document text => Json.decode? FilterSpec.ofWritten? text

/-- What is asked of the user: builders are given a path that is not empty, and documents of
criteria fit together. -/
def Careful : CriterionSource → Prop
  | .checked _ _ _ => True
  | .single _ _ path _ => path ≠ ""
  | .membership _ _ path _ => path ≠ ""
  | .inRange path _ _ => path ≠ ""
  | .queryText _ => True
  | .document text =>
    ∀ w, Written.ofText? text.toList = some w → ∀ leaf ∈ w.leaves, leaf.FitsCriterion

theorem forall_mem_criterion {p : Criterion → Prop} (c : Criterion) :
    (∀ c' ∈ (FilterSpec.criterion c).criteria, p c') ↔ p c := by
  rw [FilterSpec.criteria, List.forall_mem_singleton]

/-- **The criteria that are made are well-formed exactly when the source is careful.** So those of
the checked constructor and of query texts always are, and an operand that a builder fills in
always fits. -/
theorem criteria_wellFormed_iff {source : CriterionSource} {s : FilterSpec}
    (h : source.filter? = some s) : (∀ c ∈ s.criteria, c.WellFormed) ↔ source.Careful := by
  cases source with
  | checked path operator operand =>
      refine iff_of_true ?_ trivial
      rw [filter?] at h
      cases hbuild : Criterion.build path operator operand with
      | error e =>
          rw [hbuild] at h
          cases h
      | ok c =>
          rw [hbuild] at h
          obtain rfl := Option.some.inj h
          exact (forall_mem_criterion c).mpr (Criterion.build_eq_ok_iff.mp hbuild).2
  | single operator takes path value =>
      obtain rfl := Option.some.inj h
      exact (forall_mem_criterion _).trans (and_iff_left takes.symm)
  | membership operator takes path values =>
      obtain rfl := Option.some.inj h
      exact (forall_mem_criterion _).trans (and_iff_left takes.symm)
  | inRange path low high =>
      obtain rfl := Option.some.inj h
      exact (forall_mem_criterion _).trans (and_iff_left rfl)
  | queryText input =>
      refine iff_of_true ?_ trivial
      rw [filter?] at h
      cases hparse : QueryText.parseFilter input with
      | error e =>
          rw [hparse] at h
          cases h
      | ok parsed =>
          rw [hparse] at h
          obtain rfl := Option.some.inj h
          exact QueryText.wellFormed_of_parseFilter hparse
  | document text =>
      obtain ⟨w, hw, hread⟩ := Option.bind_eq_some_iff.mp h
      rw [FilterSpec.criteria_wellFormed_iff_leaves hread, Careful]
      refine ⟨fun hleaves w' hw' => ?_, fun hleaves => hleaves w hw⟩
      obtain rfl := Option.some.inj (hw.symm.trans hw')
      exact hleaves

/-- A document whose criterion fits together. -/
def fittingText : String :=
  "\x7b\"nullary\":\x7b\"path\":\"age\",\"operator\":\"contained\",\"operand\":\x7b\"shape\":\"list\",\"values\":[]\x7d\x7d\x7d"

/-- The criterion is read as it stands and fits its operator, so the document is a careful one. -/
theorem criteria_wellFormed_iff_fitting :
    ∃ s, (document fittingText).filter? = some s ∧ s.criteria = [⟨"age", .contained, .list []⟩] ∧
      (document fittingText).Careful := by
  have hread : (document fittingText).filter?.map FilterSpec.criteria =
      some [⟨"age", .contained, .list []⟩] := by decide +kernel
  obtain ⟨s, hs, hcriteria⟩ := Option.map_eq_some_iff.mp hread
  refine ⟨s, hs, hcriteria, (criteria_wellFormed_iff hs).mp ?_⟩
  rw [hcriteria, List.forall_mem_singleton]
  decide

/-- A document that tags the operand of an equality as a list. -/
def mismatchedText : String :=
  "\x7b\"nullary\":\x7b\"path\":\"age\",\"operator\":\"equal-to\",\"operand\":\x7b\"shape\":\"list\",\"values\":[]\x7d\x7d\x7d"

/-- **A document and a builder make criteria that the checked constructor refuses.** -/
theorem not_wellFormed_of_document_or_builder :
    ((document mismatchedText).filter?.map FilterSpec.criteria = some [⟨"age", .equalTo, .list []⟩] ∧
        ¬ (⟨"age", .equalTo, .list []⟩ : Criterion).WellFormed) ∧
      ((single .equalTo rfl "" (.int 1)).filter?.map FilterSpec.criteria =
          some [⟨"", .equalTo, .single (.int 1)⟩] ∧
        ¬ (⟨"", .equalTo, .single (.int 1)⟩ : Criterion).WellFormed) := by
  decide +kernel

end CriterionSource

end EntityStore
