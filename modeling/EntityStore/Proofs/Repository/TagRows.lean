import EntityStore.Proofs.Entity.Pool
import EntityStore.Proofs.Repository.Tables
import EntityStore.Proofs.Text.Integer
import EntityStore.Samples.TagRows

/-!
# Tags read back from their rows

A tag is an entity with a name that is text and a weight that is a float. Its row is faithful if the
weight is read back from its digits, or is not finite. A weight that is not finite is written as null,
which is no weight: **a tag is read back from its row exactly if its weight is finite**, and no row is
read as a tag of any other weight.
-/

namespace EntityStore.Samples

open Json

variable {e : Entity}

/-- A tag of an id, a name and a weight. -/
def tagOf (id : Option EntityId) (name : String) (weight : Binary64) : Entity :=
  ⟨tag, id, [("name", .value (.string name)), ("weight", .value (.float weight))]⟩

/-- An entity that has what a tag has, and nothing else. -/
def IsTag (e : Entity) : Prop := ∃ id name weight, e = tagOf id name weight

theorem IsTag.type (h : IsTag e) : e.type = tag := by
  obtain ⟨id, name, weight, rfl⟩ := h
  rfl

/-- The weight of a tag. -/
def weight? (e : Entity) : Option Binary64 :=
  match e.stored? "weight" with
  | some (.value (.float x)) => some x
  | _ => none

/-- The weight of a tag is a number, and neither of the infinities. -/
def HasFiniteWeight (e : Entity) : Prop := ∀ x ∈ weight? e, x.isFinite = true

instance (e : Entity) : Decidable (HasFiniteWeight e) :=
  inferInstanceAs (Decidable (∀ x ∈ weight? e, x.isFinite = true))

variable {id : Option EntityId} {name : String} {weight : Binary64}

@[simp] theorem weight?_tagOf : weight? (tagOf id name weight) = some weight := rfl

@[simp] theorem hasFiniteWeight_tagOf :
    HasFiniteWeight (tagOf id name weight) ↔ weight.isFinite = true := by
  simp [HasFiniteWeight]

/-- The JSON of an id, or of its absence. -/
def idJson (id : Option EntityId) : Json := id.elim .null fun i => .int i.toInt

theorem encodeTag_tagOf : encodeTag (tagOf id name weight) =
    .object [("id", idJson id), ("name", .text name),
      ("weight", if weight.isFinite then .float weight else .null)] := by
  cases id <;> rfl

theorem faithful_idJson {depth : Nat} : Faithful depth (idJson id) := by
  cases id with
  | none => exact .null
  | some i =>
    refine .int ⟨?_, ?_⟩
    · exact Int64.le_toInt i
    · exact Int.le_trans (Int64.toInt_le i) (by decide)

/-- **The row of a tag is faithful**, if its weight is read back where it is finite. -/
theorem IsTag.faithful (h : IsTag e) (hweight : ∀ x ∈ weight? e, x.isFinite = true → ReadsBack x) :
    Faithful depthLimit (encodeTag e) := by
  obtain ⟨id, name, weight, rfl⟩ := h
  rw [encodeTag_tagOf]
  have hsorted : ["id", "name", "weight"].Pairwise (· < ·) := by decide
  refine .object (List.pairwise_map.mp hsorted) ?_
  simp only [List.forall_mem_cons]
  refine ⟨faithful_idJson, .text name, ?_, nofun⟩
  split
  · next hfinite => exact .float (hweight weight rfl hfinite)
  · exact .null

theorem decodeId?_idJson : decodeId? (idJson id) = some id := by
  cases id with
  | none => rfl
  | some i => simp [idJson, decodeId?, int64?, Text.inInt64_toInt]

/-- What a row of a tag is read as depends on the weight alone. -/
theorem decodeTag?_encodeTag_tagOf : decodeTag? (encodeTag (tagOf id name weight)) =
    if weight.isFinite then some (tagOf id name weight) else none := by
  have hid : decodeId? (idJson id) = some id := decodeId?_idJson
  rw [encodeTag_tagOf]
  split
  · simp [decodeTag?, tagOf?, member?, members?, hid, text?, float?, tagOf]
  · simp [decodeTag?, tagOf?, member?, members?, hid, text?, float?]

theorem IsTag.decodeTag?_encodeTag (h : IsTag e) (hfinite : HasFiniteWeight e) :
    decodeTag? (encodeTag e) = some e := by
  obtain ⟨id, name, weight, rfl⟩ := h
  rw [decodeTag?_encodeTag_tagOf, if_pos (hasFiniteWeight_tagOf.mp hfinite)]

theorem IsTag.decodeTag?_eq_none (h : IsTag e) (hfinite : ¬ HasFiniteWeight e) :
    decodeTag? (encodeTag e) = none := by
  obtain ⟨id, name, weight, rfl⟩ := h
  rw [decodeTag?_encodeTag_tagOf, if_neg (mt hasFiniteWeight_tagOf.mpr hfinite)]

/-- What rows are read as are tags of finite weights. -/
theorem isTag_of_decodeTag? {row : Json} (hrow : Read row) (h : decodeTag? row = some e) :
    IsTag e ∧ HasFiniteWeight e := by
  have htagOf : ∀ {id name weight : Json}, Read weight → tagOf? id name weight = some e →
      IsTag e ∧ HasFiniteWeight e := by
    intro id name weight hweight h
    obtain ⟨i, -, h⟩ := Option.bind_eq_some_iff.mp h
    obtain ⟨n, -, h⟩ := Option.bind_eq_some_iff.mp h
    obtain ⟨x, hx, h⟩ := Option.bind_eq_some_iff.mp h
    obtain rfl : tagOf i n x = e := Option.some.inj h
    exact ⟨⟨i, n, x, rfl⟩, hasFiniteWeight_tagOf.mpr (hweight.isFinite x hx)⟩
  unfold decodeTag? at h
  split at h
  · exact htagOf (hrow.items _ (by simp)) h
  · next members =>
    obtain ⟨name, -, h⟩ := Option.bind_eq_some_iff.mp h
    obtain ⟨weight, hmember, h⟩ := Option.bind_eq_some_iff.mp h
    obtain ⟨m, hfind, rfl⟩ := Option.map_eq_some_iff.mp hmember
    exact htagOf (hrow.members m (List.mem_of_find?_eq_some hfind)) h
  · cases h

theorem isTag_of_load {d : Directory} {es : List Entity} (h : tagRows.load d = .ok es) :
    ∀ e ∈ es, IsTag e ∧ HasFiniteWeight e := by
  intro e he
  obtain ⟨row, hrow, hdecode⟩ := RowFormat.mem_load h e he
  exact isTag_of_decodeTag? hrow hdecode

end EntityStore.Samples
