import EntityStore.Proofs.Entity.Pool

/-!
# Plain entities

An entity is plain when it relates to nothing and holds no float that is not a number. What it
shows of its state is then a matter of the entity alone, wherever it lives, and equals itself, so
that a copy that nobody edits never reads as edited.
-/

namespace EntityStore

/-- A number that compares with no number, itself included. -/
def Value.isNaN : Value → Bool
  | .float x => x.isNaN
  | _ => false

/-- Any value but a float that is not a number equals itself. -/
theorem Value.same_self {v : Value} (h : v.isNaN = false) : v.same v = true := by
  cases v with
  | float x =>
    rw [Value.isNaN] at h
    simp [Value.same, Binary64.sameNumber, Binary64.compare?, h]
  | timestamp t => simp [Value.same, Timestamp.sameInstant]
  | _ => simp [Value.same]

/-- Whether a field holds a value that equals itself. -/
def Field.isPlain : Field → Bool
  | .value v => !v.isNaN
  | _ => false

/-- An entity of a type without relations, whose fields hold values that equal themselves. -/
structure Entity.Plain (e : Entity) : Prop where
  relationFree : e.type.RelationFree
  fields : ∀ f ∈ e.fields, f.2.isPlain = true

instance (t : EntityType) : Decidable t.RelationFree :=
  inferInstanceAs (Decidable (∀ a ∈ t.attributes, a.isTerminal = true))

instance (e : Entity) : Decidable e.Plain :=
  decidable_of_iff (e.type.RelationFree ∧ ∀ f ∈ e.fields, f.2.isPlain = true)
    ⟨fun h => ⟨h.1, h.2⟩, fun h => ⟨h.relationFree, h.fields⟩⟩

theorem lasting_plain : Lasting fun _ e => e.Plain :=
  ⟨fun _ he => he, fun _ he => ⟨he.relationFree, he.fields⟩⟩

namespace Entity.Plain

variable {e : Entity}

theorem refersBelow (he : e.Plain) (n : Handle) : e.RefersBelow n := by
  intro f hf r hr
  have hplain := he.fields f hf
  obtain ⟨name, field⟩ := f
  cases field with
  | value v => exact absurd hr List.not_mem_nil
  | one _ => cases hplain
  | many _ => cases hplain

/-- What a declared attribute reads is a value that equals itself. -/
theorem field? (he : e.Plain) {name : String} {f : Field} (hf : e.field? name = some f) :
    f.isPlain = true := by
  rcases Entity.of_field?_eq_some hf with rfl | ⟨entry, hentry, rfl⟩
  · cases e.id <;> rfl
  · exact he.fields entry hentry

end Entity.Plain

/-- The state of an entity that relates to nothing. -/
def Entity.stateData (e : Entity) : Snapshot := Snapshot.capture ⟨fun _ => e, 1⟩ 0

namespace Snapshot

/-- Wherever a plain entity lives, a snapshot of it shows the state it has by itself. -/
theorem capture_of_plain {p : Pool} {h : Handle} (he : (p.entity h).Plain) :
    capture p h = (p.entity h).stateData := by
  have hsame : capture ⟨fun _ => p.entity h, 1⟩ 0 = capture p h :=
    capture_of_relationFree rfl he.relationFree
  exact hsame.symm

theorem same_self_of_forall {s : Snapshot} (h : ∀ c ∈ s, sameCaptured c.2 c.2 = true) :
    s.same s = true := by
  induction s with
  | nil => rfl
  | cons c rest ih =>
    obtain ⟨hc, hrest⟩ := List.forall_mem_cons.mp h
    simp [same, hc, ih hrest]

/-- A plain entity reads as itself. -/
theorem same_self_of_plain {e : Entity} (he : e.Plain) : e.stateData.same e.stateData = true := by
  refine same_self_of_forall fun c hc => ?_
  obtain ⟨a, -, hcaptured⟩ := List.mem_filterMap.mp hc
  obtain ⟨captured, hfield, rfl⟩ := Option.map_eq_some_iff.mp hcaptured
  have hplain := @Entity.Plain.field? e he a.name
  unfold captureField? at hfield
  split at hfield
  case h_1 v _ hv =>
    obtain rfl := Option.some.inj hfield
    have hself : v.isNaN = false := by simpa [Field.isPlain] using hplain hv
    exact Value.same_self hself
  case h_2 hone => exact absurd (hplain hone) Bool.false_ne_true
  case h_3 hone => exact absurd (hplain hone) Bool.false_ne_true
  case h_4 hmany => exact absurd (hplain hmany) Bool.false_ne_true
  case h_5 => cases hfield

end Snapshot

end EntityStore
