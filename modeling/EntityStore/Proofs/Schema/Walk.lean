import EntityStore.Filter.Check
import EntityStore.Order.Comparing
import EntityStore.Proofs.Select.Dataset

/-!
# Where a resolved path goes

Walking a path gives steps that lead on from one another: every attribute is declared by the type
its step starts from, and all but the last are relations to the type the next one starts from.
That is all either backend knows of a path.
-/

namespace EntityStore

/-- The segments of a text are never none. -/
theorem Path.segments_ne_nil (path : String) : Path.segments path ≠ [] := by
  intro h
  exact Text.pieces_ne_nil _ _ (List.map_eq_nil_iff.mp h)

/-- Steps that lead on from one another, starting from a type. -/
inductive IsPath (schema : Schema) : EntityType → List Step → Prop
  | last {t : EntityType} {a : Attribute} (attr : t.attribute? a.name = some a) :
      IsPath schema t [⟨a, t⟩]
  | hop {t u : EntityType} {a : Attribute} {rest : List Step}
      (attr : t.attribute? a.name = some a) (relation : a.isTerminal = false)
      (target : schema.targetOf a = .ok u) (tail : IsPath schema u rest) :
      IsPath schema t (⟨a, t⟩ :: rest)

theorem EntityType.attribute?_name {t : EntityType} {name : String} {a : Attribute}
    (h : t.attribute? name = some a) : a.name = name := by
  have hname := List.find?_some h
  simpa using hname

namespace IsPath

variable {schema : Schema}

theorem ne_nil {t : EntityType} {steps : List Step} (h : IsPath schema t steps) : steps ≠ [] := by
  cases h <;> simp

/-- Walking segments gives a path. -/
theorem of_walk {fault : PathFault → SchemaError} {t : EntityType} {segments : List String}
    {steps : List Step} (hne : segments ≠ []) (h : Path.walk schema fault t segments = .ok steps) :
    IsPath schema t steps := by
  induction segments generalizing t steps with
  | nil => exact absurd rfl hne
  | cons segment rest ih =>
      rw [Path.walk] at h
      split at h
      · cases h
      split at h
      case h_1 => cases h
      case h_2 a ha =>
        have hname := EntityType.attribute?_name ha
        rw [← hname] at ha
        split at h
        · obtain rfl := Except.ok.inj h
          exact .last ha
        case isFalse hrest =>
          split at h
          · cases h
          case isFalse hterminal =>
            split at h
            · cases h
            case h_2 u hu =>
              split at h
              · cases h
              case h_2 tail htail =>
                obtain rfl := Except.ok.inj h
                have hrest' : rest ≠ [] := by simpa using hrest
                exact .hop ha (by simpa using hterminal) hu (ih hrest' htail)

/-- Resolving a path gives one that starts from the type asked for. -/
theorem of_resolve {root path : String} {steps : List Step}
    (h : schema.resolve root path = .ok steps) :
    ∃ t, schema.find? root = some t ∧ schema.Registered t ∧ IsPath schema t steps := by
  unfold Schema.resolve Schema.inspect at h
  cases hroot : schema.find? root with
  | none =>
      rw [Schema.lookup, hroot] at h
      cases h
  | some t =>
      rw [Schema.lookup, hroot] at h
      dsimp only at h
      split at h
      case h_1 steps' hwalk =>
        obtain rfl := Except.ok.inj h
        exact ⟨t, rfl, Schema.registered_of_find? hroot, of_walk (Path.segments_ne_nil path) hwalk⟩
      · cases h

end IsPath

/-- The steps of a path are named as its segments are. -/
theorem Path.names_of_walk {schema : Schema} {fault : PathFault → SchemaError} {t : EntityType}
    {segments : List String} {steps : List Step} (h : walk schema fault t segments = .ok steps) :
    steps.map (fun s => s.attr.name) = segments := by
  induction segments generalizing t steps with
  | nil =>
    obtain rfl := Except.ok.inj h
    rfl
  | cons segment rest ih =>
    rw [walk] at h
    split at h
    · cases h
    split at h
    case h_1 => cases h
    case h_2 a ha =>
      have hname := EntityType.attribute?_name ha
      split at h
      case isTrue hrest =>
        obtain rfl := Except.ok.inj h
        rw [List.isEmpty_iff.mp hrest, ← hname]
        rfl
      case isFalse =>
        split at h
        · cases h
        split at h
        · cases h
        split at h
        · cases h
        case h_2 tail htail =>
          obtain rfl := Except.ok.inj h
          rw [List.map_cons, ih htail, ← hname]

theorem Schema.names_of_resolve {schema : Schema} {root path : String} {steps : List Step}
    (h : schema.resolve root path = .ok steps) :
    steps.map (fun s => s.attr.name) = Path.segments path := by
  unfold resolve inspect at h
  split at h
  case h_1 steps' hsteps =>
    obtain rfl := Except.ok.inj h
    split at hsteps
    · cases hsteps
    · exact Path.names_of_walk hsteps
  case h_2 => cases h

/-- What a resolved criterion is about: a path from the root, and an attribute at its end that
suits it. -/
theorem Criterion.resolve_inv {schema : Schema} {root : String} {c : Criterion} {steps : List Step}
    (h : c.resolve schema root = .ok steps) :
    schema.resolve root c.path = .ok steps ∧
      ∃ last, steps.getLast? = some last ∧ c.checkLast last.attr = .ok () := by
  unfold Criterion.resolve at h
  split at h
  · cases h
  case h_2 steps' hsteps =>
    split at h
    · cases h
    case h_2 last hlast =>
      split at h
      · cases h
      case h_2 u hcheck =>
        obtain rfl := Except.ok.inj h
        exact ⟨hsteps, last, hlast, hcheck⟩

/-- What a resolved sort key is about: a path from the root without a to-many relation. -/
theorem OrderKey.resolve_inv {schema : Schema} {root : String} {k : OrderKey} {steps : List Step}
    (h : k.resolve schema root = .ok steps) :
    schema.resolve root k.path = .ok steps ∧ ∀ s ∈ steps, s.attr.isToMany = false := by
  unfold OrderKey.resolve at h
  split at h
  · cases h
  case h_2 steps' hsteps =>
    split at h
    · cases h
    case isFalse hmany =>
      obtain rfl := Except.ok.inj h
      exact ⟨hsteps, by simpa using hmany⟩

/-- A sort key that is compiled reads what its path leads to. -/
theorem OrderSpec.compile_key {schema : Schema} {root : String} {k : OrderKey} {o : Comparator}
    (h : OrderSpec.compile schema root (.key k) = .ok o) :
    o = .key ⟨Path.segments k.path, k.direction⟩ := by
  rw [OrderSpec.compile] at h
  split at h
  · cases h
  case h_2 steps hsteps =>
    obtain rfl := Except.ok.inj h
    rw [Schema.names_of_resolve (OrderKey.resolve_inv hsteps).1]

end EntityStore
