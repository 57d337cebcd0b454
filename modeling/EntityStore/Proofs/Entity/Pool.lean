import EntityStore.Entity.Snapshot
import Mathlib.Data.List.Basic

/-!
# How a pool grows

Handles are given out in order, so the handles below `next` are the entities that live. Every
operation of the store leaves these alone and puts what it makes above them. The one thing that
does happen to an entity in place, apart from the edits of whoever holds it, is that it is given
the id it did not have. An entity with an id is thus only ever changed by its holder.
-/

namespace EntityStore

namespace Pool

/-- `q` is `p` with more entities; those of `p` are as they were. -/
structure Extends (p q : Pool) : Prop where
  /-- Handles are not taken back. -/
  next_le : p.next ≤ q.next
  /-- The living entities are unchanged. -/
  kept : ∀ h < p.next, q.entity h = p.entity h

/-- `q` is `p` with more entities, and with ids for some that had none. -/
structure Grows (p q : Pool) : Prop where
  /-- Handles are not taken back. -/
  next_le : p.next ≤ q.next
  /-- A living entity is unchanged, or had no id and has been given one. -/
  kept : ∀ h < p.next,
    q.entity h = p.entity h ∨ p.id h = none ∧ ∃ id, q.entity h = (p.entity h).setId (some id)

variable {p q r : Pool} {h k : Handle}

theorem Extends.refl (p : Pool) : Extends p p := ⟨Nat.le_refl _, fun _ _ => rfl⟩

theorem Extends.trans (hpq : Extends p q) (hqr : Extends q r) : Extends p r := by
  refine ⟨Nat.le_trans hpq.next_le hqr.next_le, ?_⟩
  intro h hh
  rw [hqr.kept h (Nat.lt_of_lt_of_le hh hpq.next_le), hpq.kept h hh]

theorem Extends.grows (hpq : Extends p q) : Grows p q :=
  ⟨hpq.next_le, fun h hh => .inl (hpq.kept h hh)⟩

theorem Extends.id (hpq : Extends p q) (hh : h < p.next) : q.id h = p.id h := by
  rw [Pool.id, Pool.id, hpq.kept h hh]

theorem Extends.typeName (hpq : Extends p q) (hh : h < p.next) : q.typeName h = p.typeName h := by
  rw [Pool.typeName, Pool.typeName, hpq.kept h hh]

theorem Grows.refl (p : Pool) : Grows p p := (Extends.refl p).grows

/-- An entity that has an id is not touched. -/
theorem Grows.kept_of_id (hpq : Grows p q) (hh : h < p.next) (hid : p.id h ≠ none) :
    q.entity h = p.entity h := by
  rcases hpq.kept h hh with hkept | ⟨hnone, -⟩
  · exact hkept
  · exact absurd hnone hid

theorem Grows.id (hpq : Grows p q) (hh : h < p.next) (hid : p.id h ≠ none) : q.id h = p.id h := by
  rw [Pool.id, Pool.id, hpq.kept_of_id hh hid]

theorem Grows.typeName (hpq : Grows p q) (hh : h < p.next) : q.typeName h = p.typeName h := by
  rcases hpq.kept h hh with hkept | ⟨-, id, hgiven⟩
  · rw [Pool.typeName, Pool.typeName, hkept]
  · rw [Pool.typeName, Pool.typeName, hgiven]
    rfl

theorem Grows.trans (hpq : Grows p q) (hqr : Grows q r) : Grows p r := by
  refine ⟨Nat.le_trans hpq.next_le hqr.next_le, ?_⟩
  intro h hh
  have hh' : h < q.next := Nat.lt_of_lt_of_le hh hpq.next_le
  rcases hpq.kept h hh with hkept | ⟨hnone, id, hgiven⟩
  · rcases hqr.kept h hh' with hkept' | ⟨hnone', id', hgiven'⟩
    · exact .inl (hkept'.trans hkept)
    · rw [Pool.id, hkept] at hnone'
      rw [hkept] at hgiven'
      exact .inr ⟨hnone', id', hgiven'⟩
  · -- once given, an id stays
    have hsome : q.id h ≠ none := by
      rw [Pool.id, hgiven]
      exact Option.some_ne_none id
    exact .inr ⟨hnone, id, (hqr.kept_of_id hh' hsome).trans hgiven⟩

/-! ## Making entities -/

theorem extends_alloc (p : Pool) (e : Entity) : Extends p (p.alloc e).2 := by
  refine ⟨Nat.le_succ _, ?_⟩
  intro h hh
  exact entity_alloc_of_ne (Nat.ne_of_lt hh)

@[simp] theorem next_alloc (p : Pool) (e : Entity) : (p.alloc e).2.next = p.next + 1 := rfl

theorem entity_edit_of_ne {f : Entity → Entity} (hk : k ≠ h) :
    (p.edit h f).entity k = p.entity k := entity_write_of_ne hk

@[simp] theorem entity_edit_self (p : Pool) (h : Handle) (f : Entity → Entity) :
    (p.edit h f).entity h = f (p.entity h) := entity_write_self p h _

theorem grows_setId (hid : p.id h = none) (id : EntityId) :
    Grows p (p.edit h fun e => e.setId (some id)) := by
  refine ⟨Nat.le_refl _, ?_⟩
  intro k _
  by_cases hk : k = h
  · subst hk
    exact .inr ⟨hid, id, entity_edit_self p k _⟩
  · exact .inl (entity_edit_of_ne hk)

/-- Entities put under new handles are found there, in order, and above all that lived. -/
theorem allocAll_spec (p : Pool) (es : List Entity) :
    Extends p (p.allocAll es).2 ∧
      (p.allocAll es).1.map (p.allocAll es).2.entity = es ∧
      (p.allocAll es).1.Nodup ∧
      ∀ h ∈ (p.allocAll es).1, p.next ≤ h ∧ h < (p.allocAll es).2.next := by
  induction es generalizing p with
  | nil => exact ⟨.refl p, rfl, List.nodup_nil, fun _ h => absurd h List.not_mem_nil⟩
  | cons e rest ih =>
    obtain ⟨hext, hmap, hnodup, hnew⟩ := ih (p.alloc e).2
    have hhead : p.next < ((p.alloc e).2.allocAll rest).2.next :=
      Nat.lt_of_lt_of_le (Nat.lt_succ_self _) hext.next_le
    refine ⟨(extends_alloc p e).trans hext, ?_, ?_, ?_⟩
    · have hfirst : ((p.alloc e).2.allocAll rest).2.entity p.next = e :=
        (hext.kept _ (Nat.lt_succ_self _)).trans (entity_alloc_self p e)
      exact List.cons_eq_cons.mpr ⟨hfirst, hmap⟩
    · refine List.nodup_cons.mpr ⟨?_, hnodup⟩
      intro hmem
      exact absurd (hnew _ hmem).1 (Nat.not_le.mpr (Nat.lt_succ_self _))
    · intro h hh
      rcases List.mem_cons.mp hh with rfl | hh
      · exact ⟨Nat.le_refl _, hhead⟩
      · exact ⟨Nat.le_of_succ_le (hnew h hh).1, (hnew h hh).2⟩

/-! ## What entities refer to -/

/-- What an entity stands for among others is one of them. -/
theorem mem_of_counterpart? {hs : List Handle} (hfound : p.counterpart? h hs = some k) : k ∈ hs := by
  unfold counterpart? at hfound
  split at hfound
  next hcontains => exact Option.some.inj hfound ▸ List.contains_iff_mem.mp hcontains
  next =>
    obtain ⟨id, -, hholder⟩ := Option.bind_eq_some_iff.mp hfound
    exact List.mem_of_find?_eq_some hholder

/-- An entity stands for itself wherever it is. -/
theorem counterpart?_of_mem {hs : List Handle} (hmem : h ∈ hs) : p.counterpart? h hs = some h :=
  if_pos (List.contains_iff_mem.mpr hmem)

end Pool

/-- The entities a field leads to. -/
def Field.related : Field → List Handle
  | .value _ => []
  | .one related => related.toList
  | .many related => related

/-- Every relation of an entity leads to a living entity, where those below `n` live. -/
def Entity.RefersBelow (e : Entity) (n : Handle) : Prop :=
  ∀ f ∈ e.fields, ∀ r ∈ f.2.related, r < n

instance (e : Entity) (n : Handle) : Decidable (e.RefersBelow n) :=
  inferInstanceAs (Decidable (∀ f ∈ e.fields, ∀ r ∈ f.2.related, r < n))

theorem Entity.RefersBelow.mono {e : Entity} {m n : Handle} (h : e.RefersBelow m) (hmn : m ≤ n) :
    e.RefersBelow n := fun f hf r hr => Nat.lt_of_lt_of_le (h f hf r hr) hmn

/-- What is stored is the id or one of the fields. -/
theorem Entity.of_stored?_eq_some {e : Entity} {name : String} {f : Field}
    (hf : e.stored? name = some f) :
    f = .value (Value.ofId e.id) ∨ ∃ entry ∈ e.fields, entry.2 = f := by
  unfold Entity.stored? at hf
  split at hf
  · exact .inl (Option.some.inj hf).symm
  · obtain ⟨entry, hentry, hvalue⟩ := Option.map_eq_some_iff.mp hf
    exact .inr ⟨entry, List.mem_of_find?_eq_some hentry, hvalue⟩

/-- A declared attribute reads the id or one of the fields. -/
theorem Entity.of_field?_eq_some {e : Entity} {name : String} {f : Field}
    (hf : e.field? name = some f) :
    f = .value (Value.ofId e.id) ∨ ∃ entry ∈ e.fields, entry.2 = f := by
  obtain ⟨a, -, hsource⟩ := Option.bind_eq_some_iff.mp hf
  obtain ⟨source, -, hstored⟩ := Option.bind_eq_some_iff.mp hsource
  exact Entity.of_stored?_eq_some hstored

/-- What a declared attribute reads leads to living entities. -/
theorem Entity.RefersBelow.field? {e : Entity} {n : Handle} (h : e.RefersBelow n) {name : String}
    {f : Field} (hf : e.field? name = some f) : ∀ r ∈ f.related, r < n := by
  rcases Entity.of_field?_eq_some hf with rfl | ⟨entry, hentry, rfl⟩
  · exact fun r hr => absurd hr List.not_mem_nil
  · exact h entry hentry

/-- A property of entities, where those below a handle live, that outlasts new entities and new
ids. -/
structure Lasting (P : Handle → Entity → Prop) : Prop where
  mono : ∀ {m n e}, m ≤ n → P m e → P n e
  setId : ∀ {n e} (id : Option EntityId), P n e → P n (e.setId id)

/-- All living entities have a property. -/
def Pool.Holds (P : Handle → Entity → Prop) (p : Pool) : Prop := ∀ h < p.next, P p.next (p.entity h)

/-- The relations of living entities lead to living entities. -/
def Pool.Closed (p : Pool) : Prop := p.Holds fun n e => e.RefersBelow n

theorem lasting_refersBelow : Lasting fun n e => e.RefersBelow n :=
  ⟨fun hmn he => he.mono hmn, fun _ he => he⟩

section Holds

variable {P : Handle → Entity → Prop} {p q : Pool}

/-- Being given ids changes nothing that lasts. -/
theorem Pool.Holds.grows (hp : p.Holds P) (hP : Lasting P) (hpq : p.Grows q)
    (hnext : q.next = p.next) : q.Holds P := by
  intro h hh
  rw [hnext] at hh ⊢
  rcases hpq.kept h hh with hkept | ⟨-, id, hgiven⟩
  · rw [hkept]
    exact hp h hh
  · rw [hgiven]
    exact hP.setId _ (hp h hh)

theorem Pool.Holds.alloc (hp : p.Holds P) (hP : Lasting P) {e : Entity} (he : P p.next e) :
    (p.alloc e).2.Holds P := by
  intro h hh
  rw [Pool.next_alloc] at hh ⊢
  by_cases heq : h = p.next
  · rw [heq, show (p.alloc e).2.entity p.next = e from Pool.entity_alloc_self p e]
    exact hP.mono (Nat.le_succ _) he
  · rw [Pool.entity_alloc_of_ne heq]
    exact hP.mono (Nat.le_succ _) (hp h (Nat.lt_of_le_of_ne (Nat.le_of_lt_succ hh) heq))

theorem Pool.Holds.edit (hp : p.Holds P) {h : Handle} {f : Entity → Entity}
    (hf : h < p.next → P p.next (f (p.entity h))) : (p.edit h f).Holds P := by
  intro k hk
  by_cases heq : k = h
  · rw [heq, Pool.entity_edit_self]
    exact hf (heq ▸ hk)
  · rw [Pool.entity_edit_of_ne heq]
    exact hp k hk

theorem Pool.Holds.allocAll (hp : p.Holds P) (hP : Lasting P) {es : List Entity}
    (hes : ∀ e ∈ es, P p.next e) : (p.allocAll es).2.Holds P := by
  induction es generalizing p with
  | nil => exact hp
  | cons e rest ih =>
    obtain ⟨he, hrest⟩ := List.forall_mem_cons.mp hes
    exact ih (hp.alloc hP he) fun e he => hP.mono (Nat.le_succ _) (hrest e he)

/-- A copy has what its original has. -/
theorem Pool.Holds.detach (hp : p.Holds P) (hP : Lasting P) {h : Handle} (hh : h < p.next) :
    (p.detach h).2.Holds P := hp.alloc hP (hp h hh)

end Holds

theorem Pool.idValue_congr {p q : Pool} {h : Handle} (he : q.entity h = p.entity h) :
    q.idValue h = p.idValue h := by rw [idValue, idValue, he]

namespace Snapshot

variable {p q : Pool} {h : Handle}

/-- What an attribute contributes depends on the ids of what it relates to. -/
theorem captureField?_congr {kind : AttributeKind} {field : Option Field}
    (hids : ∀ f ∈ field, ∀ r ∈ f.related, q.idValue r = p.idValue r) :
    captureField? q kind field = captureField? p kind field := by
  cases field with
  | none => cases kind <;> rfl
  | some f =>
    cases f with
    | value v => cases kind <;> rfl
    | one related =>
      cases related with
      | none => cases kind <;> rfl
      | some r =>
        have hr : q.idValue r = p.idValue r := hids _ rfl r (by simp [Field.related])
        cases kind <;> simp [captureField?, hr]
    | many related =>
      have hmap : related.map q.idValue = related.map p.idValue :=
        List.map_congr_left (hids _ rfl)
      cases kind <;> simp [captureField?, hmap]

/-- A snapshot reads the entity and the ids of what it relates to, and nothing else. -/
theorem capture_congr (he : q.entity h = p.entity h)
    (hrelated : ∀ name, ∀ f ∈ (p.entity h).field? name, ∀ r ∈ f.related,
      q.entity r = p.entity r) :
    capture q h = capture p h := by
  have hfield : ∀ a : Attribute, captureField? q a.kind ((p.entity h).field? a.name)
      = captureField? p a.kind ((p.entity h).field? a.name) := by
    intro a
    refine captureField?_congr ?_
    intro f hf r hr
    exact Pool.idValue_congr (hrelated a.name f hf r hr)
  unfold capture
  rw [he]
  simp only [hfield]

/-- Entities that live on unchanged are captured alike. -/
theorem capture_extends (hpq : p.Extends q) (hclosed : p.Closed) (hh : h < p.next) :
    capture q h = capture p h :=
  capture_congr (hpq.kept h hh) fun _ _ hf r hr =>
    hpq.kept r ((hclosed h hh).field? hf r hr)

end Snapshot

/-- An entity type without relations. -/
def EntityType.RelationFree (t : EntityType) : Prop :=
  ∀ a ∈ t.attributes, a.isTerminal = true

/-- Without relations a snapshot reads the entity alone. -/
theorem Snapshot.capture_of_relationFree {p q : Pool} {h k : Handle}
    (he : q.entity k = p.entity h) (hfree : (p.entity h).type.RelationFree) :
    capture q k = capture p h := by
  have hfield : ∀ a ∈ (p.entity h).type.attributes,
      captureField? q a.kind ((p.entity h).field? a.name)
        = captureField? p a.kind ((p.entity h).field? a.name) := by
    intro a ha
    have hterminal := hfree a ha
    rw [Attribute.isTerminal] at hterminal
    split at hterminal
    case h_1 kind hkind =>
      rw [hkind]
      cases (p.entity h).field? a.name with
      | none => rfl
      | some f => cases f <;> rfl
    case h_2 => exact absurd hterminal Bool.false_ne_true
  unfold capture
  rw [he]
  refine List.filterMap_congr fun a ha => ?_
  rw [hfield a ha]

end EntityStore
