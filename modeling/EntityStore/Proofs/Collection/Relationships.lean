import EntityStore.Collection.Relationship
import EntityStore.Proofs.Cache.Index
import EntityStore.Proofs.Entity.Pool

/-!
# The two ends of a relationship

The children of a parent are in one of its fields, and a reference to the parent is in a field of
each child. Where these are fields of their own, what is done at one end leaves the other alone:
attaching appends to the children, detaching takes the child out that an entity stands for, and an
update puts the entity in the place of that child; the reference is set whatever the list is.
-/

namespace EntityStore

/-! ## Fields that are written over -/

namespace Entity

variable {e : Entity} {name other : String} {value : Field} {fields : List (String × Field)}

theorem find?_putField (name other : String) (value : Field) (fields : List (String × Field)) :
    (putField name value fields).find? (fun f => f.1 == other) =
      if other = name then some (name, value) else fields.find? (fun f => f.1 == other) := by
  induction fields with
  | nil =>
    by_cases hother : other = name
    · simp [putField, hother]
    · simp [putField, hother, Ne.symm hother]
  | cons f rest ih =>
    obtain ⟨k, v⟩ := f
    by_cases hk : k = name
    · by_cases hother : other = name
      · simp [putField, hk, hother]
      · simp [putField, hk, hother, Ne.symm hother]
    · by_cases hko : k = other
      · simp [putField, hko ▸ hk, hko]
      · simp [putField, hk, hko, ih]

theorem stored?_set_self (e : Entity) (hname : name ≠ idField) (value : Field) :
    (e.set name value).stored? name = some value := by
  rw [stored?, if_neg hname, set, find?_putField, if_pos rfl, Option.map_some]

theorem stored?_set_of_ne (e : Entity) (hne : other ≠ name) (value : Field) :
    (e.set name value).stored? other = e.stored? other := by
  rw [stored?, stored?, set, find?_putField, if_neg hne]

theorem putField_of_find? (hfind : (fields.find? fun f => f.1 == name).map (·.2) = some value) :
    putField name value fields = fields := by
  induction fields with
  | nil => cases hfind
  | cons f rest ih =>
    obtain ⟨k, v⟩ := f
    by_cases hk : k = name
    · rw [hk, List.find?_cons_of_pos (by simp)] at hfind
      rw [putField, if_pos hk, hk, ← Option.some.inj hfind]
    · rw [List.find?_cons_of_neg (by simpa using hk)] at hfind
      rw [putField, if_neg hk, ih hfind]

/-- Writing a field over with what it holds changes nothing. -/
theorem set_of_stored? (hname : name ≠ idField) (hstored : e.stored? name = some value) :
    e.set name value = e := by
  rw [stored?, if_neg hname] at hstored
  rw [set, putField_of_find? hstored]

end Entity

namespace Pool

variable {p : Pool} {h k : Handle}

theorem stored?_edit_of_ne (p : Pool) (h k : Handle) {name other : String} (hne : other ≠ name)
    (value : Field) :
    ((p.edit h fun e => e.set name value).entity k).stored? other = (p.entity k).stored? other := by
  by_cases hk : k = h
  · rw [hk, entity_edit_self, Entity.stored?_set_of_ne _ hne]
  · rw [entity_edit_of_ne hk]

theorem edit_of_same {f : Entity → Entity} (hsame : f (p.entity h) = p.entity h) :
    p.edit h f = p := by
  have hentity : (p.edit h f).entity = p.entity := by
    funext k
    by_cases hk : k = h
    · rw [hk, entity_edit_self, hsame]
    · rw [entity_edit_of_ne hk]
  rw [edit, write, mk.injEq]
  exact ⟨hentity, rfl⟩

theorem typeName_edit_set (p : Pool) (h k : Handle) (name : String) (value : Field) :
    (p.edit h fun e => e.set name value).typeName k = p.typeName k := by
  rw [typeName, typeName]
  by_cases hk : k = h
  · rw [hk, entity_edit_self]
    rfl
  · rw [entity_edit_of_ne hk]

end Pool

namespace Relationship

variable {r : Relationship} {back : String} {p q : Pool} {h k : Handle}

/-- The fields at the two ends are fields of their own. -/
structure Lawful (r : Relationship) : Prop where
  field_ne_id : r.field ≠ idField
  back_ne_id : ∀ back ∈ r.back, back ≠ idField
  back_ne_field : ∀ back ∈ r.back, back ≠ r.field

/-- The children refer back, and the fields at the two ends are fields of their own. -/
structure TwoWay (r : Relationship) (back : String) : Prop where
  refers : r.back = some back
  field_ne_id : r.field ≠ idField
  back_ne_id : back ≠ idField
  back_ne_field : back ≠ r.field

/-- Where children refer back, this one refers to the parent. -/
def RefersBack (r : Relationship) (p : Pool) (h : Handle) : Prop :=
  ∀ back ∈ r.back, (p.entity h).stored? back = some (.one (some r.parent))

theorem children_congr
    (hsame : (q.entity r.parent).stored? r.field = (p.entity r.parent).stored? r.field) :
    r.children q = r.children p := by
  rw [children, children, hsame]

/-- The children of a parent that lives live. -/
theorem lt_of_mem_children (hclosed : p.Closed) (hparent : r.parent < p.next)
    (hmem : k ∈ r.children p) : k < p.next := by
  unfold children at hmem
  split at hmem
  next related hstored =>
    rcases Entity.of_stored?_eq_some hstored with hid | ⟨f, hf, hrelated⟩
    · cases hid
    · refine hclosed _ hparent f hf k ?_
      rw [hrelated]
      exact hmem
  next => cases hmem

/-- There is no need to add what is one of the children already, and only that. -/
theorem mem_of_admits {children : List Handle} (hadmits : admits p h children = .ok false) :
    h ∈ children := by
  induction children with
  | nil => cases hadmits
  | cons child rest ih =>
    unfold admits at hadmits
    split at hadmits
    next heq => exact heq ▸ List.mem_cons_self
    next =>
      simp only at hadmits
      split at hadmits
      · cases hadmits
      · cases hadmits
      · exact List.mem_cons_of_mem _ (ih hadmits)

/-! ## What each end holds after a change -/

namespace Lawful

variable (hr : r.Lawful)
include hr

theorem children_setChildren (hs : List Handle) (p : Pool) :
    r.children (r.setChildren hs p) = hs := by
  rw [children, setChildren, Pool.entity_edit_self, Entity.stored?_set_self _ hr.field_ne_id]

theorem children_setBack (k : Handle) (target : Option Handle) (p : Pool) :
    r.children (r.setBack k target p) = r.children p := by
  unfold setBack
  cases hback : r.back with
  | none => rfl
  | some back =>
    exact children_congr (Pool.stored?_edit_of_ne _ _ _ (hr.back_ne_field back hback).symm _)

theorem refersBack_setBack (k : Handle) (p : Pool) :
    r.RefersBack (r.setBack k (some r.parent) p) k := by
  intro back hback
  rw [setBack, show r.back = some back from hback, Pool.entity_edit_self,
    Entity.stored?_set_self _ (hr.back_ne_id back hback)]

theorem children_attach (h : Handle) (p : Pool) :
    r.children (r.attach h p) = r.children p ++ [h] := by
  rw [attach, hr.children_setBack, hr.children_setChildren]

/-- A removal at the parent takes a child out of the list. -/
theorem children_detach? (hdetach : r.detach? h p = some q) :
    ∃ gone, p.counterpart? h (r.children p) = some gone ∧
      r.children q = (r.children p).erase gone := by
  obtain ⟨gone, hgone, rfl⟩ := Option.map_eq_some_iff.mp hdetach
  refine ⟨gone, hgone, ?_⟩
  rw [hr.children_setBack, hr.children_setBack, hr.children_setChildren]

/-- An update at the parent puts the entity in the place of a child and has it refer back. -/
theorem children_replace? (hreplace : r.replace? h p = some q) :
    ∃ old, p.counterpart? h (r.children p) = some old ∧
      r.children q = (r.children p).replace old h ∧ r.RefersBack q h := by
  obtain ⟨old, hold, rfl⟩ := Option.map_eq_some_iff.mp hreplace
  refine ⟨old, hold, ?_, hr.refersBack_setBack h _⟩
  rw [hr.children_setBack, hr.children_setChildren]

/-- Children written over with themselves. -/
theorem setChildren_children (hmem : h ∈ r.children p) : r.setChildren (r.children p) p = p := by
  refine Pool.edit_of_same (Entity.set_of_stored? hr.field_ne_id ?_)
  unfold children at hmem ⊢
  split at hmem
  next related hstored => rw [hstored]
  next => cases hmem

/-- An update that puts a child which refers back in its own place changes nothing. -/
theorem replace?_self (hself : p.counterpart? h (r.children p) = some h)
    (hback : r.RefersBack p h) : r.replace? h p = some p := by
  have hmem := Pool.mem_of_counterpart? hself
  rw [replace?, hself, Option.map_some, replace_self, hr.setChildren_children hmem]
  refine congrArg some ?_
  unfold setBack
  cases hsome : r.back with
  | none => rfl
  | some back =>
    exact Pool.edit_of_same (Entity.set_of_stored? (hr.back_ne_id back hsome) (hback back hsome))

end Lawful

namespace TwoWay

variable (hr : r.TwoWay back)
include hr

theorem toLawful : r.Lawful where
  field_ne_id := hr.field_ne_id
  back_ne_id := fun _ hother => Option.some.inj (hr.refers.symm.trans hother) ▸ hr.back_ne_id
  back_ne_field := fun _ hother =>
    Option.some.inj (hr.refers.symm.trans hother) ▸ hr.back_ne_field

theorem stored?_back_attach (h : Handle) (p : Pool) :
    ((r.attach h p).entity h).stored? back = some (.one (some r.parent)) :=
  hr.toLawful.refersBack_setBack h _ back hr.refers

theorem next_attach (h : Handle) (p : Pool) : (r.attach h p).next = p.next := by
  rw [attach, setBack, hr.refers]
  rfl

end TwoWay

/-! ## Types are not changed -/

theorem typeName_setBack (r : Relationship) (k : Handle) (target : Option Handle) (p : Pool)
    (h : Handle) : (r.setBack k target p).typeName h = p.typeName h := by
  unfold setBack
  cases r.back with
  | none => rfl
  | some back => exact Pool.typeName_edit_set p k h back _

theorem typeName_setChildren (r : Relationship) (hs : List Handle) (p : Pool) (h : Handle) :
    (r.setChildren hs p).typeName h = p.typeName h := Pool.typeName_edit_set p r.parent h r.field _

theorem typeName_detach? (hdetach : r.detach? h p = some q) : q.typeName k = p.typeName k := by
  obtain ⟨gone, -, rfl⟩ := Option.map_eq_some_iff.mp hdetach
  rw [typeName_setBack, typeName_setBack, typeName_setChildren]

theorem typeName_replace? (hreplace : r.replace? h p = some q) : q.typeName k = p.typeName k := by
  obtain ⟨old, -, rfl⟩ := Option.map_eq_some_iff.mp hreplace
  rw [typeName_setBack, typeName_setChildren]

end Relationship

end EntityStore
