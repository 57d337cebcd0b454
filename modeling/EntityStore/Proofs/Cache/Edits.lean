import EntityStore.Changeset
import EntityStore.Proofs.Cache.Keys
import Mathlib.Data.List.Perm.Basic

/-!
# Edits of a roster

A change says what happens to a roster: an entity comes to the end of it, one takes the place of
the one with the same id, or the one with an id goes. Two edits that concern different ids may be
made in either order; the rosters that result list the same entities, though maybe not in the
same order, so a key is held twice in the one if and only if it is in the other.
-/

namespace EntityStore

/-- A change by what it says, with the entity as it is in the place of its handle. -/
structure Edit where
  kind : ChangeKind
  entity : Entity

/-- What a change says. -/
def Change.edit (pool : Pool) (c : Change) : Edit := ⟨c.kind, pool.entity c.entity⟩

/-- Two edits concern different ids. An entity that has no id yet is none of the others. -/
def Edit.Apart (a b : Edit) : Prop := ∀ id ∈ a.entity.id, id ∉ b.entity.id

theorem Edit.Apart.symm {a b : Edit} (h : Edit.Apart a b) : Edit.Apart b a :=
  fun id hb ha => h id ha hb

namespace Roster

/-- The roster after an edit. -/
def edit (r : Roster) (c : Edit) : Roster :=
  match c.kind, c.entity.id with
  | .add, _ => r ++ [c.entity]
  | .update, some id => r.map fun e => if e.id = some id then c.entity else e
  | .remove, some id => r.filter fun e => e.id ≠ some id
  | _, none => r

/-- The roster after several edits. -/
def edits (r : Roster) (cs : List Edit) : Roster := cs.foldl edit r

/-- An edit fits a roster: an update or removal names an id that is present, an addition none or
one that is not. -/
def Fits (r : Roster) (c : Edit) : Prop :=
  match c.kind with
  | .add => ∀ id ∈ c.entity.id, id ∉ r.ids
  | _ => ∃ id ∈ r.ids, c.entity.id = some id

/-- What is added takes no slug of the roster. -/
def SlugFree (r : Roster) (c : Edit) : Prop :=
  c.kind = .add → ∀ slug ∈ c.entity.slug, slug ∉ r.slugs

/-- Every one of several edits finds the roster as a condition demands, when its turn comes. -/
def Throughout (p : Roster → Edit → Prop) : Roster → List Edit → Prop
  | _, [] => True
  | r, c :: cs => p r c ∧ Throughout p (r.edit c) cs

instance (r : Roster) (c : Edit) : Decidable (r.Fits c) := by
  unfold Fits
  split
  · cases c.entity.id with
    | none => exact isTrue fun _ h => by cases h
    | some id =>
      exact decidable_of_iff (id ∉ r.ids)
        ⟨fun h _ heq => Option.some.inj heq ▸ h, fun h => h id rfl⟩
  · cases c.entity.id with
    | none => exact isFalse fun ⟨_, _, h⟩ => by cases h
    | some id =>
      exact decidable_of_iff (id ∈ r.ids)
        ⟨fun h => ⟨id, h, rfl⟩, fun ⟨_, h, heq⟩ => Option.some.inj heq ▸ h⟩

instance (r : Roster) (c : Edit) : Decidable (r.SlugFree c) :=
  inferInstanceAs (Decidable (c.kind = .add → ∀ slug ∈ c.entity.slug, slug ∉ r.slugs))

instance decidableThroughout {p : Roster → Edit → Prop} [∀ r c, Decidable (p r c)] :
    (r : Roster) → (cs : List Edit) → Decidable (Throughout p r cs)
  | _, [] => isTrue trivial
  | r, c :: cs =>
    haveI := decidableThroughout (p := p) (r.edit c) cs
    inferInstanceAs (Decidable (p r c ∧ Throughout p (r.edit c) cs))

variable {r r' : Roster} {a b c : Edit} {cs : List Edit} {id : EntityId}

theorem edits_cons (r : Roster) (c : Edit) (cs : List Edit) :
    r.edits (c :: cs) = (r.edit c).edits cs := rfl

theorem edits_append (r : Roster) (cs ds : List Edit) :
    r.edits (cs ++ ds) = (r.edits cs).edits ds := List.foldl_append

theorem throughout_append {p : Roster → Edit → Prop} {ds : List Edit} :
    r.Throughout p (cs ++ ds) ↔ r.Throughout p cs ∧ (r.edits cs).Throughout p ds := by
  induction cs generalizing r with
  | nil => exact (iff_of_eq (true_and _)).symm
  | cons c rest ih => exact (and_congr_right fun _ => ih).trans and_assoc.symm

/-! ## One edit, by its kind -/

theorem edit_add (hkind : c.kind = .add) : r.edit c = r ++ [c.entity] := by
  rw [edit, hkind]

theorem edit_update (hkind : c.kind = .update) (hid : c.entity.id = some id) :
    r.edit c = r.map fun e => if e.id = some id then c.entity else e := by
  rw [edit, hkind, hid]

theorem edit_remove (hkind : c.kind = .remove) (hid : c.entity.id = some id) :
    r.edit c = r.filter fun e => e.id ≠ some id := by
  rw [edit, hkind, hid]

theorem edit_of_none (hkind : c.kind ≠ .add) (hid : c.entity.id = none) : r.edit c = r := by
  rw [edit, hid]
  cases hc : c.kind with
  | add => exact absurd hc hkind
  | update => rfl
  | remove => rfl

/-- Which ids are present after an edit. -/
theorem mem_ids_edit :
    id ∈ (r.edit c).ids ↔
      id ∈ r.ids ∧ (c.kind = .remove → c.entity.id ≠ some id) ∨
        c.kind = .add ∧ c.entity.id = some id := by
  cases hkind : c.kind with
  | add =>
    rw [edit_add hkind, ids_append, List.mem_append]
    simp [mem_ids]
  | update =>
    cases hid : c.entity.id with
    | none =>
      rw [edit_of_none (by rw [hkind]; decide) hid]
      simp
    | some i =>
      rw [edit_update hkind hid, mem_ids, mem_ids]
      simp only [List.mem_map, reduceCtorEq, IsEmpty.forall_iff, and_true, false_and, or_false]
      constructor
      · rintro ⟨-, ⟨e, he, rfl⟩, heid⟩
        refine ⟨e, he, ?_⟩
        split at heid
        · next hi => rw [hi, ← hid, heid]
        · exact heid
      · rintro ⟨e, he, heid⟩
        refine ⟨_, ⟨e, he, rfl⟩, ?_⟩
        split
        · next hi => rw [hid, ← hi, heid]
        · exact heid
  | remove =>
    cases hid : c.entity.id with
    | none =>
      rw [edit_of_none (by rw [hkind]; decide) hid]
      simp
    | some i =>
      rw [edit_remove hkind hid, mem_ids, mem_ids]
      simp only [List.mem_filter, decide_eq_true_eq, forall_const, reduceCtorEq, false_and, or_false,
        ne_eq]
      constructor
      · rintro ⟨e, ⟨he, hne⟩, heid⟩
        exact ⟨⟨e, he, heid⟩, fun heq => hne (heid.trans heq.symm)⟩
      · rintro ⟨⟨e, he, heid⟩, hne⟩
        exact ⟨e, ⟨he, fun heq => hne (heq.symm.trans heid)⟩, heid⟩

/-! ## Rosters that list the same entities -/

theorem ids_perm (h : r.Perm r') : r.ids.Perm r'.ids := h.filterMap _

theorem slugs_perm (h : r.Perm r') : r.slugs.Perm r'.slugs := h.filterMap _

theorem uniqueKeys_perm (h : r.Perm r') : r.UniqueKeys ↔ r'.UniqueKeys :=
  ⟨fun hr => ⟨(ids_perm h).nodup_iff.mp hr.ids, (slugs_perm h).nodup_iff.mp hr.slugs⟩,
    fun hr => ⟨(ids_perm h).nodup_iff.mpr hr.ids, (slugs_perm h).nodup_iff.mpr hr.slugs⟩⟩

theorem edit_perm (h : r.Perm r') (c : Edit) : (r.edit c).Perm (r'.edit c) := by
  unfold edit
  split
  · exact h.append_right _
  · exact h.map _
  · exact h.filter _
  · exact h

theorem edits_perm (h : r.Perm r') (cs : List Edit) : (r.edits cs).Perm (r'.edits cs) := by
  induction cs generalizing r r' with
  | nil => exact h
  | cons c rest ih => exact ih (edit_perm h c)

theorem fits_perm (h : r.Perm r') : r.Fits c ↔ r'.Fits c := by
  unfold Fits
  simp only [(ids_perm h).mem_iff]

theorem throughout_fits_perm (h : r.Perm r') (hr : r.Throughout Fits cs) :
    r'.Throughout Fits cs := by
  induction cs generalizing r r' with
  | nil => trivial
  | cons c rest ih => exact ⟨(fits_perm h).mp hr.1, ih (edit_perm h c) hr.2⟩

/-! ## Edits that concern different ids -/

/-- An update or removal passes over an entity that it does not concern. -/
theorem edit_append_of_apart (hkind : a.kind ≠ .add) (hapart : Edit.Apart a b) :
    edit (r ++ [b.entity]) a = r.edit a ++ [b.entity] := by
  cases hid : a.entity.id with
  | none => rw [edit_of_none hkind hid, edit_of_none hkind hid]
  | some id =>
    have hb : b.entity.id ≠ some id := fun heq => hapart id hid heq
    cases hk : a.kind with
    | add => exact absurd hk hkind
    | update =>
      rw [edit_update hk hid, edit_update hk hid, List.map_append, List.map_singleton, if_neg hb]
    | remove =>
      rw [edit_remove hk hid, edit_remove hk hid, List.filter_append]
      simp [hb]

theorem edit_comm_of_not_add (ha : a.kind ≠ .add) (hb : b.kind ≠ .add) (hapart : Edit.Apart a b) :
    (r.edit a).edit b = (r.edit b).edit a := by
  cases haid : a.entity.id with
  | none => rw [edit_of_none ha haid, edit_of_none ha haid]
  | some i =>
    cases hbid : b.entity.id with
    | none => rw [edit_of_none hb hbid, edit_of_none hb hbid]
    | some j =>
      have hij : i ≠ j := by
        intro heq
        exact hapart i haid (heq ▸ hbid)
      cases hak : a.kind with
      | add => exact absurd hak ha
      | update =>
        cases hbk : b.kind with
        | add => exact absurd hbk hb
        | update =>
          rw [edit_update hak haid, edit_update hbk hbid, edit_update hbk hbid,
            edit_update hak haid, List.map_map, List.map_map]
          refine List.map_congr_left fun e _ => ?_
          simp only [Function.comp_apply]
          grind
        | remove =>
          rw [edit_update hak haid, edit_remove hbk hbid, edit_remove hbk hbid,
            edit_update hak haid, List.filter_map]
          congr 1
          refine List.filter_congr fun e _ => ?_
          simp only [Function.comp_apply, decide_eq_decide]
          grind
      | remove =>
        cases hbk : b.kind with
        | add => exact absurd hbk hb
        | update =>
          rw [edit_remove hak haid, edit_update hbk hbid, edit_update hbk hbid,
            edit_remove hak haid, List.filter_map]
          congr 1
          refine List.filter_congr fun e _ => ?_
          simp only [Function.comp_apply, decide_eq_decide]
          grind
        | remove =>
          rw [edit_remove hak haid, edit_remove hbk hbid, edit_remove hbk hbid,
            edit_remove hak haid, List.filter_comm]

/-- Edits that concern different ids give the same entities in either order. -/
theorem edit_comm (hapart : Edit.Apart a b) :
    ((r.edit a).edit b).Perm ((r.edit b).edit a) := by
  by_cases ha : a.kind = .add
  · by_cases hb : b.kind = .add
    · rw [edit_add ha, edit_add hb, edit_add hb, edit_add ha, List.append_assoc, List.append_assoc]
      exact (List.Perm.swap _ _ _).append_left r
    · rw [edit_add ha, edit_append_of_apart hb hapart.symm, edit_add ha]
  · by_cases hb : b.kind = .add
    · rw [edit_add hb, edit_add hb, edit_append_of_apart ha hapart]
    · rw [edit_comm_of_not_add ha hb hapart]

/-- Whether an edit fits is not affected by one that concerns another id. -/
theorem fits_edit_of_apart (hapart : Edit.Apart a b) : (r.edit a).Fits b ↔ r.Fits b := by
  have hpresent : ∀ id ∈ b.entity.id, (id ∈ (r.edit a).ids ↔ id ∈ r.ids) := by
    intro id hid
    have hne : a.entity.id ≠ some id := fun heq => hapart id heq hid
    rw [mem_ids_edit]
    simp [hne]
  unfold Fits
  split
  · exact forall₂_congr fun id hid => not_congr (hpresent id hid)
  · refine exists_congr fun id => ?_
    exact and_congr_left fun hid => hpresent id hid

end Roster

/-! ## Other orders -/

/-- A list in another order, which is reached by swapping neighbours that are apart. -/
inductive Reordered {α : Type} (apart : α → α → Prop) : List α → List α → Prop
  | refl (l : List α) : Reordered apart l l
  | swap {a b : α} (l m : List α) (h : apart a b) :
    Reordered apart (l ++ a :: b :: m) (l ++ b :: a :: m)
  | trans {l m n : List α} : Reordered apart l m → Reordered apart m n → Reordered apart l n

theorem Reordered.perm {α : Type} {apart : α → α → Prop} {l m : List α}
    (h : Reordered apart l m) : l.Perm m := by
  induction h with
  | refl l => exact .refl l
  | swap l m _ => exact (List.Perm.swap _ _ _).append_left l
  | trans _ _ ih₁ ih₂ => exact ih₁.trans ih₂

namespace Roster

variable {r : Roster} {cs ds : List Edit}

/-- The order of edits that concern different ids does not matter for what is listed. -/
theorem edits_reordered (h : Reordered Edit.Apart cs ds) : (r.edits cs).Perm (r.edits ds) := by
  induction h with
  | refl l => exact .refl _
  | swap l m hapart =>
    rw [edits_append, edits_append]
    exact edits_perm (edit_comm hapart) m
  | trans _ _ ih₁ ih₂ => exact ih₁.trans ih₂

/-- Nor does it matter for whether they fit. -/
theorem throughout_fits_reordered (h : Reordered Edit.Apart cs ds) (hr : r.Throughout Fits cs) :
    r.Throughout Fits ds := by
  induction h with
  | refl l => exact hr
  | swap l m hapart =>
    rw [throughout_append] at hr ⊢
    obtain ⟨hl, ha, hb, hm⟩ := hr
    refine ⟨hl, ?_, ?_, ?_⟩
    · exact (fits_edit_of_apart hapart).mp hb
    · exact (fits_edit_of_apart hapart.symm).mpr ha
    · exact throughout_fits_perm (edit_comm hapart) hm
  | trans _ _ ih₁ ih₂ => exact ih₂ (ih₁ hr)

end Roster

/-! ## What edits leave under an id

A roster is read as a map from ids to entities. An edit that fits leaves its outcome under the id
of its entity, and every other id as it was; so of several edits the last one of an id decides.
-/

/-- What an edit leaves under the id of its entity. -/
def Edit.outcome (c : Edit) : Option Entity :=
  match c.kind with
  | .remove => none
  | _ => some c.entity

namespace Roster

/-- The first entity that holds an id. -/
def at? (r : Roster) (id : EntityId) : Option Entity := r.find? fun e => e.id == some id

variable {r : Roster} {c : Edit} {cs ds : List Edit} {id : EntityId}

theorem at?_eq_none : r.at? id = none ↔ id ∉ r.ids := by
  rw [at?, List.find?_eq_none, mem_ids]
  simp

theorem at?_append (r q : Roster) (id : EntityId) : at? (r ++ q) id = (r.at? id).or (q.at? id) :=
  List.find?_append

theorem at?_singleton {e : Entity} :
    at? [e] id = if e.id = some id then some e else none := by
  rw [at?, List.find?_singleton]
  simp

theorem id_of_at? {e : Entity} (h : r.at? id = some e) : e.id = some id := by
  simpa using List.find?_some h

/-- Putting an entity in the place of the one of its id moves no id. -/
theorem at?_edit_update (hkind : c.kind = .update) {own : EntityId} (hown : c.entity.id = some own) :
    (r.edit c).at? id = (r.at? id).map fun e => if e.id = some own then c.entity else e := by
  have hpred : ((fun e : Entity => e.id == some id) ∘
      fun e => if e.id = some own then c.entity else e) = fun e => e.id == some id := by
    funext e
    show (Entity.id (if e.id = some own then c.entity else e) == some id) = _
    split
    · next he => rw [he, hown]
    · rfl
  rw [edit_update hkind hown, at?, at?, List.find?_map, hpred]

theorem at?_edit_of_ne (hid : c.entity.id ≠ some id) : (r.edit c).at? id = r.at? id := by
  cases hkind : c.kind with
  | add =>
    rw [edit_add hkind, at?_append, at?_singleton, if_neg hid, Option.or_none]
  | update =>
    cases hown : c.entity.id with
    | none => rw [edit_of_none (by rw [hkind]; decide) hown]
    | some own =>
      rw [at?_edit_update hkind hown]
      cases hat : r.at? id with
      | none => rfl
      | some e =>
        have hne : e.id ≠ some own := by
          rw [id_of_at? hat, ← hown]
          exact hid.symm
        rw [Option.map_some, if_neg hne]
  | remove =>
    cases hown : c.entity.id with
    | none => rw [edit_of_none (by rw [hkind]; decide) hown]
    | some own =>
      rw [edit_remove hkind hown, at?, at?, List.find?_filter]
      congr 1
      funext e
      by_cases he : e.id = some id
      · have hne : e.id ≠ some own := by
          rw [he, ← hown]
          exact hid.symm
        simp [he, he ▸ hne]
      · simp [he]

theorem at?_edit_self (hfits : r.Fits c) (hid : c.entity.id = some id) :
    (r.edit c).at? id = c.outcome := by
  cases hkind : c.kind with
  | add =>
    have hnew : id ∉ r.ids := by
      rw [Fits, hkind] at hfits
      exact hfits id hid
    rw [edit_add hkind, at?_append, at?_eq_none.mpr hnew, Option.none_or, at?_singleton, if_pos hid,
      Edit.outcome, hkind]
  | update =>
    have hheld : id ∈ r.ids := by
      rw [Fits, hkind] at hfits
      obtain ⟨id', hmem, hid'⟩ := hfits
      rw [hid] at hid'
      exact Option.some.inj hid' ▸ hmem
    rw [at?_edit_update hkind hid]
    cases hat : r.at? id with
    | none => exact absurd hheld (at?_eq_none.mp hat)
    | some e => rw [Option.map_some, if_pos (id_of_at? hat), Edit.outcome, hkind]
  | remove =>
    rw [edit_remove hkind hid, Edit.outcome, hkind]
    refine at?_eq_none.mpr fun hmem => ?_
    obtain ⟨e, he, heid⟩ := mem_ids.mp hmem
    exact absurd heid (by simpa using (List.mem_filter.mp he).2)

theorem at?_edits_of_ne (h : ∀ c ∈ cs, c.entity.id ≠ some id) : (r.edits cs).at? id = r.at? id := by
  induction cs generalizing r with
  | nil => rfl
  | cons c rest ih =>
    obtain ⟨hc, hrest⟩ := List.forall_mem_cons.mp h
    rw [edits_cons, ih hrest, at?_edit_of_ne hc]

/-- Of several edits that fit, the last one of an id decides what is left under it. -/
theorem at?_edits_of_last (hfits : r.Throughout Fits (cs ++ c :: ds)) (hid : c.entity.id = some id)
    (hlast : ∀ d ∈ ds, d.entity.id ≠ some id) :
    (r.edits (cs ++ c :: ds)).at? id = c.outcome := by
  obtain ⟨-, hc, -⟩ := throughout_append.mp hfits
  rw [edits_append, edits_cons, at?_edits_of_ne hlast, at?_edit_self hc hid]

end Roster

end EntityStore
