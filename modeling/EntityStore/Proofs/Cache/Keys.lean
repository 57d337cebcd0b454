import EntityStore.Proofs.Cache.Index
import EntityStore.Proofs.Entity.Pool

/-!
# Keys held twice

A roster is a list of entities by what they are and not by their handles. Whether keys are unique
is a matter of the roster: two lists of handles that read alike pass or fail the same checks with
the same error. A cache is built from a list exactly when no key is held twice in it, and the
check of a cache looks for exactly that.
-/

namespace EntityStore

/-- The entities of a type, in order. -/
abbrev Roster := List Entity

namespace Roster

def ids (r : Roster) : List EntityId := r.filterMap Entity.id

def slugs (r : Roster) : List String := r.filterMap Entity.slug

/-- No two entities share an id or a slug. -/
structure UniqueKeys (r : Roster) : Prop where
  ids : r.ids.Nodup
  slugs : r.slugs.Nodup

instance (r : Roster) : Decidable r.UniqueKeys :=
  decidable_of_iff (r.ids.Nodup ∧ r.slugs.Nodup) ⟨fun h => ⟨h.1, h.2⟩, fun h => ⟨h.ids, h.slugs⟩⟩

theorem mem_ids {r : Roster} {id : EntityId} : id ∈ r.ids ↔ ∃ e ∈ r, e.id = some id :=
  List.mem_filterMap

theorem mem_slugs {r : Roster} {slug : String} : slug ∈ r.slugs ↔ ∃ e ∈ r, e.slug = some slug :=
  List.mem_filterMap

theorem ids_cons (e : Entity) (r : Roster) : ids (e :: r) = e.id.toList ++ r.ids := by
  unfold ids
  rw [List.filterMap_cons]
  cases e.id <;> rfl

theorem slugs_cons (e : Entity) (r : Roster) : slugs (e :: r) = e.slug.toList ++ r.slugs := by
  unfold slugs
  rw [List.filterMap_cons]
  cases e.slug <;> rfl

theorem uniqueKeys_cons {e : Entity} {r : Roster} :
    UniqueKeys (e :: r) ↔
      (∀ id ∈ e.id, id ∉ r.ids) ∧ (∀ slug ∈ e.slug, slug ∉ r.slugs) ∧ UniqueKeys r := by
  have hkeys : ∀ r : Roster, r.UniqueKeys ↔ r.ids.Nodup ∧ r.slugs.Nodup :=
    fun r => ⟨fun h => ⟨h.ids, h.slugs⟩, fun h => ⟨h.1, h.2⟩⟩
  rw [hkeys, hkeys, ids_cons, slugs_cons]
  cases e.id <;> cases e.slug <;> simp
  all_goals tauto

theorem ids_append (r q : Roster) : ids (r ++ q) = r.ids ++ q.ids := List.filterMap_append

end Roster

namespace Pool

/-- What a list of handles stands for. -/
def roster (p : Pool) (hs : List Handle) : Roster := hs.map p.entity

variable {p q : Pool} {h : Handle} {hs ks : List Handle}

theorem roster_cons (p : Pool) (h : Handle) (hs : List Handle) :
    p.roster (h :: hs) = p.entity h :: p.roster hs := rfl

theorem roster_append (p : Pool) (hs ks : List Handle) :
    p.roster (hs ++ ks) = p.roster hs ++ p.roster ks := List.map_append

theorem roster_congr (he : ∀ h ∈ hs, q.entity h = p.entity h) : q.roster hs = p.roster hs :=
  List.map_congr_left he

theorem Extends.roster (hpq : p.Extends q) (hlive : ∀ h ∈ hs, h < p.next) :
    q.roster hs = p.roster hs := roster_congr fun h hh => hpq.kept h (hlive h hh)

theorem ids_roster (p : Pool) (hs : List Handle) : (p.roster hs).ids = hs.filterMap p.id :=
  List.filterMap_map

theorem slugs_roster (p : Pool) (hs : List Handle) : (p.roster hs).slugs = hs.filterMap p.slug :=
  List.filterMap_map

theorem mem_ids_roster {id : EntityId} : id ∈ (p.roster hs).ids ↔ ∃ h ∈ hs, p.id h = some id := by
  rw [Roster.mem_ids]
  constructor
  · rintro ⟨e, he, hid⟩
    obtain ⟨h, hh, rfl⟩ := List.mem_map.mp he
    exact ⟨h, hh, hid⟩
  · rintro ⟨h, hh, hid⟩
    exact ⟨p.entity h, List.mem_map_of_mem hh, hid⟩

theorem mem_slugs_roster {slug : String} :
    slug ∈ (p.roster hs).slugs ↔ ∃ h ∈ hs, p.slug h = some slug := by
  rw [Roster.mem_slugs]
  constructor
  · rintro ⟨e, he, hslug⟩
    obtain ⟨h, hh, rfl⟩ := List.mem_map.mp he
    exact ⟨h, hh, hslug⟩
  · rintro ⟨h, hh, hslug⟩
    exact ⟨p.entity h, List.mem_map_of_mem hh, hslug⟩

/-- Where ids are unique, an id has one holder. -/
theorem eq_of_id_eq (hunique : (p.roster hs).ids.Nodup) {g : Handle} (hg : g ∈ hs) (hh : h ∈ hs)
    {id : EntityId} (hgid : p.id g = some id) (hhid : p.id h = some id) : g = h := by
  induction hs with
  | nil => exact absurd hg List.not_mem_nil
  | cons k rest ih =>
    rw [roster_cons, Roster.ids_cons, List.nodup_append] at hunique
    obtain ⟨-, hrest, hdisjoint⟩ := hunique
    have hhead : ∀ {x}, x ∈ rest → p.id x = some id → p.id k ≠ some id := by
      intro x hx hxid hk
      have hmem : id ∈ (p.entity k).id.toList := by
        rw [show (p.entity k).id = some id from hk]
        exact List.mem_singleton_self id
      exact hdisjoint id hmem id (mem_ids_roster.mpr ⟨x, hx, hxid⟩) rfl
    rcases List.mem_cons.mp hg with rfl | hgrest
    · rcases List.mem_cons.mp hh with rfl | hhrest
      · rfl
      · exact absurd hgid (hhead hhrest hhid)
    · rcases List.mem_cons.mp hh with rfl | hhrest
      · exact absurd hhid (hhead hgrest hgid)
      · exact ih hrest hgrest hhrest

/-- Where ids are unique, the holder of an id is the entity that has it. -/
theorem holder?_eq (hunique : (p.roster hs).ids.Nodup) (hh : h ∈ hs) {id : EntityId}
    (hid : p.id h = some id) : p.holder? id hs = some h := by
  unfold holder?
  cases hfind : hs.find? fun h => p.id h == some id with
  | none =>
    have hno := List.find?_eq_none.mp hfind h hh
    rw [hid] at hno
    exact absurd (beq_self_eq_true _) hno
  | some g =>
    have hg : p.id g = some id := by simpa using List.find?_some hfind
    rw [eq_of_id_eq hunique (List.mem_of_find?_eq_some hfind) hh hg hid]

theorem holder?_eq_some {id : EntityId} (hfind : p.holder? id hs = some h) :
    h ∈ hs ∧ p.id h = some id := by
  refine ⟨List.mem_of_find?_eq_some hfind, ?_⟩
  simpa using List.find?_some hfind

theorem holder?_eq_none {id : EntityId} :
    p.holder? id hs = none ↔ ∀ h ∈ hs, p.id h ≠ some id := by
  unfold holder?
  rw [List.find?_eq_none]
  simp

end Pool

namespace Cache

/-! ## The first key that is held twice -/

/-- The key of an entity that is among the given ones; ids are looked at first. -/
def takenKey? (pool : Pool) (type : String) (h : Handle) (ids : EntityId → Bool)
    (slugs : String → Bool) : Option StoreError :=
  match (pool.id h).filter ids, (pool.slug h).filter slugs with
  | some id, _ => some (.duplicateId type id)
  | none, some slug => some (.duplicateSlug type slug)
  | none, none => none

theorem takenKey?_eq_none {pool : Pool} {type : String} {h : Handle} {ids : EntityId → Bool}
    {slugs : String → Bool} :
    takenKey? pool type h ids slugs = none ↔
      (∀ id ∈ pool.id h, ids id = false) ∧ ∀ slug ∈ pool.slug h, slugs slug = false := by
  unfold takenKey?
  cases pool.id h <;> cases pool.slug h <;> simp [Option.filter_some]
  all_goals grind

theorem conflict?_eq (pool : Pool) (h : Handle) (c : Cache) :
    c.conflict? pool h = takenKey? pool c.type h (fun id => (c.byId.get? id).isSome)
      fun slug => (c.bySlug.get? slug).isSome := rfl

theorem repeatedKey?_cons (pool : Pool) (type : String) (ids : List EntityId) (slugs : List String)
    (h : Handle) (rest : List Handle) :
    repeatedKey? pool type ids slugs (h :: rest)
      = (takenKey? pool type h ids.contains slugs.contains).or
          (repeatedKey? pool type ((pool.id h).toList ++ ids) ((pool.slug h).toList ++ slugs) rest) := by
  rw [repeatedKey?, takenKey?]
  cases (pool.id h).filter ids.contains with
  | some id => rfl
  | none => cases (pool.slug h).filter slugs.contains <;> rfl

/-- Lists that read alike repeat the same key first. -/
theorem repeatedKey?_congr {p q : Pool} {type : String} {ids : List EntityId} {slugs : List String}
    {hs ks : List Handle} (he : p.roster hs = q.roster ks) :
    repeatedKey? p type ids slugs hs = repeatedKey? q type ids slugs ks := by
  induction hs generalizing ids slugs ks with
  | nil =>
    cases ks with
    | nil => rfl
    | cons k rest => cases he
  | cons h rest ih =>
    cases ks with
    | nil => cases he
    | cons k rest' =>
      obtain ⟨hhead, htail⟩ := List.cons_eq_cons.mp he
      have hid : p.id h = q.id k := congrArg Entity.id hhead
      have hslug : p.slug h = q.slug k := congrArg Entity.slug hhead
      rw [repeatedKey?_cons, repeatedKey?_cons, takenKey?, takenKey?, hid, hslug, ih htail]

theorem repeatedKey?_eq_none {pool : Pool} {type : String} {ids : List EntityId}
    {slugs : List String} {hs : List Handle} :
    repeatedKey? pool type ids slugs hs = none ↔
      (pool.roster hs).UniqueKeys ∧ (∀ id ∈ (pool.roster hs).ids, id ∉ ids) ∧
        ∀ slug ∈ (pool.roster hs).slugs, slug ∉ slugs := by
  induction hs generalizing ids slugs with
  | nil =>
    have hnil : Roster.UniqueKeys [] := ⟨List.nodup_nil, List.nodup_nil⟩
    exact iff_of_true rfl ⟨hnil, fun _ h => absurd h List.not_mem_nil,
      fun _ h => absurd h List.not_mem_nil⟩
  | cons h rest ih =>
    rw [repeatedKey?_cons, Option.or_eq_none_iff, takenKey?_eq_none, ih, Pool.roster_cons,
      Roster.uniqueKeys_cons, Roster.ids_cons, Roster.slugs_cons]
    simp only [List.contains_eq_mem, decide_eq_false_iff_not, List.mem_append, Option.mem_toList,
      Option.mem_def, Pool.id, Pool.slug]
    grind

/-- A cache passes its check exactly when no key is held twice. -/
theorem checkUnique_eq_ok {pool : Pool} {c : Cache} :
    c.checkUnique pool = .ok () ↔ (pool.roster c.entities).UniqueKeys := by
  have hnone := @repeatedKey?_eq_none pool c.type [] [] c.entities
  unfold checkUnique
  cases hrepeated : repeatedKey? pool c.type [] [] c.entities with
  | none => exact iff_of_true rfl (hnone.mp hrepeated).1
  | some e =>
    refine iff_of_false (fun h => by cases h) ?_
    intro hunique
    have := hnone.mpr ⟨hunique, fun _ _ => List.not_mem_nil, fun _ _ => List.not_mem_nil⟩
    rw [hrepeated] at this
    cases this

/-! ## Building a cache -/

variable {pool : Pool} {c : Cache} {h : Handle}

theorem conflict?_eq_none :
    c.conflict? pool h = none ↔
      (∀ id ∈ pool.id h, c.byId.get? id = none) ∧ ∀ slug ∈ pool.slug h, c.bySlug.get? slug = none := by
  rw [conflict?_eq, takenKey?_eq_none]
  simp only [Option.isSome_eq_false_iff, Option.isNone_iff_eq_none]

/-- Enter an entity's key, if it has one. -/
def enterKey {κ : Type} [DecidableEq κ] (key : Handle → Option κ) (ix : Index κ) (h : Handle) :
    Index κ :=
  match key h with
  | some k => ix.put k h
  | none => ix

theorem byId_enter (pool : Pool) (h : Handle) (c : Cache) :
    (c.enter pool h).byId = enterKey pool.id c.byId h := by
  unfold enter enterKey
  cases pool.id h <;> rfl

theorem bySlug_enter (pool : Pool) (h : Handle) (c : Cache) :
    (c.enter pool h).bySlug = enterKey pool.slug c.bySlug h := by
  unfold enter enterKey
  cases pool.slug h <;> rfl

section EnterKey

variable {κ : Type} [DecidableEq κ] {key : Handle → Option κ} {ix : Index κ} {hs : List Handle}

theorem covers_enterKey (hix : ix.Covers key hs) (h : Handle) :
    (enterKey key ix h).Covers key (hs ++ [h]) := by
  unfold enterKey
  cases hkey : key h with
  | none => exact hix.append hkey
  | some k => exact hix.put hkey

/-- The key of an entity is held from then on. -/
theorem isSome_get?_enterKey {keys : List κ} (hkeys : ∀ k, (ix.get? k).isSome = keys.contains k)
    (h : Handle) (k : κ) :
    ((enterKey key ix h).get? k).isSome = ((key h).toList ++ keys).contains k := by
  unfold enterKey
  cases key h with
  | none => exact hkeys k
  | some l =>
    show ((ix.put l h).get? k).isSome = (l :: keys).contains k
    rw [Index.get?_put, List.contains_cons, ← hkeys k]
    by_cases hl : l = k
    · simp [hl]
    · have hlk : (k == l) = false := beq_false_of_ne fun heq => hl heq.symm
      rw [if_neg hl, hlk, Bool.false_or]

end EnterKey

/-- The step that `ofEntities` repeats. -/
def enlist (pool : Pool) (c : Cache) (h : Handle) : Except StoreError Cache :=
  match c.conflict? pool h with
  | some e => .error e
  | none => .ok { c.enter pool h with entities := c.entities ++ [h] }

theorem ofEntities_eq (pool : Pool) (type : String) (hs : List Handle) :
    ofEntities pool type hs = hs.foldlM (enlist pool) (empty type) := rfl

/-- A cache with both indexes up to date. -/
structure Indexed (pool : Pool) (c : Cache) : Prop where
  fresh : c.stale = false
  byId : c.byId.Covers pool.id c.entities
  bySlug : c.bySlug.Covers pool.slug c.entities

theorem indexed_enlist {c' : Cache} (hc : c.Indexed pool) (h' : c.enlist pool h = .ok c') :
    c'.Indexed pool ∧ c'.entities = c.entities ++ [h] ∧ c'.type = c.type := by
  unfold enlist at h'
  split at h'
  · cases h'
  · obtain rfl := Except.ok.inj h'
    have hbyId : (c.enter pool h).byId.Covers pool.id (c.entities ++ [h]) := by
      rw [byId_enter]
      exact covers_enterKey hc.byId h
    have hbySlug : (c.enter pool h).bySlug.Covers pool.slug (c.entities ++ [h]) := by
      rw [bySlug_enter]
      exact covers_enterKey hc.bySlug h
    exact ⟨⟨hc.fresh, hbyId, hbySlug⟩, rfl, rfl⟩

/-- An enlisted entity's keys are seen from then on. -/
theorem seen_enlist {c' : Cache} {ids : List EntityId} {slugs : List String}
    (h' : c.enlist pool h = .ok c') (hids : ∀ id, (c.byId.get? id).isSome = ids.contains id)
    (hslugs : ∀ slug, (c.bySlug.get? slug).isSome = slugs.contains slug) :
    (∀ id, (c'.byId.get? id).isSome = ((pool.id h).toList ++ ids).contains id) ∧
      ∀ slug, (c'.bySlug.get? slug).isSome = ((pool.slug h).toList ++ slugs).contains slug := by
  unfold enlist at h'
  split at h'
  · cases h'
  · obtain rfl := Except.ok.inj h'
    constructor
    · intro id
      show (((c.enter pool h).byId).get? id).isSome = _
      rw [byId_enter, isSome_get?_enterKey hids]
    · intro slug
      show (((c.enter pool h).bySlug).get? slug).isSome = _
      rw [bySlug_enter, isSome_get?_enterKey hslugs]

/-- The entities a list is built from one by one: what the indexes hold is what was seen. -/
theorem foldlM_enlist {ids : List EntityId} {slugs : List String} (hc : c.Indexed pool)
    (hids : ∀ id, (c.byId.get? id).isSome = ids.contains id)
    (hslugs : ∀ slug, (c.bySlug.get? slug).isSome = slugs.contains slug) (hs : List Handle) :
    match hs.foldlM (enlist pool) c with
    | .error e => repeatedKey? pool c.type ids slugs hs = some e
    | .ok c' => repeatedKey? pool c.type ids slugs hs = none ∧ c'.Indexed pool ∧
        c'.entities = c.entities ++ hs ∧ c'.type = c.type := by
  induction hs generalizing c ids slugs with
  | nil => exact ⟨rfl, hc, (List.append_nil _).symm, rfl⟩
  | cons h rest ih =>
    have htaken : c.conflict? pool h = takenKey? pool c.type h ids.contains slugs.contains := by
      rw [conflict?_eq, funext hids, funext hslugs]
    rw [List.foldlM_cons, repeatedKey?_cons, ← htaken]
    cases hstep : c.enlist pool h with
    | error e =>
      have hconflict : c.conflict? pool h = some e := by
        unfold enlist at hstep
        split at hstep
        · next e' he' =>
          rw [he', Except.error.inj hstep]
        · cases hstep
      show Option.or _ _ = some e
      rw [hconflict]
      rfl
    | ok d =>
      obtain ⟨hd, hentities, htype⟩ := indexed_enlist hc hstep
      have hconflict : c.conflict? pool h = none := by
        unfold enlist at hstep
        split at hstep
        · cases hstep
        · next hnone => exact hnone
      have hseen := seen_enlist hstep hids hslugs
      have hrest := ih hd hseen.1 hseen.2
      rw [hconflict, Option.none_or, ← htype]
      show match rest.foldlM (enlist pool) d with
        | .error e => _
        | .ok c' => _
      cases hfold : rest.foldlM (enlist pool) d with
      | error e => simpa [hfold] using hrest
      | ok c' =>
        rw [hfold] at hrest
        obtain ⟨hnone, hc', hlist, htype'⟩ := hrest
        refine ⟨hnone, hc', ?_, htype'⟩
        rw [hlist, hentities, List.append_assoc]
        rfl

/-- **Building a cache** succeeds exactly when no key is held twice, and fails with the first one
that is. The cache lists the entities in the order given and indexes them all. -/
theorem ofEntities_spec (pool : Pool) (type : String) (hs : List Handle) :
    match ofEntities pool type hs with
    | .error e => repeatedKey? pool type [] [] hs = some e
    | .ok c => repeatedKey? pool type [] [] hs = none ∧ c.Indexed pool ∧ c.entities = hs ∧
        c.type = type := by
  have hempty : (empty type).Indexed pool := ⟨rfl, Index.covers_nil, Index.covers_nil⟩
  rw [ofEntities_eq]
  exact foldlM_enlist hempty (fun _ => rfl) (fun _ => rfl) hs

end Cache

end EntityStore
