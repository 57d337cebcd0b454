import EntityStore.Proofs.Cache.Edits

/-!
# Changing a cache

A cache that is *keyed* lists living entities of its type, none of them twice and no two of one
id, and its index by id either covers the list or is marked stale. Every operation keeps that; no
operation on a keyed cache can bring an id in twice. The index by slug is another matter, since a
slug may change with the entity: it is only as good as the entities are left alone.

What an operation can do is said once for each of them. Applying a change to a keyed cache then
edits the roster it stands for, or fails and leaves the roster as it is.
-/

namespace EntityStore

namespace Cache

/-- A cache that lists entities of its type by unique ids. -/
structure Keyed (pool : Pool) (c : Cache) : Prop where
  /-- What is listed lives. -/
  live : ∀ h ∈ c.entities, h < pool.next
  /-- What is listed is of the type. -/
  typed : ∀ h ∈ c.entities, pool.typeName h = c.type
  /-- Nothing is listed twice. -/
  nodup : c.entities.Nodup
  /-- No id is held twice. -/
  ids : (pool.roster c.entities).ids.Nodup
  /-- Unless it is stale, the index by id is complete. -/
  byId : c.stale = true ∨ c.byId.Covers pool.id c.entities

/-- Unless the indexes are stale, a slug that is found is held. -/
def SlugSound (pool : Pool) (c : Cache) : Prop :=
  c.stale = true ∨ c.bySlug.Sound pool.slug c.entities

variable {pool : Pool} {c c' : Cache} {h : Handle}

/-- A cache stays keyed while its entities keep their types and ids. -/
theorem Keyed.congr_keys {pool' : Pool} (hc : c.Keyed pool) (hnext : pool.next ≤ pool'.next)
    (hid : ∀ h ∈ c.entities, pool'.id h = pool.id h)
    (htype : ∀ h ∈ c.entities, pool'.typeName h = pool.typeName h) : c.Keyed pool' where
  live := fun h hh => Nat.lt_of_lt_of_le (hc.live h hh) hnext
  typed := fun h hh => (htype h hh).trans (hc.typed h hh)
  nodup := hc.nodup
  ids := by
    rw [Pool.ids_roster, List.filterMap_congr hid, ← Pool.ids_roster]
    exact hc.ids
  byId := hc.byId.imp_right fun hix => hix.congr hid

/-- Listed entities that live on as they are keep a cache keyed. -/
theorem Keyed.congr {pool' : Pool} (hc : c.Keyed pool) (hnext : pool.next ≤ pool'.next)
    (he : ∀ h ∈ c.entities, pool'.entity h = pool.entity h) : c.Keyed pool' :=
  hc.congr_keys hnext (fun h hh => by rw [Pool.id, Pool.id, he h hh])
    fun h hh => by rw [Pool.typeName, Pool.typeName, he h hh]

theorem Keyed.extends {pool' : Pool} (hc : c.Keyed pool) (hext : pool.Extends pool') :
    c.Keyed pool' :=
  hc.congr hext.next_le fun h hh => hext.kept h (hc.live h hh)

theorem SlugSound.congr {pool' : Pool} (hc : c.SlugSound pool)
    (he : ∀ h ∈ c.entities, pool'.entity h = pool.entity h) : c.SlugSound pool' :=
  hc.imp_right fun hix => hix.congr fun h hh => by rw [Pool.slug, Pool.slug, he h hh]

theorem Keyed.refresh (hc : c.Keyed pool) : (c.refresh pool).Keyed pool := by
  refine ⟨?_, ?_, ?_, ?_, ?_⟩
  · rw [entities_refresh]
    exact hc.live
  · rw [entities_refresh, type_refresh]
    exact hc.typed
  · rw [entities_refresh]
    exact hc.nodup
  · rw [entities_refresh]
    exact hc.ids
  · unfold Cache.refresh
    split
    · exact .inr (covers_rebuild pool c).1
    · exact hc.byId

theorem Keyed.rebuild (hc : c.Keyed pool) : (c.rebuild pool).Keyed pool :=
  ⟨hc.live, hc.typed, hc.nodup, hc.ids, .inr (covers_rebuild pool c).1⟩

/-- Once it is refreshed, the index by id covers the list. -/
theorem Keyed.covers_refresh (hc : c.Keyed pool) :
    (c.refresh pool).byId.Covers pool.id c.entities := by
  unfold Cache.refresh
  split
  · exact (covers_rebuild pool c).1
  · next hstale => exact hc.byId.resolve_left hstale

theorem SlugSound.sound_refresh (hc : c.SlugSound pool) :
    (c.refresh pool).bySlug.Sound pool.slug c.entities := by
  unfold Cache.refresh
  split
  · exact (covers_rebuild pool c).2.toSound
  · next hstale => exact hc.resolve_left hstale

/-- Look-up by id finds the entity of the id. -/
theorem Keyed.getById (hc : c.Keyed pool) (id : EntityId) :
    (c.getById pool id).1 = pool.holder? id c.entities ∧
      (c.getById pool id).2 = c.refresh pool := by
  refine ⟨?_, rfl⟩
  show (c.refresh pool).byId.get? id = _
  cases hholder : pool.holder? id c.entities with
  | none =>
    rw [Pool.holder?_eq_none] at hholder
    refine Option.not_isSome_iff_eq_none.mp ?_
    intro hsome
    obtain ⟨h, hh, hid⟩ := hc.covers_refresh.isSome_iff.mp hsome
    exact hholder h hh hid
  | some h =>
    obtain ⟨hh, hid⟩ := Pool.holder?_eq_some hholder
    exact hc.covers_refresh.get?_eq hh hid fun g hg hgid => Pool.eq_of_id_eq hc.ids hg hh hgid hid

/-- An entity that is not refused has an id that nobody holds. -/
theorem Keyed.not_mem_ids (hc : c.Keyed pool) (hnone : (c.refresh pool).conflict? pool h = none) :
    ∀ id ∈ pool.id h, id ∉ (pool.roster c.entities).ids := by
  intro id hid hmem
  obtain ⟨g, hg, hgid⟩ := Pool.mem_ids_roster.mp hmem
  have hsome := hc.covers_refresh.complete hg hgid
  rw [(conflict?_eq_none.mp hnone).1 id hid] at hsome
  cases hsome

/-! ## What each operation does -/

/-- A cache with one more entity, whose keys are entered and go stale. -/
def append (pool : Pool) (h : Handle) (c : Cache) : Cache :=
  { c.enter pool h with entities := c.entities ++ [h], stale := true }

/-- Adding: an entity that is listed stays where it is, a taken key is refused, and what is new
comes to the end of the list. -/
theorem add_cases (pool : Pool) (h : Handle) (c : Cache) :
    (h ∈ c.entities ∧ c.add pool h = (.ok (), c.refresh pool)) ∨
      (h ∉ c.entities ∧ ∃ e, (c.refresh pool).conflict? pool h = some e ∧
        c.add pool h = (.error e, c.refresh pool)) ∨
      (h ∉ c.entities ∧ (c.refresh pool).conflict? pool h = none ∧
        c.add pool h = (.ok (), (c.refresh pool).append pool h)) := by
  have hcontains : (c.refresh pool).contains h = true ↔ h ∈ c.entities := by
    rw [contains, entities_refresh, List.contains_eq_mem, decide_eq_true_eq]
  unfold add
  by_cases hmem : h ∈ c.entities
  · exact .inl ⟨hmem, if_pos (hcontains.mpr hmem)⟩
  · simp only [if_neg (mt hcontains.mp hmem)]
    cases hconflict : (c.refresh pool).conflict? pool h with
    | some e => exact .inr (.inl ⟨hmem, e, rfl, rfl⟩)
    | none => exact .inr (.inr ⟨hmem, rfl, rfl⟩)

/-- Removing: the entity itself goes if it is listed, and else the one of its id. -/
theorem remove_cases (pool : Pool) (h : Handle) (c : Cache) :
    ((∀ g ∈ c.entities, g ≠ h ∧ ∀ id, pool.id h = some id → pool.id g ≠ some id) ∧
        c.remove pool h = (.error (.notFound c.type (pool.id h)), c)) ∨
      ∃ gone ∈ c.entities, (gone = h ∨ ∃ id, pool.id h = some id ∧ pool.id gone = some id) ∧
        c.remove pool h = (.ok gone, { c with
          entities := c.entities.erase gone
          byId := c.byId.drop gone
          bySlug := c.bySlug.drop gone }) := by
  unfold remove Pool.counterpart?
  by_cases hmem : h ∈ c.entities
  · rw [List.contains_eq_mem, decide_eq_true hmem, if_pos rfl]
    exact .inr ⟨h, hmem, .inl rfl, rfl⟩
  · rw [List.contains_eq_mem, decide_eq_false hmem, if_neg Bool.false_ne_true]
    cases hid : pool.id h with
    | none =>
      refine .inl ⟨?_, rfl⟩
      intro g hg
      exact ⟨fun heq => hmem (heq ▸ hg), fun _ heq => by cases heq⟩
    | some id =>
      cases hholder : pool.holder? id c.entities with
      | none =>
        simp only [Option.bind_some, hholder]
        refine .inl ⟨?_, trivial⟩
        intro g hg
        refine ⟨fun heq => hmem (heq ▸ hg), ?_⟩
        intro i hi
        rw [← Option.some.inj hi]
        exact Pool.holder?_eq_none.mp hholder g hg
      | some gone =>
        simp only [Option.bind_some, hholder]
        obtain ⟨hgone, hgid⟩ := Pool.holder?_eq_some hholder
        exact .inr ⟨gone, hgone, .inr ⟨id, rfl, hgid⟩, rfl⟩

/-- Swapping in: the new entity stands where the one of its id stood. -/
theorem swapIn_cases (pool : Pool) (h : Handle) (c : Cache) :
    ((∀ g ∈ c.entities, ∀ id, pool.id h = some id → pool.id g ≠ some id) ∧
        c.swapIn pool h = .error (.notFound c.type (pool.id h))) ∨
      ∃ old ∈ c.entities, ∃ id, pool.id h = some id ∧ pool.id old = some id ∧
        c.swapIn pool h = .ok { c with entities := c.entities.replace old h, stale := true } := by
  unfold swapIn
  cases hid : pool.id h with
  | none => exact .inl ⟨fun _ _ _ heq => absurd heq.symm (Option.some_ne_none _), rfl⟩
  | some id =>
    cases hholder : pool.holder? id c.entities with
    | none =>
      simp only [Option.bind_some, hholder]
      refine .inl ⟨?_, trivial⟩
      intro g hg i hi
      rw [← Option.some.inj hi]
      exact Pool.holder?_eq_none.mp hholder g hg
    | some old =>
      simp only [Option.bind_some, hholder]
      obtain ⟨hold, hoid⟩ := Pool.holder?_eq_some hholder
      exact .inr ⟨old, hold, id, rfl, hoid, rfl⟩

/-! ## What is kept -/

theorem entities_append (pool : Pool) (h : Handle) (c : Cache) :
    (c.append pool h).entities = c.entities ++ [h] := rfl

theorem Keyed.append (hc : c.Keyed pool) (hlive : h < pool.next) (htyped : pool.typeName h = c.type)
    (hmem : h ∉ c.entities) (hid : ∀ id ∈ pool.id h, id ∉ (pool.roster c.entities).ids) :
    (c.append pool h).Keyed pool where
  live := List.forall_mem_append.mpr ⟨hc.live, List.forall_mem_singleton.mpr hlive⟩
  typed := List.forall_mem_append.mpr ⟨hc.typed, List.forall_mem_singleton.mpr htyped⟩
  nodup := by
    rw [entities_append, List.nodup_append]
    refine ⟨hc.nodup, List.nodup_singleton h, ?_⟩
    intro g hg k hk heq
    rw [List.mem_singleton.mp hk] at heq
    exact hmem (heq ▸ hg)
  ids := by
    rw [entities_append, Pool.roster_append, Roster.ids_append, List.nodup_append]
    refine ⟨hc.ids, ?_, ?_⟩
    · rw [Pool.roster_cons, Roster.ids_cons]
      cases (pool.entity h).id <;> simp [Pool.roster, Roster.ids]
    · intro id hold id' hnew heq
      obtain ⟨k, hk, hkid⟩ := Pool.mem_ids_roster.mp hnew
      rw [List.mem_singleton.mp hk, ← heq] at hkid
      exact hid id hkid hold
  byId := .inl rfl

/-- A cache that an entity has left. -/
def without (gone : Handle) (c : Cache) : Cache :=
  { c with
    entities := c.entities.erase gone
    byId := c.byId.drop gone
    bySlug := c.bySlug.drop gone }

theorem Keyed.without (hc : c.Keyed pool) (gone : Handle) (hgone : gone ∈ c.entities) :
    (c.without gone).Keyed pool where
  live := fun h hh => hc.live h (List.mem_of_mem_erase hh)
  typed := fun h hh => hc.typed h (List.mem_of_mem_erase hh)
  nodup := hc.nodup.erase gone
  ids := hc.ids.sublist (((List.erase_sublist).map _).filterMap _)
  byId := hc.byId.imp_right fun hix =>
    hix.drop hc.nodup fun _ hg _ hgid hid => Pool.eq_of_id_eq hc.ids hg hgone hgid hid

/-- What stays when an entity with an id leaves is what has another id. -/
theorem Keyed.roster_erase (hc : c.Keyed pool) {gone : Handle} (hgone : gone ∈ c.entities)
    {id : EntityId} (hid : pool.id gone = some id) :
    pool.roster (c.entities.erase gone)
      = (pool.roster c.entities).filter fun e => e.id ≠ some id := by
  rw [hc.nodup.erase_eq_filter, Pool.roster, Pool.roster, List.filter_map]
  congr 1
  refine List.filter_congr fun h hh => ?_
  show (h != gone) = decide (pool.id h ≠ some id)
  by_cases heq : h = gone
  · rw [heq, hid]
    simp
  · have hne : pool.id h ≠ some id := fun hhid => heq (Pool.eq_of_id_eq hc.ids hh hgone hhid hid)
    rw [decide_eq_true hne]
    simpa using heq

/-- Putting an entity in the place of the one of its id. -/
theorem Keyed.roster_replace (hc : c.Keyed pool) {old : Handle} (hold : old ∈ c.entities)
    {id : EntityId} (hid : pool.id old = some id) :
    pool.roster (c.entities.replace old h)
      = (pool.roster c.entities).map fun e => if e.id = some id then pool.entity h else e := by
  rw [replace_eq_map hc.nodup, Pool.roster, Pool.roster, List.map_map, List.map_map]
  refine List.map_congr_left fun g hg => ?_
  show pool.entity (if g = old then h else g)
    = if pool.id g = some id then pool.entity h else pool.entity g
  by_cases heq : g = old
  · rw [if_pos heq, if_pos (heq ▸ hid)]
  · rw [if_neg heq, if_neg fun hgid => heq (Pool.eq_of_id_eq hc.ids hg hold hgid hid)]

/-- The list with an entity in the place of the one of its id. -/
theorem Keyed.replace_listed (hc : c.Keyed pool) (hlive : h < pool.next)
    (htyped : pool.typeName h = c.type) {old : Handle} (hold : old ∈ c.entities) {id : EntityId}
    (hid : pool.id old = some id) (hhid : pool.id h = some id) :
    (∀ g ∈ c.entities.replace old h, g < pool.next ∧ pool.typeName g = c.type) ∧
      (c.entities.replace old h).Nodup ∧
      (pool.roster (c.entities.replace old h)).ids = (pool.roster c.entities).ids := by
  refine ⟨?_, ?_, ?_⟩
  · intro g hg
    rcases (mem_replace hc.nodup hold).mp hg with rfl | ⟨hg, -⟩
    · exact ⟨hlive, htyped⟩
    · exact ⟨hc.live g hg, hc.typed g hg⟩
  · exact nodup_replace hc.nodup fun hh => Pool.eq_of_id_eq hc.ids hh hold hhid hid
  · rw [hc.roster_replace hold hid, Roster.ids, Roster.ids, List.filterMap_map]
    refine List.filterMap_congr fun e _ => ?_
    show Entity.id (if e.id = some id then pool.entity h else e) = e.id
    split
    · next heid => rw [heid]; exact hhid
    · rfl

theorem Keyed.swapIn (hc : c.Keyed pool) (hlive : h < pool.next) (htyped : pool.typeName h = c.type)
    {old : Handle} (hold : old ∈ c.entities) {id : EntityId} (hid : pool.id old = some id)
    (hhid : pool.id h = some id) :
    Keyed pool { c with entities := c.entities.replace old h, stale := true } := by
  obtain ⟨hlisted, hnodup, hids⟩ := hc.replace_listed hlive htyped hold hid hhid
  exact ⟨fun g hg => (hlisted g hg).1, fun g hg => (hlisted g hg).2, hnodup, hids ▸ hc.ids, .inl rfl⟩

/-! ## Applying a change -/

/-- A cache to which changes are being applied. What it lists without an id was made for it, and
is known to nobody else. -/
structure Staged (n : Handle) (pool : Pool) (c : Cache) : Prop extends Keyed pool c where
  slugs : c.SlugSound pool
  /-- What has no id was made since the handle `n` was next. -/
  newcomers : ∀ h ∈ c.entities, pool.id h = none → n ≤ h

theorem Staged.conflict?_eq_none {n : Handle} (hc : c.Staged n pool)
    (hid : ∀ id ∈ pool.id h, id ∉ (pool.roster c.entities).ids)
    (hslug : ∀ slug ∈ pool.slug h, slug ∉ (pool.roster c.entities).slugs) :
    (c.refresh pool).conflict? pool h = none := by
  refine Cache.conflict?_eq_none.mpr ⟨?_, ?_⟩
  · intro id hmem
    refine Option.not_isSome_iff_eq_none.mp fun hsome => ?_
    exact hid id hmem (Pool.mem_ids_roster.mpr (hc.covers_refresh.isSome_iff.mp hsome))
  · intro slug hmem
    refine Option.not_isSome_iff_eq_none.mp fun hsome => ?_
    obtain ⟨g, hget⟩ := Option.isSome_iff_exists.mp hsome
    exact hslug slug hmem (Pool.mem_slugs_roster.mpr ⟨g, hc.slugs.sound_refresh.sound hget⟩)

variable {n : Handle}

theorem Staged.extends {pool' : Pool} (hc : c.Staged n pool) (hext : pool.Extends pool') :
    c.Staged n pool' where
  toKeyed := hc.toKeyed.extends hext
  slugs := hc.slugs.congr fun h hh => hext.kept h (hc.live h hh)
  newcomers := fun h hh hid => hc.newcomers h hh (by rw [← hid, hext.id (hc.live h hh)])

theorem Staged.refresh (hc : c.Staged n pool) : (c.refresh pool).Staged n pool where
  toKeyed := hc.toKeyed.refresh
  slugs := by
    refine .inr ?_
    rw [entities_refresh]
    exact hc.slugs.sound_refresh
  newcomers := by
    rw [entities_refresh]
    exact hc.newcomers

/-- What applying a change to a cache comes to: the cache is still a staged one, and either it
reads as edited, and the edit fits, or the edit does not fit or takes a slug that is held. -/
structure Applied (n : Handle) (pool : Pool) (c : Cache) (edit : Edit)
    (out : Except StoreError Unit × Cache × Pool) : Prop where
  extended : pool.Extends out.2.2
  holds : ∀ {P}, Lasting P → pool.Holds P → out.2.2.Holds P
  type : out.2.1.type = c.type
  staged : out.2.1.Staged n out.2.2
  edited : out.1 = .ok () → (pool.roster c.entities).Fits edit ∧
    out.2.2.roster out.2.1.entities = (pool.roster c.entities).edit edit
  refused : out.1 ≠ .ok () →
    ¬ ((pool.roster c.entities).Fits edit ∧ (pool.roster c.entities).SlugFree edit)

/-- A change is applied with a copy of its entity, in a pool that has nothing else besides. -/
theorem exists_detached (hlive : h < pool.next) :
    ∃ pool', pool' = (pool.detach h).2 ∧ pool.Extends pool' ∧
      (∀ {P}, Lasting P → pool.Holds P → pool'.Holds P) ∧
      pool'.entity pool.next = pool.entity h ∧ pool.next < pool'.next :=
  ⟨_, rfl, Pool.extends_alloc pool _, fun hP hp => hp.detach hP hlive, Pool.entity_alloc_self pool _,
    Nat.lt_succ_self _⟩

theorem applied_add (hc : c.Staged n pool) (hn : n ≤ pool.next) (hlive : h < pool.next)
    (htyped : pool.typeName h = c.type) :
    Applied n pool c ⟨.add, pool.entity h⟩ (c.apply ⟨.add, h⟩ pool) := by
  obtain ⟨pool', hpool', hext, hholds, hcopy, hnext⟩ := exists_detached hlive
  have hroster : pool'.roster c.entities = pool.roster c.entities := hext.roster hc.live
  have hc' := hc.extends hext
  have hnot : pool.next ∉ c.entities := fun hmem => Nat.lt_irrefl _ (hc.live _ hmem)
  have happly : c.apply ⟨.add, h⟩ pool
      = ((c.add pool' pool.next).1, (c.add pool' pool.next).2, pool') := by
    simp only [apply, htyped, ne_eq, not_true_eq_false, if_false, hpool']
    rfl
  have hids : ∀ id, pool'.id pool.next = some id ↔ (pool.entity h).id = some id := by
    intro id
    rw [Pool.id, hcopy]
  rw [happly]
  rcases add_cases pool' pool.next c with ⟨hmem, -⟩ | ⟨-, e, hconflict, hadd⟩ | ⟨-, hconflict, hadd⟩
  · exact absurd hmem hnot
  · rw [hadd]
    refine ⟨hext, hholds, type_refresh pool' c, hc'.refresh, (fun hok => by cases hok), ?_⟩
    rintro - ⟨hfits, hfree⟩
    have hfitting : (c.refresh pool').conflict? pool' pool.next = none := by
      refine hc'.conflict?_eq_none ?_ ?_
      · rw [hroster]
        intro id hid
        exact hfits id ((hids id).mp hid)
      · rw [hroster, Pool.slug, hcopy]
        exact hfree rfl
    rw [hconflict] at hfitting
    cases hfitting
  · rw [hadd]
    have hnew := hc'.toKeyed.not_mem_ids hconflict
    have htyped' : pool'.typeName pool.next = (c.refresh pool').type := by
      rw [Pool.typeName, hcopy, type_refresh]
      exact htyped
    refine ⟨hext, hholds, type_refresh pool' c, ⟨?_, .inl rfl, ?_⟩, ?_, fun herr => absurd rfl herr⟩
    · refine hc'.refresh.toKeyed.append hnext htyped' ?_ ?_
      · rw [entities_refresh]
        exact hnot
      · rw [entities_refresh]
        exact hnew
    · rw [entities_append, entities_refresh]
      refine List.forall_mem_append.mpr ⟨hc'.newcomers, ?_⟩
      exact List.forall_mem_singleton.mpr fun _ => hn
    · rintro -
      refine ⟨?_, ?_⟩
      · intro id hid
        rw [← hroster]
        exact hnew id ((hids id).mpr hid)
      · rw [entities_append, entities_refresh, Pool.roster_append, hroster,
          Roster.edit_add rfl, Pool.roster_cons, hcopy]
        rfl

theorem applied_update (hc : c.Staged n pool) (hlive : h < pool.next)
    (htyped : pool.typeName h = c.type) :
    Applied n pool c ⟨.update, pool.entity h⟩ (c.apply ⟨.update, h⟩ pool) := by
  obtain ⟨pool', hpool', hext, hholds, hcopy, hnext⟩ := exists_detached hlive
  have hroster : pool'.roster c.entities = pool.roster c.entities := hext.roster hc.live
  have hc' := hc.extends hext
  have happly : c.apply ⟨.update, h⟩ pool
      = ((c.swapIn pool' pool.next).map fun _ => (),
          (c.swapIn pool' pool.next).toOption.getD c, pool') := by
    simp only [apply, htyped, ne_eq, not_true_eq_false, if_false, hpool']
    show _ = ((c.swapIn (pool.detach h).2 (pool.detach h).1).map fun _ => (),
      (c.swapIn (pool.detach h).2 (pool.detach h).1).toOption.getD c, (pool.detach h).2)
    cases c.swapIn (pool.detach h).2 (pool.detach h).1 <;> rfl
  have hids : ∀ id, pool'.id pool.next = some id ↔ (pool.entity h).id = some id := by
    intro id
    rw [Pool.id, hcopy]
  rw [happly]
  rcases swapIn_cases pool' pool.next c with ⟨habsent, hswap⟩ | ⟨old, hold, id, hid, hoid, hswap⟩
  · rw [hswap]
    refine ⟨hext, hholds, rfl, hc', (fun hok => by cases hok), ?_⟩
    rintro - ⟨⟨id, hmem, hid⟩, -⟩
    rw [← hroster] at hmem
    obtain ⟨g, hg, hgid⟩ := Pool.mem_ids_roster.mp hmem
    exact habsent g hg id ((hids id).mpr hid) hgid
  · rw [hswap]
    have htyped' : pool'.typeName pool.next = c.type := by
      rw [Pool.typeName, hcopy]
      exact htyped
    have hid' := (hids id).mp hid
    refine ⟨hext, hholds, rfl, ⟨?_, .inl rfl, ?_⟩, ?_, fun herr => absurd rfl herr⟩
    · exact hc'.toKeyed.swapIn hnext htyped' hold hoid hid
    · intro g hg hnone
      rcases (mem_replace hc.nodup hold).mp hg with rfl | ⟨hg, -⟩
      · rw [hid] at hnone
        cases hnone
      · exact hc'.newcomers g hg hnone
    · rintro -
      refine ⟨⟨id, ?_, hid'⟩, ?_⟩
      · rw [← hroster]
        exact Pool.mem_ids_roster.mpr ⟨old, hold, hoid⟩
      · rw [Roster.edit_update rfl hid', ← hroster, ← hcopy]
        exact hc'.toKeyed.roster_replace hold hoid

theorem applied_remove (hc : c.Staged n pool) (hold : h < n)
    (htyped : pool.typeName h = c.type) :
    Applied n pool c ⟨.remove, pool.entity h⟩ (c.apply ⟨.remove, h⟩ pool) := by
  have happly : c.apply ⟨.remove, h⟩ pool
      = ((c.remove pool h).1.map fun _ => (), (c.remove pool h).2, pool) := by
    simp only [apply, htyped, ne_eq, not_true_eq_false, if_false]
  rw [happly]
  rcases remove_cases pool h c with ⟨habsent, hremove⟩ | ⟨gone, hgone, hsame, hremove⟩
  · rw [hremove]
    refine ⟨.refl pool, (fun _ hp => hp), rfl, hc, (fun hok => by cases hok), ?_⟩
    rintro - ⟨⟨id, hmem, hid⟩, -⟩
    obtain ⟨g, hg, hgid⟩ := Pool.mem_ids_roster.mp hmem
    exact (habsent g hg).2 id hid hgid
  · rw [hremove]
    -- an entity that is listed itself has an id, since the caller has its handle
    obtain ⟨id, hid, hgid⟩ : ∃ id, pool.id h = some id ∧ pool.id gone = some id := by
      rcases hsame with rfl | hsame
      · cases hid : pool.id gone with
        | none => exact absurd (hc.newcomers gone hgone hid) (Nat.not_le.mpr hold)
        | some id => exact ⟨id, rfl, rfl⟩
      · exact hsame
    refine ⟨.refl pool, (fun _ hp => hp), rfl, ⟨?_, ?_, ?_⟩, ?_, fun herr => absurd rfl herr⟩
    · exact hc.toKeyed.without gone hgone
    · exact hc.slugs.imp_right fun hix => hix.drop gone
    · intro g hg hnone
      exact hc.newcomers g (List.mem_of_mem_erase hg) hnone
    · rintro -
      refine ⟨⟨id, Pool.mem_ids_roster.mpr ⟨gone, hgone, hgid⟩, hid⟩, ?_⟩
      rw [Roster.edit_remove rfl hid]
      exact hc.toKeyed.roster_erase hgone hgid

/-- **Applying a change** to a staged cache edits the roster it stands for. -/
theorem applied (hc : c.Staged n pool) (hn : n ≤ pool.next) {change : Change}
    (hold : change.entity < n) (htyped : pool.typeName change.entity = c.type) :
    Applied n pool c (change.edit pool) (c.apply change pool) := by
  obtain ⟨kind, h⟩ := change
  have hlive : h < pool.next := Nat.lt_of_lt_of_le hold hn
  cases kind with
  | add => exact applied_add hc hn hlive htyped
  | update => exact applied_update hc hlive htyped
  | remove => exact applied_remove hc hold htyped

/-! ## Replacing an entity

A session puts an entity in the place of the one with the same id. Unlike the update of a commit
this looks at the slug at once and leaves the indexes up to date. -/

section Replacing

variable {old : Handle} {id : EntityId}

/-- A cache in which an entity has taken the place of another. -/
def exchange (pool : Pool) (old h : Handle) (c : Cache) : Cache :=
  { c with entities := c.entities.replace old h, bySlug := c.bySlug.drop old }.enter pool h

theorem type_exchange : (c.exchange pool old h).type = c.type := rfl

theorem entities_exchange : (c.exchange pool old h).entities = c.entities.replace old h := rfl

/-- Replacing, whatever the indexes are worth: the entity that is found under the id gives its
place, unless the slug is found to be taken; or else nothing changes. -/
theorem replace_outcomes (pool : Pool) (h : Handle) (c : Cache) :
    (∃ e, c.replace pool h = (.error e, c.refresh pool)) ∨
      ∃ old ∈ c.entities, ∃ id, pool.id h = some id ∧
        (c.refresh pool).byId.get? id = some old ∧
        (∀ slug ∈ pool.slug h, ∀ g, (c.refresh pool).bySlug.get? slug = some g → g = old ∨ g = h) ∧
        c.replace pool h = (.ok old, (c.refresh pool).exchange pool old h) := by
  unfold replace
  simp only
  cases hreplaced : (c.refresh pool).replaced? pool h with
  | none => exact .inl ⟨_, rfl⟩
  | some old =>
    obtain ⟨id, hid, hfound⟩ := Option.bind_eq_some_iff.mp hreplaced
    obtain ⟨hget, hlisted⟩ := Option.filter_eq_some_iff.mp hfound
    simp only
    cases htaken : (c.refresh pool).slugTaken? pool h old with
    | some slug => exact .inl ⟨_, rfl⟩
    | none =>
      refine .inr ⟨old, ?_, id, hid, hget, ?_, rfl⟩
      · simpa [contains] using hlisted
      · intro slug hslug g hg
        have hfree := Option.filter_eq_none_iff.mp htaken slug hslug
        simp only [hg, Option.any_some, Bool.and_eq_true, bne_iff_ne, ne_eq, not_and, not_not] at hfree
        exact or_iff_not_imp_left.mpr hfree

/-- Replacing: the entity stands where the one of its id stood, or nothing changes. -/
theorem replace_cases (hc : c.Keyed pool) (h : Handle) :
    (∃ e, c.replace pool h = (.error e, c.refresh pool)) ∨
      ∃ old ∈ c.entities, ∃ id, pool.id h = some id ∧ pool.id old = some id ∧
        c.replace pool h = (.ok old, (c.refresh pool).exchange pool old h) := by
  rcases replace_outcomes pool h c with hrefused | ⟨old, hold, id, hid, hget, -, hreplace⟩
  · exact .inl hrefused
  · exact .inr ⟨old, hold, id, hid, (hc.covers_refresh.sound hget).2, hreplace⟩

theorem Keyed.exchange (hc : c.Keyed pool) (hlive : h < pool.next) (htyped : pool.typeName h = c.type)
    (hold : old ∈ c.entities) (hoid : pool.id old = some id) (hid : pool.id h = some id) :
    (c.exchange pool old h).Keyed pool := by
  obtain ⟨hlisted, hnodup, hids⟩ := hc.replace_listed hlive htyped hold hoid hid
  refine ⟨fun g hg => (hlisted g hg).1, fun g hg => (hlisted g hg).2, hnodup, ?_, ?_⟩
  · rw [entities_exchange, hids]
    exact hc.ids
  · refine hc.byId.imp_right fun hix => ?_
    have hput : (c.exchange pool old h).byId = c.byId.put id h := by
      rw [Cache.exchange, byId_enter, enterKey, hid]
    rw [entities_exchange, hput]
    exact hix.replace hc.nodup hold hid hoid fun g hg hgid => Pool.eq_of_id_eq hc.ids hg hold hgid hoid

end Replacing

end Cache

end EntityStore
