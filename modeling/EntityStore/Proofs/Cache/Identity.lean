import EntityStore.Proofs.Cache.Shelves
import EntityStore.Proofs.Repository.Lookups

/-!
# Identity in a cache

A cache starts with entities that share no key, and no operation lets another one in whose keys
are taken. If whoever edits its entities keeps their keys apart as well and invalidates the cache
at once, and if a generator of ids yields only new ones, of which no slug is made that another
entity has, then at every point nothing is listed twice, no key is held twice, and what is found
under a key is listed and holds it: an entity that was removed or replaced is never found again.

Both provisos are needed. Numbering looks at ids alone, so two slugs that are made of ids may come
to be one; and between an edit and the invalidation that goes with it the indexes are those of
before.
-/

namespace EntityStore

open Cache

/-- Lists of the same entities have unique keys or not alike. -/
theorem Pool.uniqueKeys_perm {pool : Pool} {hs ks : List Handle} (h : hs.Perm ks) :
    (pool.roster hs).UniqueKeys ↔ (pool.roster ks).UniqueKeys :=
  Roster.uniqueKeys_perm (h.map pool.entity)

theorem Index.Covers.perm {κ : Type} [DecidableEq κ] {ix : Index κ} {key : Handle → Option κ}
    {hs ks : List Handle} (hix : ix.Covers key hs) (h : hs.Perm ks) : ix.Covers key ks where
  distinct := hix.distinct
  sound := fun hget => (hix.sound hget).imp_left h.mem_iff.mp
  complete := fun hmem => hix.complete (h.mem_iff.mpr hmem)

namespace Cache

variable {pool : Pool} {c : Cache} {h : Handle}

/-- A cache that lists nothing twice and holds no key twice, and whose indexes cover the list
unless they are stale. -/
structure Orderly (pool : Pool) (c : Cache) : Prop where
  nodup : c.entities.Nodup
  unique : (pool.roster c.entities).UniqueKeys
  indexed : c.stale = true ∨
    c.byId.Covers pool.id c.entities ∧ c.bySlug.Covers pool.slug c.entities

namespace Orderly

theorem empty (pool : Pool) (type : String) : (Cache.empty type).Orderly pool :=
  ⟨List.nodup_nil, ⟨List.nodup_nil, List.nodup_nil⟩, .inr ⟨Index.covers_nil, Index.covers_nil⟩⟩

theorem ofEntities {type : String} {hs : List Handle} (hnodup : hs.Nodup)
    (hc : Cache.ofEntities pool type hs = .ok c) : c.Orderly pool := by
  have hspec := ofEntities_spec pool type hs
  rw [hc] at hspec
  obtain ⟨hnone, hindexed, rfl, -⟩ := hspec
  exact ⟨hnodup, (repeatedKey?_eq_none.mp hnone).1, .inr ⟨hindexed.byId, hindexed.bySlug⟩⟩

/-- Once refreshed, both indexes cover the list. -/
theorem covers_refresh (hc : c.Orderly pool) :
    (c.refresh pool).byId.Covers pool.id c.entities ∧
      (c.refresh pool).bySlug.Covers pool.slug c.entities := by
  unfold Cache.refresh
  split
  · exact covers_rebuild pool c
  · next hstale => exact hc.indexed.resolve_left hstale

theorem refresh (hc : c.Orderly pool) : (c.refresh pool).Orderly pool where
  nodup := by
    rw [entities_refresh]
    exact hc.nodup
  unique := by
    rw [entities_refresh]
    exact hc.unique
  indexed := by
    rw [entities_refresh]
    exact .inr hc.covers_refresh

theorem rebuild (hc : c.Orderly pool) : (c.rebuild pool).Orderly pool :=
  ⟨hc.nodup, hc.unique, .inr (covers_rebuild pool c)⟩

theorem invalidate (hc : c.Orderly pool) : c.invalidate.Orderly pool :=
  ⟨hc.nodup, hc.unique, .inl rfl⟩

theorem append (hc : c.Orderly pool) (hh : h ∉ c.entities)
    (hfree : (c.refresh pool).conflict? pool h = none) :
    ((c.refresh pool).append pool h).Orderly pool := by
  obtain ⟨hbyId, hbySlug⟩ := hc.covers_refresh
  obtain ⟨hnoId, hnoSlug⟩ := conflict?_eq_none.mp hfree
  have hperm : (c.entities ++ [h]).Perm (h :: c.entities) := List.perm_append_singleton h c.entities
  refine ⟨?_, ?_, .inl rfl⟩
  · rw [entities_append, entities_refresh, hperm.nodup_iff]
    exact List.nodup_cons.mpr ⟨hh, hc.nodup⟩
  · rw [entities_append, entities_refresh, Pool.uniqueKeys_perm hperm, Pool.roster_cons,
      Roster.uniqueKeys_cons]
    refine ⟨?_, ?_, hc.unique⟩
    · intro id hid htaken
      have hsome := hbyId.isSome_iff.mpr (Pool.mem_ids_roster.mp htaken)
      rw [hnoId id hid] at hsome
      cases hsome
    · intro slug hslug htaken
      have hsome := hbySlug.isSome_iff.mpr (Pool.mem_slugs_roster.mp htaken)
      rw [hnoSlug slug hslug] at hsome
      cases hsome

theorem add (hc : c.Orderly pool) (h : Handle) : (c.add pool h).2.Orderly pool := by
  rcases add_cases pool h c with ⟨-, hadd⟩ | ⟨-, e, -, hadd⟩ | ⟨hh, hfree, hadd⟩
  · rw [hadd]
    exact hc.refresh
  · rw [hadd]
    exact hc.refresh
  · rw [hadd]
    exact hc.append hh hfree

theorem without {gone : Handle} (hc : c.Orderly pool) (hgone : gone ∈ c.entities) :
    (c.without gone).Orderly pool where
  nodup := hc.nodup.erase gone
  unique :=
    (Roster.uniqueKeys_cons.mp ((Pool.uniqueKeys_perm (List.perm_cons_erase hgone)).mp hc.unique)).2.2
  indexed := hc.indexed.imp_right fun ⟨hbyId, hbySlug⟩ =>
    ⟨hbyId.drop hc.nodup fun _ hg _ hgid hid => Pool.eq_of_id_eq hc.unique.ids hg hgone hgid hid,
      hbySlug.drop hc.nodup fun _ hg _ hgslug hslug =>
        Pool.eq_of_slug_eq hc.unique.slugs hg hgone hgslug hslug⟩

theorem remove (hc : c.Orderly pool) (h : Handle) : (c.remove pool h).2.Orderly pool := by
  rcases remove_cases pool h c with ⟨-, hremove⟩ | ⟨gone, hgone, -, hremove⟩
  · rw [hremove]
    exact hc
  · rw [hremove]
    exact hc.without hgone

/-- An entity of the same id whose slug nobody else holds may take the place of another. -/
theorem exchange {old : Handle} {id : EntityId} (hc : c.Orderly pool) (hold : old ∈ c.entities)
    (hid : pool.id h = some id) (hoid : pool.id old = some id)
    (hslug : ∀ slug ∈ pool.slug h, ∀ g ∈ c.entities, pool.slug g = some slug → g = old ∨ g = h)
    (hfresh : c.stale = false) : (c.exchange pool old h).Orderly pool := by
  obtain ⟨hbyId, hbySlug⟩ := hc.indexed.resolve_left (by simp [hfresh])
  have hperm : (c.entities.replace old h).Perm (h :: c.entities.erase old) := perm_replace h hold
  -- nobody but `old` holds the id, so the new entity was not listed unless it is `old`
  have honly : ∀ {g}, g ∈ c.entities → pool.id g = some id → g = old :=
    fun hg hgid => Pool.eq_of_id_eq hc.unique.ids hg hold hgid hoid
  have hnew : h ∉ c.entities.erase old := by
    intro hmem
    obtain ⟨hne, hmem⟩ := hc.nodup.mem_erase_iff.mp hmem
    exact hne (honly hmem hid)
  have hrest : (c.without old).Orderly pool := hc.without hold
  refine ⟨?_, ?_, .inr ⟨?_, ?_⟩⟩
  · rw [entities_exchange, hperm.nodup_iff]
    exact List.nodup_cons.mpr ⟨hnew, hrest.nodup⟩
  · rw [entities_exchange, Pool.uniqueKeys_perm hperm, Pool.roster_cons, Roster.uniqueKeys_cons]
    refine ⟨?_, ?_, hrest.unique⟩
    · intro id' hid' htaken
      obtain rfl := Option.some.inj (hid.symm.trans hid')
      obtain ⟨g, hg, hgid⟩ := Pool.mem_ids_roster.mp htaken
      obtain ⟨hne, hg⟩ := hc.nodup.mem_erase_iff.mp hg
      exact hne (honly hg hgid)
    · intro slug hmem htaken
      obtain ⟨g, hg, hgslug⟩ := Pool.mem_slugs_roster.mp htaken
      obtain ⟨hne, hgc⟩ := hc.nodup.mem_erase_iff.mp hg
      rcases hslug slug hmem g hgc hgslug with heq | rfl
      · exact hne heq
      · exact hnew hg
  · have hput : (c.exchange pool old h).byId = c.byId.put id h := by
      rw [Cache.exchange, byId_enter, enterKey, hid]
    rw [entities_exchange, hput]
    exact hbyId.replace hc.nodup hold hid hoid fun g hg hgid => honly hg hgid
  · have hdrop : (c.bySlug.drop old).Covers pool.slug (c.entities.erase old) :=
      (hrest.indexed.resolve_left (by simp [Cache.without, hfresh])).2
    have hentered : (c.exchange pool old h).bySlug = enterKey pool.slug (c.bySlug.drop old) h := by
      rw [Cache.exchange, bySlug_enter]
    rw [entities_exchange, hentered]
    exact (covers_enterKey hdrop h).perm ((List.perm_append_singleton h _).trans hperm.symm)

theorem replace (hc : c.Orderly pool) (h : Handle) : (c.replace pool h).2.Orderly pool := by
  obtain ⟨hbyId, hbySlug⟩ := hc.covers_refresh
  rcases replace_outcomes pool h c with ⟨e, hreplace⟩ | ⟨old, hold, id, hid, hget, hslug, hreplace⟩
  · rw [hreplace]
    exact hc.refresh
  · rw [hreplace]
    refine hc.refresh.exchange ?_ hid (hbyId.sound hget).2 ?_ (stale_refresh pool c)
    · rw [entities_refresh]
      exact hold
    · rw [entities_refresh]
      intro slug hmem g hg hgslug
      refine hslug slug hmem g (hbySlug.get?_eq hg hgslug fun k hk hkslug => ?_)
      exact Pool.eq_of_slug_eq hc.unique.slugs hk hg hkslug hgslug

/-- An edit of an entity that is not listed. -/
theorem edit_of_not_mem {f : Entity → Entity} (hc : c.Orderly pool) (hh : h ∉ c.entities) :
    c.Orderly (pool.edit h f) := by
  have he : ∀ g ∈ c.entities, (pool.edit h f).entity g = pool.entity g :=
    fun g hg => Pool.entity_edit_of_ne fun heq => hh (heq ▸ hg)
  refine ⟨hc.nodup, ?_, hc.indexed.imp_right fun ⟨hbyId, hbySlug⟩ => ⟨?_, ?_⟩⟩
  · rw [roster_edit hh]
    exact hc.unique
  · exact hbyId.congr fun g hg => congrArg Entity.id (he g hg)
  · exact hbySlug.congr fun g hg => congrArg Entity.slug (he g hg)

/-- **What is found** is listed and holds the key, and what is listed is found by its keys. -/
theorem lookups (hc : c.Orderly pool) (h : Handle) :
    (∀ id, (c.getById pool id).1 = some h ↔ h ∈ c.entities ∧ pool.id h = some id) ∧
      ∀ slug, (c.getBySlug pool slug).1 = some h ↔ h ∈ c.entities ∧ pool.slug h = some slug := by
  obtain ⟨hbyId, hbySlug⟩ := hc.covers_refresh
  refine ⟨fun id => ⟨hbyId.sound, ?_⟩, fun slug => ⟨hbySlug.sound, ?_⟩⟩
  · rintro ⟨hh, hid⟩
    exact hbyId.get?_eq hh hid fun g hg hgid => Pool.eq_of_id_eq hc.unique.ids hg hh hgid hid
  · rintro ⟨hh, hslug⟩
    exact hbySlug.get?_eq hh hslug fun g hg hgslug =>
      Pool.eq_of_slug_eq hc.unique.slugs hg hh hgslug hslug

end Orderly

/-! ## Numbering -/

section Numbering

variable {σ : Type} {next : σ → Except StoreError EntityId × σ} {hs : List Handle} {s : σ}

/-- A generator that numbers the rest of a list: whenever it is asked it yields an id that nobody in
the list holds by then. -/
def Provides (next : σ → Except StoreError EntityId × σ) (hs : List Handle) :
    List Handle → Pool → σ → Prop
  | [], _, _ => True
  | h :: rest, pool, s =>
    match pool.id h with
    | some _ => Provides next hs rest pool s
    | none => ∃ id s', next s = (.ok id, s') ∧ id ∉ (pool.roster hs).ids ∧
        Provides next hs rest (pool.edit h fun e => e.setId (some id)) s'

/-- One entity is given a new id. -/
theorem nodup_ids_setId {id : EntityId} (hnodup : hs.Nodup) (hids : (pool.roster hs).ids.Nodup)
    (hh : h ∈ hs) (hid : id ∉ (pool.roster hs).ids) :
    ((pool.edit h fun e => e.setId (some id)).roster hs).ids.Nodup := by
  have hothers : h ∉ hs.erase h := hnodup.not_mem_erase
  have hperm : ∀ p : Pool,
      (p.roster hs).ids.Perm ((p.entity h).id.toList ++ (p.roster (hs.erase h)).ids) := by
    intro p
    rw [← Roster.ids_cons]
    exact ((List.perm_cons_erase hh).map p.entity).filterMap Entity.id
  rw [(hperm _).nodup_iff] at hids ⊢
  rw [Pool.entity_edit_self, roster_edit hothers]
  refine List.nodup_cons.mpr ⟨fun htaken => hid ?_, (List.nodup_append.mp hids).2.1⟩
  exact (hperm pool).mem_iff.mpr (List.mem_append_right _ htaken)

/-- What a generator provides for goes through, and leaves the ids of the list unique. If there was
nothing to number, nothing has changed. -/
theorem assignIds_provided (hnodup : hs.Nodup) (hids : (pool.roster hs).ids.Nodup) :
    ∀ {rest : List Handle}, (∀ h ∈ rest, h ∈ hs) → Provides next hs rest pool s →
      ∃ n, (assignIds next rest pool s).1 = .ok n ∧
        ((assignIds next rest pool s).2.1.roster hs).ids.Nodup ∧
        (n = 0 → (assignIds next rest pool s).2.1 = pool) := by
  intro rest
  induction rest generalizing pool s with
  | nil => exact fun _ _ => ⟨0, rfl, hids, fun _ => rfl⟩
  | cons h rest ih =>
    intro hmem hprovides
    obtain ⟨hh, hmem⟩ := List.forall_mem_cons.mp hmem
    cases hid : pool.id h with
    | some id =>
      rw [Provides, hid] at hprovides
      rw [assignIds_cons_of_id hid]
      exact ih hids hmem hprovides
    | none =>
      rw [Provides, hid] at hprovides
      obtain ⟨id, s', hnext, hfresh, hprovides⟩ := hprovides
      obtain ⟨n, hok, hids', -⟩ := ih (nodup_ids_setId hnodup hids hh hfresh) hmem hprovides
      rw [assignIds_cons_of_next hid hnext]
      exact ⟨n + 1, by rw [hok]; rfl, hids', fun hzero => absurd hzero (Nat.succ_ne_zero n)⟩

/-- Being given an id leaves a slug alone that does not depend on it. -/
theorem slug_assignIds (next : σ → Except StoreError EntityId × σ) (rest : List Handle) (s : σ)
    (hfixed : (pool.entity h).type.SlugFixed) :
    (assignIds next rest pool s).2.1.slug h = pool.slug h := by
  induction rest generalizing pool s with
  | nil => rfl
  | cons k rest ih =>
    cases hid : pool.id k with
    | some id =>
      rw [assignIds_cons_of_id hid]
      exact ih s hfixed
    | none =>
      rcases hnext : next s with ⟨e | id, s'⟩
      · rw [assignIds_cons_of_error hid hnext]
      · rw [assignIds_cons_of_next hid hnext]
        by_cases hk : h = k
        · subst hk
          have hself := Pool.entity_edit_self pool h fun e => e.setId (some id)
          refine (ih s' ?_).trans ?_
          · rw [hself]
            exact hfixed
          · rw [Pool.slug, hself]
            exact hfixed _ rfl (some id)
        · have hother := Pool.entity_edit_of_ne (p := pool) (f := fun e => e.setId (some id)) hk
          refine (ih s' ?_).trans ?_
          · rw [hother]
            exact hfixed
          · rw [Pool.slug, hother]
            rfl

/-- Numbering a cache keeps it orderly, if it leaves slugs unique. -/
theorem Orderly.assignMissingIds (hc : c.Orderly pool)
    (h : Provides next c.entities c.entities pool s)
    (hslugs : ((assignIds next c.entities pool s).2.1.roster c.entities).slugs.Nodup) :
    (c.assignMissingIds next pool s).2.1.Orderly (c.assignMissingIds next pool s).2.2.1 := by
  obtain ⟨n, hok, hids, hidle⟩ := assignIds_provided hc.nodup hc.unique.ids (fun _ hh => hh) h
  unfold Cache.assignMissingIds
  rcases hassign : assignIds next c.entities pool s with ⟨outcome, pool', s'⟩
  rw [hassign] at hok hids hidle hslugs
  obtain rfl : outcome = .ok n := hok
  show (if n = 0 then c else c.invalidate).Orderly pool'
  split
  · -- nothing was numbered, and the indexes are as good as they were
    next hzero =>
    rw [show pool' = pool from hidle hzero]
    exact hc
  · exact ⟨hc.nodup, ⟨hids, hslugs⟩, .inl rfl⟩

end Numbering

end Cache

/-! ## Any sequence of operations -/

namespace Shelf

/-- Every listed entity without an id is given one. -/
def number {σ : Type} (next : σ → Except StoreError EntityId × σ) (g : σ) (s : Shelf) : Shelf :=
  let (_, cache, pool, _) := s.cache.assignMissingIds next s.pool g
  ⟨pool, cache⟩

/-- Whoever edits a listed entity keeps the keys of the list unique. -/
def Op.KeepsUnique (s : Shelf) : Op → Prop
  | edit h f => ((s.pool.edit h f).roster s.cache.entities).UniqueKeys
  | _ => True

/-- A cache that may come about: started from entities that are pairwise distinct, and since then
changed by its own operations, by edits that keep keys unique, and by numbering with new ids, of
which no two slugs are made alike. -/
inductive Tended : Shelf → Prop
  | empty (pool : Pool) (type : String) : Tended ⟨pool, .empty type⟩
  | filled {pool : Pool} {type : String} {hs : List Handle} {c : Cache} (hnodup : hs.Nodup)
      (hc : Cache.ofEntities pool type hs = .ok c) : Tended ⟨pool, c⟩
  | op {s : Shelf} (hs : s.Tended) (op : Op) (hop : op.KeepsUnique s) : Tended (op.run s)
  | number {s : Shelf} {σ : Type} (hs : s.Tended) (next : σ → Except StoreError EntityId × σ) (g : σ)
      (hnext : Provides next s.cache.entities s.cache.entities s.pool g)
      (hslugs : ((s.number next g).pool.roster s.cache.entities).slugs.Nodup) :
      Tended (s.number next g)

/-- **One operation** keeps a cache orderly. -/
theorem orderly_run {s : Shelf} (hs : s.cache.Orderly s.pool) {op : Op} (hop : op.KeepsUnique s) :
    (op.run s).cache.Orderly (op.run s).pool := by
  cases op with
  | add h => exact hs.add h
  | remove h => exact hs.remove h
  | replace h => exact hs.replace h
  | rebuild => exact hs.rebuild
  | invalidate => exact hs.invalidate
  | getById id => exact hs.refresh
  | getBySlug slug => exact hs.refresh
  | edit h f =>
    show Cache.Orderly (s.pool.edit h f) (if s.cache.contains h then s.cache.invalidate else s.cache)
    split
    · exact ⟨hs.nodup, hop, .inl rfl⟩
    · next hout => exact hs.edit_of_not_mem (by simpa [contains] using hout)

/-- The entities that there are after numbering. -/
theorem pool_number {σ : Type} (next : σ → Except StoreError EntityId × σ) (g : σ) (s : Shelf) :
    (s.number next g).pool = (assignIds next s.cache.entities s.pool g).2.1 := by
  unfold number Cache.assignMissingIds
  rcases assignIds next s.cache.entities s.pool g with ⟨e | n, pool, g'⟩ <;> rfl

theorem Tended.orderly {s : Shelf} (hs : s.Tended) : s.cache.Orderly s.pool := by
  induction hs with
  | empty pool type => exact .empty pool type
  | filled hnodup hc => exact .ofEntities hnodup hc
  | op _ op hop ih => exact orderly_run ih hop
  | number _ next g hnext hslugs ih =>
    rw [pool_number] at hslugs
    exact ih.assignMissingIds hnext hslugs

/-- Nothing need be asked of slugs that do not depend on ids. -/
theorem Tended.number_of_slugFixed {s : Shelf} {σ : Type} (hs : s.Tended)
    (next : σ → Except StoreError EntityId × σ) (g : σ)
    (hnext : Provides next s.cache.entities s.cache.entities s.pool g)
    (hfixed : ∀ h ∈ s.cache.entities, (s.pool.entity h).type.SlugFixed) :
    Tended (s.number next g) := by
  refine hs.number next g hnext ?_
  have hsame : ∀ h ∈ s.cache.entities, (s.number next g).pool.slug h = s.pool.slug h := by
    intro h hh
    rw [pool_number]
    exact slug_assignIds next _ g (hfixed h hh)
  rw [Pool.slugs_roster, List.filterMap_congr hsame, ← Pool.slugs_roster]
  exact hs.orderly.unique.slugs

/-- **Identity in a cache.** At every point nothing is listed twice, no two listed entities share an
id or a slug, and look-up by a key leaves the list alone and finds exactly the listed entity that
holds the key. -/
theorem Tended.found_iff_listed {s : Shelf} (hs : s.Tended) :
    s.cache.entities.Nodup ∧ (s.pool.roster s.cache.entities).UniqueKeys ∧
      (∀ id, (s.cache.getById s.pool id).2.entities = s.cache.entities ∧
        ∀ h, (s.cache.getById s.pool id).1 = some h ↔
          h ∈ s.cache.entities ∧ s.pool.id h = some id) ∧
      ∀ slug, (s.cache.getBySlug s.pool slug).2.entities = s.cache.entities ∧
        ∀ h, (s.cache.getBySlug s.pool slug).1 = some h ↔
          h ∈ s.cache.entities ∧ s.pool.slug h = some slug := by
  have horderly := hs.orderly
  refine ⟨horderly.nodup, horderly.unique, fun id => ⟨entities_refresh s.pool s.cache, ?_⟩,
    fun slug => ⟨entities_refresh s.pool s.cache, ?_⟩⟩
  · exact fun h => (horderly.lookups h).1 id
  · exact fun h => (horderly.lookups h).2 slug

open Samples

/-- A red tag without an id and a blue one are cached. The red one is given an id and is renamed,
the blue one gives its place to a navy one, and the renamed one is removed: the navy one is found
by its keys, and nothing is found under the names that are gone. -/
theorem Tended.found_iff_listed_navy :
    let tags := [tagNamed none "red", tagNamed (some 1) "blue", tagNamed (some 1) "navy"]
    let s : Shelf := after ⟨(Pool.empty.allocAll tags).2, .empty "tag"⟩ [.add 0, .add 1]
    let s' := (s.number (Store.advance "tag") 5).after
      [.edit 0 fun e => e.set "name" (.value (.string "green")), .replace 2, .remove 0]
    s'.cache.entities = [2] ∧ (s'.cache.getById s'.pool 1).1 = some 2 ∧
      (s'.cache.getBySlug s'.pool "navy").1 = some 2 ∧
      ∀ h, (s'.cache.getBySlug s'.pool "blue").1 ≠ some h ∧
        (s'.cache.getBySlug s'.pool "green").1 ≠ some h := by
  intro tags s s'
  have hs : s.Tended := ((Tended.empty _ "tag").op (.add 0) trivial).op (.add 1) trivial
  have hfresh : Provides (Store.advance "tag") s.cache.entities s.cache.entities s.pool 5 :=
    ⟨6, 6, rfl, by decide +kernel, trivial⟩
  have hfixed : ∀ h ∈ s.cache.entities, (s.pool.entity h).type.SlugFixed :=
    List.forall_mem_cons.mpr ⟨Run.slugFixed_tag,
      List.forall_mem_singleton.mpr Run.slugFixed_tag⟩
  have hnumbered := hs.number_of_slugFixed _ 5 hfresh hfixed
  have hedited := hnumbered.op (.edit 0 fun e => e.set "name" (.value (.string "green")))
    (by unfold Op.KeepsUnique; decide +kernel)
  have hs' : s'.Tended := (hedited.op (.replace 2) trivial).op (.remove 0) trivial
  have hlist : s'.cache.entities = [2] := by decide +kernel
  obtain ⟨-, -, hids, hslugs⟩ := hs'.found_iff_listed
  have hgone : ∀ slug, s'.pool.slug 2 ≠ some slug →
      ∀ h, (s'.cache.getBySlug s'.pool slug).1 ≠ some h := by
    intro slug hslug h hfound
    obtain ⟨hh, hheld⟩ := ((hslugs slug).2 h).mp hfound
    rw [hlist] at hh
    obtain rfl := List.mem_singleton.mp hh
    exact hslug hheld
  refine ⟨hlist, ((hids 1).2 2).mpr ?_, ((hslugs "navy").2 2).mpr ?_, fun h => ⟨?_, ?_⟩⟩
  · rw [hlist]
    exact ⟨List.mem_singleton_self 2, by decide +kernel⟩
  · rw [hlist]
    exact ⟨List.mem_singleton_self 2, by decide +kernel⟩
  · exact hgone "blue" (by decide +kernel) h
  · exact hgone "green" (by decide +kernel) h

/-- Tags whose slug is their name with their id behind it. -/
def numberedTag : EntityType where
  __ := tag
  slug := fun id field => (storedText? field "name").map fun name =>
    name ++ (id.map EntityId.toText).getD ""

/-- Two such tags, which share no key: one is called red1 and has no id, the other is called red and
has the id 12. -/
def redTwelves : Shelf :=
  let named (id : Option EntityId) (name : String) : Entity :=
    { tagNamed id name with type := numberedTag }
  after ⟨(Pool.empty.allocAll [named none "red1", named (some 12) "red"]).2, .empty "tag"⟩
    [.add 0, .add 1]

/-- A red tag that is cached, and has been found by its name. -/
def redFound : Shelf :=
  after ⟨(Pool.empty.allocAll [tagNamed (some 1) "red"]).2, .empty "tag"⟩ [.add 0, .getBySlug "red"]

/-- The first of the two tags is given the id 2, which nobody holds, and both have the slug red12. And a
tag that is renamed is found under its old name until the cache is invalidated. -/
theorem number_doubles_slug :
    let s' := redTwelves.number (Store.advance "tag") 1
    let renamed := redFound.pool.edit 0 fun e => e.set "name" (.value (.string "blue"))
    (redTwelves.Tended ∧ Provides (Store.advance "tag") redTwelves.cache.entities
        redTwelves.cache.entities redTwelves.pool 1 ∧
      s'.cache.entities = [0, 1] ∧ s'.pool.slug 0 = some "red12" ∧ s'.pool.slug 1 = some "red12") ∧
    (redFound.cache.getBySlug renamed "red").1 = some 0 ∧ renamed.slug 0 = some "blue" := by
  intro s' renamed
  have htended : redTwelves.Tended := ((Tended.empty _ "tag").op (.add 0) trivial).op (.add 1) trivial
  exact ⟨⟨htended, ⟨2, 2, rfl, by decide +kernel, trivial⟩, by decide +kernel⟩, by decide +kernel⟩

end Shelf

end EntityStore
