import EntityStore.Proofs.Cache.Changes

/-!
# A cache and what it lists, under any operations

A cache keeps handles, and the keys it indexes are those that its entities had when it looked at
them. Whoever holds an entity may edit it in place at any time and then has to invalidate the
caches that list it. Here a cache is taken together with the entities there are, and goes through
any sequence of its own operations and of such edits. Nothing is asked of the entities: they may
come to share keys, and what the cache says is compared with a scan of its list.
-/

namespace EntityStore

/-- Replacing an item of a list takes it out and puts another one in. -/
theorem perm_replace {α : Type} [DecidableEq α] {l : List α} {a : α} (b : α) (ha : a ∈ l) :
    (l.replace a b).Perm (b :: l.erase a) := by
  induction l with
  | nil => exact absurd ha List.not_mem_nil
  | cons x rest ih =>
    by_cases hx : a = x
    · subst hx
      rw [List.replace_cons_self, List.erase_cons_head]
    · have hne : (a == x) = false := beq_false_of_ne hx
      have hmem : a ∈ rest := (List.mem_cons.mp ha).resolve_left hx
      rw [List.replace_cons, hne, List.erase_cons_tail (by simpa using fun heq => hx heq.symm)]
      exact ((ih hmem).cons x).trans (List.Perm.swap b x _)

/-- A cache with the entities there are. -/
structure Shelf where
  pool : Pool
  cache : Cache

namespace Shelf

/-- What may happen to a cache and its entities. -/
inductive Op where
  | add (h : Handle)
  | remove (h : Handle)
  | replace (h : Handle)
  | rebuild
  | invalidate
  | getById (id : EntityId)
  | getBySlug (slug : String)
  /-- An entity is edited in place. If it is listed, the cache is invalidated. -/
  | edit (h : Handle) (f : Entity → Entity)

/-- An operation, of which only what it leaves is looked at. -/
def Op.run (s : Shelf) : Op → Shelf
  | add h => ⟨s.pool, (s.cache.add s.pool h).2⟩
  | remove h => ⟨s.pool, (s.cache.remove s.pool h).2⟩
  | replace h => ⟨s.pool, (s.cache.replace s.pool h).2⟩
  | rebuild => ⟨s.pool, s.cache.rebuild s.pool⟩
  | invalidate => ⟨s.pool, s.cache.invalidate⟩
  | getById id => ⟨s.pool, (s.cache.getById s.pool id).2⟩
  | getBySlug slug => ⟨s.pool, (s.cache.getBySlug s.pool slug).2⟩
  | edit h f =>
    ⟨s.pool.edit h f, if s.cache.contains h then s.cache.invalidate else s.cache⟩

/-- Several operations in order. -/
def after (s : Shelf) (ops : List Op) : Shelf := ops.foldl Op.run s

/-- A cache as it starts: of no entities, or of some whose keys are all different. -/
def Started (s : Shelf) : Prop :=
  ∃ type, s.cache = .empty type ∨ ∃ hs, Cache.ofEntities s.pool type hs = .ok s.cache

end Shelf

namespace Cache

variable {pool : Pool} {c : Cache} {h : Handle}

theorem stale_refresh (pool : Pool) (c : Cache) : (c.refresh pool).stale = false := by
  unfold refresh
  split
  · rfl
  · next hstale => simpa using hstale

/-- Removing takes the entity that stands for the handle, if there is one. -/
theorem remove_of_counterpart {gone : Handle} (hgone : pool.counterpart? h c.entities = some gone) :
    c.remove pool h = (.ok gone, c.without gone) := by
  unfold remove
  rw [hgone]
  rfl

theorem remove_of_none (hnone : pool.counterpart? h c.entities = none) :
    c.remove pool h = (.error (.notFound c.type (pool.id h)), c) := by
  unfold remove
  rw [hnone]

end Cache

end EntityStore
