import EntityStore.Changeset
import EntityStore.Sorting
import EntityStore.StoreError

/-!
# Caches

A cache holds the live entities of one type as a list, with an index by id and one by slug. The
list is what counts; the indexes are derived from it. They can lag behind, since a slug may be
derived from fields that change after the entity was added, so every addition marks them stale
and the next look-up rebuilds them. Where two entities have come to share a key, the first one in
the list keeps the index entry.

An operation that fails still leaves the indexes rebuilt if it had to look at them. The functions
here that can do so return the cache together with the outcome.
-/

namespace EntityStore

/-- Keys with the entity that holds each. -/
abbrev Index (κ : Type) := List (κ × Handle)

namespace Index

variable {κ : Type} [DecidableEq κ]

def get? (ix : Index κ) (key : κ) : Option Handle :=
  (ix.find? fun entry => entry.1 == key).map (·.2)

/-- Enter a key; an entry it has already is overwritten. -/
def put (ix : Index κ) (key : κ) (h : Handle) : Index κ :=
  match ix with
  | [] => [(key, h)]
  | (k, g) :: rest => if k = key then (key, h) :: rest else (k, g) :: put rest key h

/-- Enter a key unless it has an entry already. -/
def putNew (ix : Index κ) (key : κ) (h : Handle) : Index κ :=
  if (ix.get? key).isSome then ix else ix ++ [(key, h)]

/-- Forget every key of an entity. -/
def drop (ix : Index κ) (h : Handle) : Index κ := ix.filter fun entry => entry.2 != h

end Index

/-- The live entities of one type. -/
structure Cache where
  /-- The name of the type. -/
  type : String
  entities : List Handle
  byId : Index EntityId
  bySlug : Index String
  /-- Whether the indexes have to be rebuilt before they are used. -/
  stale : Bool

namespace Cache

def empty (type : String) : Cache := ⟨type, [], [], [], false⟩

def size (c : Cache) : Nat := c.entities.length

def contains (c : Cache) (h : Handle) : Bool := c.entities.contains h

/-! ## Indexes -/

/-- The indexes with the keys of one more entity, where these are not taken. -/
def indexEntity (pool : Pool) (ix : Index EntityId × Index String) (h : Handle) :
    Index EntityId × Index String :=
  (match pool.id h with
    | some id => ix.1.putNew id h
    | none => ix.1,
   match pool.slug h with
    | some slug => ix.2.putNew slug h
    | none => ix.2)

/-- Derive both indexes from the list. -/
def rebuild (pool : Pool) (c : Cache) : Cache :=
  let ix := c.entities.foldl (indexEntity pool) ([], [])
  { c with byId := ix.1, bySlug := ix.2, stale := false }

/-- Make sure the indexes are up to date, as far as the cache knows. -/
def refresh (pool : Pool) (c : Cache) : Cache := if c.stale then c.rebuild pool else c

/-- Have the next look-up rebuild the indexes. -/
def invalidate (c : Cache) : Cache := { c with stale := true }

def compareIds (a b : EntityId) : Ordering := compare a.toInt b.toInt

/-- The indexed ids in ascending order. -/
def indexedIds (c : Cache) : List EntityId := Sorting.sort compareIds (c.byId.map (·.1))

/-- The indexed slugs in ascending order. -/
def indexedSlugs (c : Cache) : List String := Sorting.sort compare (c.bySlug.map (·.1))

/-! ## Look-up -/

def getById (pool : Pool) (id : EntityId) (c : Cache) : Option Handle × Cache :=
  let c := c.refresh pool
  (c.byId.get? id, c)

def getBySlug (pool : Pool) (slug : String) (c : Cache) : Option Handle × Cache :=
  let c := c.refresh pool
  (c.bySlug.get? slug, c)

/-- The largest id in the list. -/
def maxId? (pool : Pool) (c : Cache) : Option EntityId :=
  (c.entities.filterMap pool.id).foldl
    (fun best id =>
      match best with
      | none => some id
      | some b => some (b.later id))
    none

/-! ## Adding -/

/-- The first key of an entity that the indexes hold already. -/
def conflict? (pool : Pool) (h : Handle) (c : Cache) : Option StoreError :=
  let idTaken := (pool.id h).filter fun id => (c.byId.get? id).isSome
  let slugTaken := (pool.slug h).filter fun slug => (c.bySlug.get? slug).isSome
  match idTaken, slugTaken with
  | some id, _ => some (.duplicateId c.type id)
  | none, some slug => some (.duplicateSlug c.type slug)
  | none, none => none

/-- Enter the keys of an entity into the indexes. -/
def enter (pool : Pool) (h : Handle) (c : Cache) : Cache :=
  { c with
    byId := match pool.id h with
      | some id => c.byId.put id h
      | none => c.byId
    bySlug := match pool.slug h with
      | some slug => c.bySlug.put slug h
      | none => c.bySlug }

/-- A cache of the given entities. The first key that is held twice is an error. -/
def ofEntities (pool : Pool) (type : String) (entities : List Handle) : Except StoreError Cache :=
  entities.foldlM
    (fun c h =>
      match c.conflict? pool h with
      | some e => .error e
      | none => .ok { c.enter pool h with entities := c.entities ++ [h] })
    (empty type)

/-- Add an entity whose keys are free. Adding a cached one changes nothing. -/
def add (pool : Pool) (h : Handle) (c : Cache) : Except StoreError Unit × Cache :=
  let c := c.refresh pool
  if c.contains h then (.ok (), c)
  else
    match c.conflict? pool h with
    | some e => (.error e, c)
    | none => (.ok (), { c.enter pool h with entities := c.entities ++ [h], stale := true })

/-! ## Removing and replacing -/

/-- Remove an entity, or the cached one of the same id; returns the one that was cached. -/
def remove (pool : Pool) (h : Handle) (c : Cache) : Except StoreError Handle × Cache :=
  match pool.counterpart? h c.entities with
  | none => (.error (.notFound c.type (pool.id h)), c)
  | some gone =>
    (.ok gone,
      { c with
        entities := c.entities.erase gone
        byId := c.byId.drop gone
        bySlug := c.bySlug.drop gone })

/-- The cached entity that an entity of the same id takes the place of. -/
def replaced? (pool : Pool) (h : Handle) (c : Cache) : Option Handle :=
  (pool.id h).bind fun id => (c.byId.get? id).filter fun old => c.contains old

/-- Whether the slug of `h` belongs to an entity that is neither `h` nor the one it replaces. -/
def slugTaken? (pool : Pool) (h old : Handle) (c : Cache) : Option String :=
  (pool.slug h).filter fun slug =>
    (c.bySlug.get? slug).any fun holder => holder != old && holder != h

/-- Put an entity in the place of the cached one with the same id, which is returned. -/
def replace (pool : Pool) (h : Handle) (c : Cache) : Except StoreError Handle × Cache :=
  let c := c.refresh pool
  match c.replaced? pool h with
  | none => (.error (.notFound c.type (pool.id h)), c)
  | some old =>
    match c.slugTaken? pool h old with
    | some slug => (.error (.duplicateSlug c.type slug), c)
    | none =>
      (.ok old,
        { c with entities := c.entities.replace old h, bySlug := c.bySlug.drop old }.enter pool h)

/-- Put an entity in the place of the first one with the same id. Its slug is not looked at;
this is for batches that are checked as a whole. -/
def swapIn (pool : Pool) (h : Handle) (c : Cache) : Except StoreError Cache :=
  match (pool.id h).bind fun id => pool.holder? id c.entities with
  | none => .error (.notFound c.type (pool.id h))
  | some old => .ok { c with entities := c.entities.replace old h, stale := true }

/-! ## Whole lists -/

/-- The first id or slug that two entities of a list hold, given the keys seen before. -/
def repeatedKey? (pool : Pool) (type : String) (ids : List EntityId) (slugs : List String) :
    List Handle → Option StoreError
  | [] => none
  | h :: rest =>
    match (pool.id h).filter ids.contains, (pool.slug h).filter slugs.contains with
    | some id, _ => some (.duplicateId type id)
    | none, some slug => some (.duplicateSlug type slug)
    | none, none =>
      repeatedKey? pool type ((pool.id h).toList ++ ids) ((pool.slug h).toList ++ slugs) rest

/-- Fail on the first id or slug that is held twice. -/
def checkUnique (pool : Pool) (c : Cache) : Except StoreError Unit :=
  match repeatedKey? pool c.type [] [] c.entities with
  | some e => .error e
  | none => .ok ()

/-- Give the entities of a list that have no id the ids a generator yields. Stops where the
generator fails; how many were given until then is the first part of the result. -/
def assignIds (next : σ → Except StoreError EntityId × σ) :
    List Handle → Pool → σ → Except StoreError Nat × Pool × σ
  | [], pool, s => (.ok 0, pool, s)
  | h :: rest, pool, s =>
    match pool.id h with
    | some _ => assignIds next rest pool s
    | none =>
      match next s with
      | (.error e, s) => (.error e, pool, s)
      | (.ok id, s) =>
        match assignIds next rest (pool.edit h fun e => e.setId (some id)) s with
        | (.ok n, pool, s) => (.ok (n + 1), pool, s)
        | (.error e, pool, s) => (.error e, pool, s)

/-- Give every entity without an id the next one of a generator. The indexes are stale
afterwards if that went through and was not idle. -/
def assignMissingIds (next : σ → Except StoreError EntityId × σ) (c : Cache) (pool : Pool) (s : σ) :
    Except StoreError Nat × Cache × Pool × σ :=
  match assignIds next c.entities pool s with
  | (.ok n, pool, s) => (.ok n, if n = 0 then c else c.invalidate, pool, s)
  | (.error e, pool, s) => (.error e, c, pool, s)

/-- Apply a change. What is added or updated is stored as a copy, never as the caller's handle,
and the slug of an update is not looked at. -/
def apply (change : Change) (c : Cache) (pool : Pool) : Except StoreError Unit × Cache × Pool :=
  let found := pool.typeName change.entity
  if found ≠ c.type then (.error (.wrongType c.type found), c, pool)
  else
    match change.kind with
    | .add =>
      let (copy, pool) := pool.detach change.entity
      let (outcome, c) := c.add pool copy
      (outcome, c, pool)
    | .update =>
      let (copy, pool) := pool.detach change.entity
      match c.swapIn pool copy with
      | .ok c => (.ok (), c, pool)
      | .error e => (.error e, c, pool)
    | .remove =>
      let (outcome, c) := c.remove pool change.entity
      (outcome.map fun _ => (), c, pool)

end Cache

/-! ## Caches by type -/

/-- One cache per entity type. -/
abbrev Caches := List Cache

namespace Caches

def find? (cs : Caches) (type : String) : Option Cache := List.find? (fun c => c.type == type) cs

def contains (cs : Caches) (type : String) : Bool := (cs.find? type).isSome

/-- Put a cache in the place of the one of its type, or at the end. -/
def put (cs : Caches) (c : Cache) : Caches :=
  match cs with
  | [] => [c]
  | d :: rest => if d.type = c.type then c :: rest else d :: put rest c

/-- Rebuild all indexes. -/
def rebuild (pool : Pool) (cs : Caches) : Caches := List.map (Cache.rebuild pool) cs

end Caches

end EntityStore
