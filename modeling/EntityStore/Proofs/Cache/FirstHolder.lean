import EntityStore.Proofs.Cache.Shelves
import EntityStore.Proofs.Repository.Lookups

/-!
# The first holder of a key

Entities that are edited in place may come to share a key, and then it is the first of them in the
list that is to be found under it. Indexes that are rebuilt do so. But removing an entity, or
replacing it by one of another slug, only drops what the indexes hold for it: a key that it shared
with a later entity is found by nobody from then on, until something has the indexes rebuilt. This
is the one way in which look-up and a scan of the list come to disagree.
-/

namespace EntityStore

/-! ## Scanning a list -/

section Scan

variable {κ : Type} [DecidableEq κ]

/-- The first entity of a list that holds a key. -/
def firstHolder (key : Handle → Option κ) (k : κ) (hs : List Handle) : Option Handle :=
  hs.find? fun h => key h == some k

variable {key key' : Handle → Option κ} {k : κ} {hs hs' : List Handle} {h g gone old : Handle}

theorem firstHolder_cons (key : Handle → Option κ) (k : κ) (h : Handle) (rest : List Handle) :
    firstHolder key k (h :: rest) = if key h = some k then some h else firstHolder key k rest := by
  unfold firstHolder
  rw [List.find?_cons]
  by_cases hkey : key h = some k
  · rw [if_pos hkey, hkey, beq_self_eq_true]
  · rw [if_neg hkey, beq_false_of_ne hkey]

theorem firstHolder_eq_none : firstHolder key k hs = none ↔ ∀ h ∈ hs, key h ≠ some k := by
  unfold firstHolder
  simp

theorem mem_of_firstHolder (hfirst : firstHolder key k hs = some h) : h ∈ hs ∧ key h = some k :=
  ⟨List.mem_of_find?_eq_some hfirst, by simpa using List.find?_some hfirst⟩

theorem firstHolder_append (key : Handle → Option κ) (k : κ) (hs : List Handle) (h : Handle) :
    firstHolder key k (hs ++ [h])
      = (firstHolder key k hs).or (if key h = some k then some h else none) := by
  rw [firstHolder, List.find?_append]
  congr 1
  exact firstHolder_cons key k h []

theorem firstHolder_congr (hkeys : ∀ h ∈ hs, key' h = key h) :
    firstHolder key' k hs = firstHolder key k hs := by
  induction hs with
  | nil => rfl
  | cons h rest ih =>
    obtain ⟨hhead, hrest⟩ := List.forall_mem_cons.mp hkeys
    rw [firstHolder_cons, firstHolder_cons, hhead, ih hrest]

/-- Who is not the first holder of a key can go without anybody looking for the key noticing. -/
theorem firstHolder_erase (hne : firstHolder key k hs ≠ some gone) :
    firstHolder key k (hs.erase gone) = firstHolder key k hs := by
  induction hs with
  | nil => rfl
  | cons x rest ih =>
    rw [firstHolder_cons] at hne ⊢
    by_cases hx : x = gone
    · subst hx
      have hkey : key x ≠ some k := fun hkey => hne (if_pos hkey)
      rw [List.erase_cons_head, if_neg hkey]
    · rw [List.erase_cons_tail (by simpa using hx), firstHolder_cons]
      by_cases hkey : key x = some k
      · rw [if_pos hkey, if_pos hkey]
      · rw [if_neg hkey] at hne
        rw [if_neg hkey, if_neg hkey, ih hne]

theorem firstHolder_replace_of_ne (hkey : key h ≠ some k) (hne : firstHolder key k hs ≠ some old) :
    firstHolder key k (hs.replace old h) = firstHolder key k hs := by
  induction hs with
  | nil => rfl
  | cons x rest ih =>
    rw [firstHolder_cons] at hne
    by_cases hx : old = x
    · subst hx
      have hkey' : key old ≠ some k := fun hkey' => hne (if_pos hkey')
      rw [List.replace_cons_self, firstHolder_cons, firstHolder_cons, if_neg hkey, if_neg hkey']
    · rw [List.replace_cons, beq_false_of_ne hx, firstHolder_cons, firstHolder_cons]
      by_cases hkey' : key x = some k
      · rw [if_pos hkey', if_pos hkey']
      · rw [if_neg hkey'] at hne
        rw [if_neg hkey', if_neg hkey', ih hne]

/-- Who takes the place of the first holder of a key, and holds it too, comes first in turn. -/
theorem firstHolder_replace_self (hold : old ∈ hs) (hkey : key h = some k)
    (hfirst : ∀ g, firstHolder key k hs = some g → g = old ∨ g = h) :
    firstHolder key k (hs.replace old h) = some h := by
  induction hs with
  | nil => exact absurd hold List.not_mem_nil
  | cons x rest ih =>
    by_cases hx : old = x
    · subst hx
      rw [List.replace_cons_self, firstHolder_cons, if_pos hkey]
    · have hrest : old ∈ rest := (List.mem_cons.mp hold).resolve_left hx
      rw [List.replace_cons, beq_false_of_ne hx, firstHolder_cons]
      rw [firstHolder_cons] at hfirst
      by_cases hkey' : key x = some k
      · rw [if_pos hkey'] at hfirst ⊢
        exact congrArg some ((hfirst x rfl).resolve_left (Ne.symm hx))
      · rw [if_neg hkey'] at hfirst ⊢
        exact ih hrest hfirst

/-- A key whose first holder is to go, and that somebody else in the list holds as well. -/
def Inherited (key : Handle → Option κ) (k : κ) (gone : Handle) (hs : List Handle) : Prop :=
  firstHolder key k hs = some gone ∧ ∃ g ∈ hs.erase gone, key g = some k

/-- Forgetting the first holder of a key is right unless the key is inherited. -/
theorem filter_firstHolder (hkept : firstHolder key k hs ≠ some gone →
      firstHolder key k hs' = firstHolder key k hs)
    (hlost : firstHolder key k hs = some gone → ∀ g ∈ hs', key g ≠ some k) :
    (firstHolder key k hs).filter (· != gone) = firstHolder key k hs' := by
  by_cases hgone : firstHolder key k hs = some gone
  · rw [firstHolder_eq_none.mpr (hlost hgone), hgone, Option.filter_some, if_neg (by simp)]
  · rw [hkept hgone]
    cases hfirst : firstHolder key k hs with
    | none => rfl
    | some g =>
      rw [hfirst] at hgone
      exact if_pos (by simpa using hgone)

end Scan

/-! ## Indexes that find first holders -/

namespace Index

variable {κ : Type} [DecidableEq κ] {ix : Index κ} {key key' : Handle → Option κ} {k : κ}
  {hs : List Handle} {h gone old : Handle}

/-- The index finds the first holder of every key. -/
structure First (ix : Index κ) (key : Handle → Option κ) (hs : List Handle) : Prop where
  distinct : ix.Distinct
  get? : ∀ k, ix.get? k = firstHolder key k hs

theorem first_nil : First ([] : Index κ) key [] := ⟨List.nodup_nil, fun _ => rfl⟩

/-- Where no key is held twice, an index that covers the list finds first holders. -/
theorem Covers.first (hix : ix.Covers key hs)
    (honce : ∀ g ∈ hs, ∀ h ∈ hs, ∀ k, key g = some k → key h = some k → g = h) :
    ix.First key hs := by
  refine ⟨hix.distinct, fun k => ?_⟩
  cases hfirst : firstHolder key k hs with
  | none =>
    refine Option.not_isSome_iff_eq_none.mp fun hsome => ?_
    obtain ⟨h, hh, hkey⟩ := hix.isSome_iff.mp hsome
    exact firstHolder_eq_none.mp hfirst h hh hkey
  | some h =>
    obtain ⟨hh, hkey⟩ := mem_of_firstHolder hfirst
    exact hix.get?_eq hh hkey fun g hg hgkey => honce g hg h hh k hgkey hkey

theorem First.congr (hix : ix.First key hs) (hkeys : ∀ h ∈ hs, key' h = key h) :
    ix.First key' hs := ⟨hix.distinct, fun k => by rw [firstHolder_congr hkeys, hix.get?]⟩

/-- Entering a key that is taken already changes nothing, as its first holder does not. -/
theorem First.enterNew (hix : ix.First key hs) (h : Handle) :
    (Cache.enterNew key ix h).First key (hs ++ [h]) := by
  unfold Cache.enterNew
  cases hkey : key h with
  | none =>
    refine ⟨hix.distinct, fun k => ?_⟩
    rw [firstHolder_append, hkey, if_neg (by simp), Option.or_none]
    exact hix.get? k
  | some l =>
    -- a key that is held keeps its entry, and the entity at the end is not its first holder
    cases hget : ix.get? l with
    | some g =>
      show (ix.putNew l h).First key (hs ++ [h])
      rw [putNew_of_held h (by rw [hget]; rfl)]
      refine ⟨hix.distinct, fun k => ?_⟩
      rw [firstHolder_append, hkey, ← hix.get?]
      by_cases hl : l = k
      · rw [← hl, hget, Option.some_or]
      · rw [if_neg fun heq => hl (Option.some.inj heq), Option.or_none]
    | none =>
      show (ix.putNew l h).First key (hs ++ [h])
      rw [putNew_eq_put_of_new h hget]
      refine ⟨hix.distinct.put l h, fun k => ?_⟩
      rw [get?_put, firstHolder_append, hkey, ← hix.get?]
      by_cases hl : l = k
      · rw [if_pos hl, ← hl, hget, if_pos rfl, Option.none_or]
      · rw [if_neg hl, if_neg fun heq => hl (Option.some.inj heq), Option.or_none]

theorem Distinct.enterKey (hix : ix.Distinct) (key : Handle → Option κ) (h : Handle) :
    (Cache.enterKey key ix h).Distinct := by
  unfold Cache.enterKey
  split
  · exact hix.put _ h
  · exact hix

theorem get?_enterKey_of_ne (ix : Index κ) (hkey : key h ≠ some k) :
    (Cache.enterKey key ix h).get? k = ix.get? k := by
  unfold Cache.enterKey
  cases hh : key h with
  | none => rfl
  | some l =>
    show (ix.put l h).get? k = ix.get? k
    rw [get?_put, if_neg fun heq => hkey (hh.trans (congrArg some heq))]

theorem First.foldl_enterNew {done : List Handle} (hix : ix.First key done) (hs : List Handle) :
    (hs.foldl (Cache.enterNew key) ix).First key (done ++ hs) := by
  induction hs generalizing ix done with
  | nil => simpa using hix
  | cons h rest ih =>
    rw [List.foldl_cons, List.append_cons]
    exact ih (hix.enterNew h)

/-- Dropping an entity none of whose keys is inherited. -/
theorem First.drop (hix : ix.First key hs) (hnone : ∀ k, ¬ Inherited key k gone hs) :
    (ix.drop gone).First key (hs.erase gone) := by
  refine ⟨hix.distinct.drop gone, fun k => ?_⟩
  rw [get?_drop hix.distinct, hix.get?]
  exact filter_firstHolder firstHolder_erase
    fun hfirst g hg hgkey => hnone k ⟨hfirst, g, hg, hgkey⟩

/-- Dropping an entity leaves none of its keys. -/
theorem First.get?_drop_of_inherited (hix : ix.First key hs) (hk : Inherited key k gone hs) :
    (ix.drop gone).get? k = none := by
  rw [get?_drop hix.distinct, hix.get?, hk.1]
  exact if_neg (by simp)

/-- Putting an entity in the place of the one that is found under a key of both. -/
theorem First.put_replace (hix : ix.First key hs) (hget : ix.get? k = some old)
    (hkey : key h = some k) : (ix.put k h).First key (hs.replace old h) := by
  have hfirst : firstHolder key k hs = some old := (hix.get? k).symm.trans hget
  obtain ⟨hold, hkeyOld⟩ := mem_of_firstHolder hfirst
  refine ⟨hix.distinct.put k h, fun l => ?_⟩
  rw [get?_put]
  by_cases hl : k = l
  · subst hl
    rw [if_pos rfl, firstHolder_replace_self hold hkey]
    exact fun g hg => .inl (Option.some.inj (hg.symm.trans hfirst))
  · have hh : key h ≠ some l := fun heq => hl (Option.some.inj (hkey.symm.trans heq))
    rw [if_neg hl, hix.get?, firstHolder_replace_of_ne hh]
    intro hfirst'
    exact hl (Option.some.inj (hkeyOld.symm.trans (mem_of_firstHolder hfirst').2))

/-- Putting an entity in the place of another one that may have another key, unless that one is
inherited. -/
theorem First.enter_replace (hix : ix.First key hs) (hold : old ∈ hs)
    (hfree : ∀ k ∈ key h, ∀ g, ix.get? k = some g → g = old ∨ g = h)
    (hnone : ∀ k, key h ≠ some k → ¬ Inherited key k old hs) :
    (Cache.enterKey key (ix.drop old) h).First key (hs.replace old h) := by
  have hfound : ∀ k, key h = some k → firstHolder key k (hs.replace old h) = some h := by
    intro k hkey
    refine firstHolder_replace_self hold hkey fun g hg => ?_
    exact hfree k hkey g ((hix.get? k).trans hg)
  have hothers : ∀ k, key h ≠ some k →
      (ix.drop old).get? k = firstHolder key k (hs.replace old h) := by
    intro k hkey
    rw [get?_drop hix.distinct, hix.get?]
    refine filter_firstHolder (firstHolder_replace_of_ne hkey) fun hfirst g hg hgkey => ?_
    rcases List.mem_cons.mp ((perm_replace h hold).mem_iff.mp hg) with rfl | hg
    · exact hkey hgkey
    · exact hnone k hkey ⟨hfirst, g, hg, hgkey⟩
  refine ⟨(hix.distinct.drop old).enterKey key h, fun k => ?_⟩
  by_cases hkey : key h = some k
  · rw [hfound k hkey, Cache.enterKey, hkey]
    exact (get?_put (ix.drop old) k h k).trans (if_pos rfl)
  · rw [get?_enterKey_of_ne _ hkey, hothers k hkey]

end Index

/-! ## Look-up against a scan -/

namespace Shelf

open Cache

variable {s : Shelf}

/-- What a cache is expected to say: look-up finds the first listed entity that holds the key at the
time, and no entity is let in that shares a key with a listed one. -/
structure Answers (s : Shelf) : Prop where
  byId : ∀ id, (s.cache.getById s.pool id).1 = firstHolder s.pool.id id s.cache.entities
  bySlug : ∀ slug, (s.cache.getBySlug s.pool slug).1 = firstHolder s.pool.slug slug s.cache.entities
  admits : ∀ h ∉ s.cache.entities, (s.cache.add s.pool h).1 = .ok () → ∀ g ∈ s.cache.entities,
    (∀ id ∈ s.pool.id h, s.pool.id g ≠ some id) ∧ ∀ slug ∈ s.pool.slug h, s.pool.slug g ≠ some slug

/-- An operation after which a key that a listed entity holds is not found: an entity leaves, or
gives its place to one of another slug, that was the first of several to hold a key. What is removed
while the indexes are stale does no harm. -/
def Op.Loses (s : Shelf) : Op → Prop
  | remove h => s.cache.stale = false ∧ ∃ gone, s.pool.counterpart? h s.cache.entities = some gone ∧
      ((∃ id, Inherited s.pool.id id gone s.cache.entities) ∨
        ∃ slug, Inherited s.pool.slug slug gone s.cache.entities)
  | replace h => ∃ old, (s.cache.replace s.pool h).1 = .ok old ∧
      ∃ slug, s.pool.slug h ≠ some slug ∧ Inherited s.pool.slug slug old s.cache.entities
  | _ => False

/-- Unless the indexes are stale, they find first holders. -/
def Exact (pool : Pool) (c : Cache) : Prop :=
  c.stale = true ∨ c.byId.First pool.id c.entities ∧ c.bySlug.First pool.slug c.entities

theorem first_rebuild (pool : Pool) (c : Cache) :
    (c.rebuild pool).byId.First pool.id c.entities ∧
      (c.rebuild pool).bySlug.First pool.slug c.entities := by
  unfold rebuild
  rw [foldl_indexEntity]
  exact ⟨Index.first_nil.foldl_enterNew c.entities, Index.first_nil.foldl_enterNew c.entities⟩

theorem Exact.first_refresh {pool : Pool} {c : Cache} (hc : Exact pool c) :
    (c.refresh pool).byId.First pool.id c.entities ∧
      (c.refresh pool).bySlug.First pool.slug c.entities := by
  unfold refresh
  split
  · exact first_rebuild pool c
  · next hstale => exact hc.resolve_left hstale

theorem Exact.refresh {pool : Pool} {c : Cache} (hc : Exact pool c) : Exact pool (c.refresh pool) := by
  refine .inr ?_
  rw [entities_refresh]
  exact hc.first_refresh

/-- A cache that starts without keys held twice finds each of them. -/
theorem Started.exact (hs : s.Started) : Exact s.pool s.cache := by
  obtain ⟨type, hempty | ⟨hs, hc⟩⟩ := hs
  · rw [hempty]
    exact .inr ⟨Index.first_nil, Index.first_nil⟩
  · have hspec := ofEntities_spec s.pool type hs
    rw [hc] at hspec
    obtain ⟨hnone, hindexed, rfl, -⟩ := hspec
    have hunique := (repeatedKey?_eq_none.mp hnone).1
    exact .inr ⟨hindexed.byId.first fun g hg h hh _ hgid hid =>
        Pool.eq_of_id_eq hunique.ids hg hh hgid hid,
      hindexed.bySlug.first fun g hg h hh _ hgslug hslug =>
        Pool.eq_of_slug_eq hunique.slugs hg hh hgslug hslug⟩

theorem Exact.answers (hs : Exact s.pool s.cache) : s.Answers := by
  obtain ⟨hbyId, hbySlug⟩ := hs.first_refresh
  refine ⟨hbyId.get?, hbySlug.get?, ?_⟩
  intro h hh hok g hg
  rcases add_cases s.pool h s.cache with ⟨hmem, -⟩ | ⟨-, e, -, hadd⟩ | ⟨-, hfree, -⟩
  · exact absurd hmem hh
  · rw [hadd] at hok
    cases hok
  · obtain ⟨hnoId, hnoSlug⟩ := conflict?_eq_none.mp hfree
    constructor
    · intro id hid
      exact firstHolder_eq_none.mp ((hbyId.get? id).symm.trans (hnoId id hid)) g hg
    · intro slug hslug
      exact firstHolder_eq_none.mp ((hbySlug.get? slug).symm.trans (hnoSlug slug hslug)) g hg

/-! ### One operation -/

/-- Removing, where what goes is not the first of several holders. -/
theorem Exact.remove (hs : Exact s.pool s.cache) {h : Handle} (hop : ¬ (Op.remove h).Loses s) :
    Exact s.pool (s.cache.remove s.pool h).2 := by
  cases hgone : s.pool.counterpart? h s.cache.entities with
  | none =>
    rw [remove_of_none hgone]
    exact hs
  | some gone =>
    rw [remove_of_counterpart hgone]
    -- stale indexes stay so, and the next look-up rebuilds them from what is listed then
    cases hstale : s.cache.stale with
    | true => exact .inl hstale
    | false =>
      obtain ⟨hbyId, hbySlug⟩ := hs.resolve_left (by simp [hstale])
      have hkept : ¬ ((∃ id, Inherited s.pool.id id gone s.cache.entities) ∨
          ∃ slug, Inherited s.pool.slug slug gone s.cache.entities) :=
        fun hlost => hop ⟨hstale, gone, hgone, hlost⟩
      exact .inr ⟨hbyId.drop fun id hid => hkept (.inl ⟨id, hid⟩),
        hbySlug.drop fun slug hslug => hkept (.inr ⟨slug, hslug⟩)⟩

/-- Replacing, where no slug that goes is held by another entity. -/
theorem Exact.replace (hs : Exact s.pool s.cache) {h : Handle} (hop : ¬ (Op.replace h).Loses s) :
    Exact s.pool (s.cache.replace s.pool h).2 := by
  obtain ⟨hbyId, hbySlug⟩ := hs.first_refresh
  rcases replace_outcomes s.pool h s.cache with
    ⟨e, hreplace⟩ | ⟨old, hold, id, hid, hget, hfree, hreplace⟩
  · rw [hreplace]
    exact hs.refresh
  · have hkept : ∀ slug, s.pool.slug h ≠ some slug →
        ¬ Inherited s.pool.slug slug old s.cache.entities :=
      fun slug hne hlost => hop ⟨old, by rw [hreplace], slug, hne, hlost⟩
    have hput : ((s.cache.refresh s.pool).exchange s.pool old h).byId
        = (s.cache.refresh s.pool).byId.put id h := by
      rw [exchange, byId_enter, enterKey, hid]
    have hentered : ((s.cache.refresh s.pool).exchange s.pool old h).bySlug
        = enterKey s.pool.slug ((s.cache.refresh s.pool).bySlug.drop old) h := by
      rw [exchange, bySlug_enter]
    rw [hreplace]
    refine .inr ?_
    rw [hput, hentered, entities_exchange, entities_refresh]
    exact ⟨hbyId.put_replace hget hid, hbySlug.enter_replace hold hfree hkept⟩

/-- **An operation that loses no key** leaves indexes that find first holders. -/
theorem Exact.run (hs : Exact s.pool s.cache) {op : Op} (hop : ¬ op.Loses s) :
    Exact (op.run s).pool (op.run s).cache := by
  cases op with
  | add h =>
    show Exact s.pool (s.cache.add s.pool h).2
    rcases add_cases s.pool h s.cache with ⟨-, hadd⟩ | ⟨-, e, -, hadd⟩ | ⟨-, -, hadd⟩
    · rw [hadd]
      exact hs.refresh
    · rw [hadd]
      exact hs.refresh
    · rw [hadd]
      exact .inl rfl
  | remove h => exact hs.remove hop
  | replace h => exact hs.replace hop
  | rebuild => exact .inr (first_rebuild s.pool s.cache)
  | invalidate => exact .inl rfl
  | getById id => exact hs.refresh
  | getBySlug slug => exact hs.refresh
  | edit h f =>
    show Exact (s.pool.edit h f) (if s.cache.contains h then s.cache.invalidate else s.cache)
    split
    · exact .inl rfl
    · next hout =>
      have hh : h ∉ s.cache.entities := by simpa [contains] using hout
      have he : ∀ g ∈ s.cache.entities, (s.pool.edit h f).entity g = s.pool.entity g :=
        fun g hg => Pool.entity_edit_of_ne fun heq => hh (heq ▸ hg)
      refine hs.imp_right ?_
      rintro ⟨hbyId, hbySlug⟩
      exact ⟨hbyId.congr fun g hg => congrArg Entity.id (he g hg),
        hbySlug.congr fun g hg => congrArg Entity.slug (he g hg)⟩

/-- Where a cache answers from indexes that are not stale, these hold the keys of what is listed. -/
theorem Answers.held (hs : s.Answers) (hstale : s.cache.stale = false) {g : Handle}
    (hg : g ∈ s.cache.entities) :
    (∀ id, s.pool.id g = some id → s.cache.byId.get? id ≠ none) ∧
      ∀ slug, s.pool.slug g = some slug → s.cache.bySlug.get? slug ≠ none := by
  have hfresh : s.cache.refresh s.pool = s.cache := by
    rw [Cache.refresh, hstale]
    rfl
  constructor
  · intro id hid hnone
    have hfound := hs.byId id
    rw [getById, hfresh] at hfound
    exact firstHolder_eq_none.mp (hfound.symm.trans hnone) g hg hid
  · intro slug hslug hnone
    have hfound := hs.bySlug slug
    rw [getBySlug, hfresh] at hfound
    exact firstHolder_eq_none.mp (hfound.symm.trans hnone) g hg hslug

/-- **An operation that loses a key** leaves a listed entity that holds it and is not found. -/
theorem Exact.not_answers (hs : Exact s.pool s.cache) {op : Op} (hop : op.Loses s) :
    ¬ (op.run s).Answers := by
  intro hanswers
  cases op with
  | remove h =>
    obtain ⟨hstale, gone, hgone, hlost⟩ := hop
    obtain ⟨hbyId, hbySlug⟩ := hs.resolve_left (by simp [hstale])
    have hrun : (Op.remove h).run s = ⟨s.pool, s.cache.without gone⟩ := by
      rw [Op.run, remove_of_counterpart hgone]
    rw [hrun] at hanswers
    rcases hlost with ⟨id, hid⟩ | ⟨slug, hslug⟩
    · obtain ⟨g, hg, hgid⟩ := hid.2
      exact (hanswers.held hstale hg).1 id hgid (hbyId.get?_drop_of_inherited hid)
    · obtain ⟨g, hg, hgslug⟩ := hslug.2
      exact (hanswers.held hstale hg).2 slug hgslug (hbySlug.get?_drop_of_inherited hslug)
  | replace h =>
    obtain ⟨old, hok, slug, hne, hlost⟩ := hop
    obtain ⟨-, hbySlug⟩ := hs.first_refresh
    rcases replace_outcomes s.pool h s.cache with
      ⟨e, hreplace⟩ | ⟨old', hold, id, -, -, -, hreplace⟩
    · rw [hreplace] at hok
      cases hok
    · rw [hreplace] at hok
      obtain rfl := Except.ok.inj hok
      have hrun : (Op.replace h).run s
          = ⟨s.pool, (s.cache.refresh s.pool).exchange s.pool old' h⟩ := by
        rw [Op.run, hreplace]
      rw [hrun] at hanswers
      -- the heir of the slug is still listed, but the slug went with the entity that was replaced
      obtain ⟨g, hg, hgslug⟩ := hlost.2
      have hlisted : g ∈ ((s.cache.refresh s.pool).exchange s.pool old' h).entities := by
        rw [entities_exchange, entities_refresh]
        exact (perm_replace h hold).mem_iff.mpr (List.mem_cons_of_mem _ hg)
      refine (hanswers.held (stale_refresh s.pool s.cache) hlisted).2 slug hgslug ?_
      show ((s.cache.refresh s.pool).exchange s.pool old' h).bySlug.get? slug = none
      rw [exchange, bySlug_enter, Index.get?_enterKey_of_ne _ hne]
      exact hbySlug.get?_drop_of_inherited hlost
  | _ => exact hop

/-! ### Any sequence of operations -/

/-- Every operation of a run finds the cache as a condition demands, when its turn comes. -/
def Throughout (p : Shelf → Op → Prop) : Shelf → List Op → Prop
  | _, [] => True
  | s, op :: ops => p s op ∧ Throughout p (op.run s) ops

theorem answers_prefix_iff (hs : Exact s.pool s.cache) (ops : List Op) :
    (∀ done, done <+: ops → (s.after done).Answers) ↔ s.Throughout (fun s op => ¬ op.Loses s) ops := by
  induction ops generalizing s with
  | nil =>
    refine iff_of_true (fun done hdone => ?_) trivial
    rw [List.prefix_nil.mp hdone]
    exact hs.answers
  | cons op ops ih =>
    constructor
    · intro hanswers
      -- a loss would be noticed at once, whatever the rest of the run is
      have hop : ¬ op.Loses s := fun hloses =>
        hs.not_answers hloses (hanswers [op] ⟨ops, rfl⟩)
      refine ⟨hop, (ih (hs.run hop)).mp fun done hdone => ?_⟩
      exact hanswers (op :: done) (List.cons_prefix_cons.mpr ⟨rfl, hdone⟩)
    · rintro ⟨hop, hrest⟩ done hdone
      rcases List.prefix_cons_iff.mp hdone with rfl | ⟨done', rfl, hdone'⟩
      · exact hs.answers
      · exact (ih (hs.run hop)).mpr hrest done' hdone'

/-- **Look-up finds first holders** at every point of a run exactly when no operation of the run
removes, or replaces by an entity of another slug, the first of several entities that hold a key,
the indexes being up to date. -/
theorem answers_throughout_iff (hs : s.Started) (ops : List Op) :
    (∀ done, done <+: ops → (s.after done).Answers) ↔ s.Throughout (fun s op => ¬ op.Loses s) ops :=
  answers_prefix_iff hs.exact ops

open Samples

/-- The blue one of two tags is renamed to the name of the other, which is then removed before any
look-up: what is removed has no entry yet, and the renamed one is found. -/
theorem answers_throughout_iff_renamed :
    let tags := [tagNamed (some 1) "red", tagNamed (some 2) "blue"]
    let s : Shelf := ⟨(Pool.empty.allocAll tags).2, .empty "tag"⟩
    let ops : List Op :=
      [.add 0, .add 1, .edit 1 fun e => e.set "name" (.value (.string "red")), .remove 0]
    ((s.after ops).cache.getBySlug (s.after ops).pool "red").1 = some 1 := by
  intro tags s ops
  have hstarted : s.Started := ⟨"tag", .inl rfl⟩
  have hstale : ¬ (Op.remove 0).Loses (s.after (ops.take 3)) := by
    rintro ⟨hfresh, -⟩
    exact absurd hfresh (by decide +kernel)
  have hanswers := (answers_throughout_iff hstarted ops).mpr
    ⟨not_false, not_false, not_false, hstale, trivial⟩
  rw [(hanswers ops (List.prefix_refl ops)).bySlug "red"]
  decide +kernel

/-- The same with a look-up in between, which indexes the first of the two. With it the name is
gone: the renamed tag is listed and holds it, look-up says that nobody does, and a third tag of the
name is let in. -/
theorem not_answers_of_removed_first_holder :
    let tags := [tagNamed (some 1) "red", tagNamed (some 2) "blue", tagNamed (some 3) "red"]
    let s : Shelf := ⟨(Pool.empty.allocAll tags).2, .empty "tag"⟩
    let s' := s.after [.add 0, .add 1, .edit 1 fun e => e.set "name" (.value (.string "red")),
      .getBySlug "red", .remove 0]
    s.Started ∧ s'.cache.entities = [1] ∧ s'.pool.slug 1 = some "red" ∧
      (s'.cache.getBySlug s'.pool "red").1 = none ∧ (s'.cache.add s'.pool 2).1 = .ok () ∧
      ¬ s'.Answers := by
  intro tags s s'
  have hlist : s'.cache.entities = [1] := by decide +kernel
  have hnone : (s'.cache.getBySlug s'.pool "red").1 = none := by decide +kernel
  have hslug : s'.pool.slug 1 = some "red" := by decide +kernel
  refine ⟨⟨"tag", .inl rfl⟩, hlist, hslug, hnone, by decide +kernel, fun hanswers => ?_⟩
  have hscan := (hanswers.bySlug "red").symm.trans hnone
  rw [hlist] at hscan
  exact firstHolder_eq_none.mp hscan 1 (List.mem_singleton_self 1) hslug

end Shelf

end EntityStore
