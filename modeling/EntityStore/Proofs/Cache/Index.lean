import EntityStore.Cache
import Mathlib.Data.List.Nodup

/-!
# Indexes of a list of entities

An index is *sound* for a list when what it finds under a key is listed and holds that key. It
*covers* the list when, besides, every key that a listed entity holds is found. Adding keeps both.
Removing an entity from the list and dropping it from the index keeps soundness in any case, but
coverage only where no other entity held one of its keys; ids are such keys, slugs need not be.
-/

namespace EntityStore

/-! ## Replacing an item of a list -/

section Replacing

variable {α : Type} [DecidableEq α] {l : List α} {a b x : α}

theorem replace_eq_map (hl : l.Nodup) : l.replace a b = l.map fun x => if x = a then b else x := by
  induction l with
  | nil => rfl
  | cons y rest ih =>
    obtain ⟨hy, hrest⟩ := List.nodup_cons.mp hl
    rw [List.map_cons]
    by_cases hya : y = a
    · subst hya
      have hmap : rest.map (fun x => if x = y then b else x) = rest := by
        refine (List.map_congr_left fun x hx => ?_).trans (List.map_id rest)
        exact if_neg fun heq : x = y => hy (heq ▸ hx)
      rw [List.replace_cons_self, if_pos rfl, hmap]
    · have hne : (a == y) = false := beq_false_of_ne fun heq => hya heq.symm
      rw [List.replace_cons, hne, if_neg hya, ih hrest]

theorem mem_replace (hl : l.Nodup) (ha : a ∈ l) :
    x ∈ l.replace a b ↔ x = b ∨ x ∈ l ∧ x ≠ a := by
  rw [replace_eq_map hl, List.mem_map]
  constructor
  · rintro ⟨y, hy, rfl⟩
    by_cases hya : y = a
    · exact .inl (if_pos hya)
    · rw [if_neg hya]
      exact .inr ⟨hy, hya⟩
  · rintro (rfl | ⟨hx, hxa⟩)
    · exact ⟨a, ha, if_pos rfl⟩
    · exact ⟨x, hx, if_neg hxa⟩

theorem nodup_replace (hl : l.Nodup) (hb : b ∈ l → b = a) : (l.replace a b).Nodup := by
  rw [replace_eq_map hl]
  refine hl.map_on ?_
  intro x hx y hy heq
  by_cases hxa : x = a
  · by_cases hya : y = a
    · rw [hxa, hya]
    · rw [if_pos hxa, if_neg hya] at heq
      rw [← heq] at hy hya
      exact absurd (hb hy) hya
  · by_cases hya : y = a
    · rw [if_neg hxa, if_pos hya] at heq
      rw [heq] at hx hxa
      exact absurd (hb hx) hxa
    · rw [if_neg hxa, if_neg hya] at heq
      exact heq

theorem mem_or_eq_of_mem_replace (hx : x ∈ l.replace a b) : x ∈ l ∨ x = b := by
  induction l with
  | nil => exact .inl hx
  | cons y rest ih =>
    rw [List.replace_cons] at hx
    split at hx
    · rcases List.mem_cons.mp hx with rfl | hx
      · exact .inr rfl
      · exact .inl (List.mem_cons_of_mem y hx)
    · rcases List.mem_cons.mp hx with rfl | hx
      · exact .inl List.mem_cons_self
      · exact (ih hx).imp_left (List.mem_cons_of_mem y)

theorem replace_self (l : List α) (a : α) : l.replace a a = l := by
  induction l with
  | nil => rfl
  | cons y rest ih =>
    rw [List.replace_cons]
    split
    next heq => rw [beq_iff_eq.mp heq]
    next => rw [ih]

theorem mem_replace_self (ha : a ∈ l) (b : α) : b ∈ l.replace a b := by
  induction l with
  | nil => cases ha
  | cons y rest ih =>
    rw [List.replace_cons]
    split
    next => exact List.mem_cons_self
    next hne =>
      have hne : a ≠ y := by simpa using hne
      exact List.mem_cons_of_mem _ (ih ((List.mem_cons.mp ha).resolve_left hne))

end Replacing

namespace Index

variable {κ : Type} [DecidableEq κ]

/-- The keys of an index, each of which it has once. -/
def Distinct (ix : Index κ) : Prop := (ix.map Prod.fst).Nodup

theorem get?_cons (k k' : κ) (h : Handle) (rest : Index κ) :
    get? ((k, h) :: rest) k' = if k = k' then some h else get? rest k' := by
  unfold get?
  by_cases hk : k = k'
  · rw [if_pos hk, List.find?_cons_of_pos (by simpa using hk)]
    rfl
  · rw [if_neg hk, List.find?_cons_of_neg (by simpa using hk)]

theorem get?_eq_none_of_not_mem {ix : Index κ} {k : κ} (hk : k ∉ ix.map Prod.fst) :
    ix.get? k = none := by
  unfold get?
  rw [Option.map_eq_none_iff, List.find?_eq_none]
  intro entry hentry heq
  exact hk (List.mem_map.mpr ⟨entry, hentry, by simpa using heq⟩)

theorem get?_put (ix : Index κ) (k : κ) (h : Handle) (k' : κ) :
    (ix.put k h).get? k' = if k = k' then some h else ix.get? k' := by
  induction ix with
  | nil => rw [put, get?_cons]
  | cons entry rest ih =>
    obtain ⟨l, g⟩ := entry
    rw [put]
    by_cases hl : l = k
    · subst hl
      rw [if_pos rfl, get?_cons, get?_cons]
      split <;> rfl
    · rw [if_neg hl, get?_cons, ih, get?_cons]
      by_cases hk : l = k'
      · rw [if_pos hk, if_pos hk, if_neg fun heq => hl (hk.trans heq.symm)]
      · rw [if_neg hk, if_neg hk]

theorem mem_fst_put {ix : Index κ} {k : κ} {h : Handle} {l : κ}
    (hl : l ∈ (ix.put k h).map Prod.fst) : l = k ∨ l ∈ ix.map Prod.fst := by
  induction ix with
  | nil => exact .inl (by simpa [put] using hl)
  | cons entry rest ih =>
    obtain ⟨m, g⟩ := entry
    rw [put] at hl
    split at hl
    · next hm =>
      subst hm
      exact .inr hl
    · rcases List.mem_cons.mp hl with rfl | hl
      · exact .inr List.mem_cons_self
      · rcases ih hl with heq | hmem
        · exact .inl heq
        · exact .inr (List.mem_cons_of_mem _ hmem)

theorem Distinct.put {ix : Index κ} (hix : ix.Distinct) (k : κ) (h : Handle) :
    (ix.put k h).Distinct := by
  induction ix with
  | nil => exact List.nodup_cons.mpr ⟨List.not_mem_nil, List.nodup_nil⟩
  | cons entry rest ih =>
    obtain ⟨l, g⟩ := entry
    obtain ⟨hl, hrest⟩ := List.nodup_cons.mp hix
    rw [Index.put]
    split
    · next heq =>
      subst heq
      exact List.nodup_cons.mpr ⟨hl, hrest⟩
    · next hne =>
      refine List.nodup_cons.mpr ⟨?_, ih hrest⟩
      intro hmem
      rcases mem_fst_put hmem with heq | hmem
      · exact hne heq
      · exact hl hmem

/-- A new key goes to the end; a key that is there keeps its entry. -/
theorem putNew_eq_put_of_new {ix : Index κ} {k : κ} (h : Handle) (hk : ix.get? k = none) :
    ix.putNew k h = ix.put k h := by
  unfold putNew
  rw [hk, if_neg (by simp)]
  induction ix with
  | nil => rfl
  | cons entry rest ih =>
    obtain ⟨l, g⟩ := entry
    rw [get?_cons] at hk
    split at hk
    · cases hk
    · next hne =>
      rw [put, if_neg hne, ← ih hk]
      rfl

theorem putNew_of_held {ix : Index κ} {k : κ} (h : Handle) (hk : (ix.get? k).isSome) :
    ix.putNew k h = ix := by
  unfold putNew
  rw [if_pos hk]

theorem get?_drop {ix : Index κ} (hix : ix.Distinct) (h : Handle) (k : κ) :
    (ix.drop h).get? k = (ix.get? k).filter (· != h) := by
  induction ix with
  | nil => rfl
  | cons entry rest ih =>
    obtain ⟨l, g⟩ := entry
    obtain ⟨hl, hrest⟩ := List.nodup_cons.mp hix
    have hcons : drop ((l, g) :: rest) h = if (g != h) = true then (l, g) :: drop rest h
        else drop rest h := List.filter_cons
    rw [hcons, get?_cons]
    by_cases hk : l = k
    · subst hk
      rw [if_pos rfl]
      by_cases hg : g = h
      · subst hg
        have hnone : get? rest l = none := get?_eq_none_of_not_mem hl
        rw [if_neg (by simp), ih hrest, hnone, Option.filter_some, if_neg (by simp)]
        rfl
      · have hne : (g != h) = true := by simpa using hg
        rw [if_pos hne, get?_cons, if_pos rfl, Option.filter_some, if_pos hne]
    · rw [if_neg hk, ← ih hrest]
      split
      · rw [get?_cons, if_neg hk]
      · rfl

omit [DecidableEq κ] in
theorem Distinct.drop {ix : Index κ} (hix : ix.Distinct) (h : Handle) : (ix.drop h).Distinct :=
  List.Nodup.sublist (List.Sublist.map _ List.filter_sublist) hix

/-! ## Indexes of lists -/

/-- What the index finds is listed and holds the key. -/
structure Sound (ix : Index κ) (key : Handle → Option κ) (hs : List Handle) : Prop where
  /-- Every key has one entry. -/
  distinct : ix.Distinct
  /-- What is found is listed, and holds the key. -/
  sound : ∀ {k h}, ix.get? k = some h → h ∈ hs ∧ key h = some k

/-- The index is sound, and finds every key of a listed entity. -/
structure Covers (ix : Index κ) (key : Handle → Option κ) (hs : List Handle) : Prop
    extends Sound ix key hs where
  /-- Every key that is held is found. -/
  complete : ∀ {h}, h ∈ hs → ∀ {k}, key h = some k → (ix.get? k).isSome

variable {ix : Index κ} {key key' : Handle → Option κ} {hs : List Handle} {h old : Handle} {k : κ}

theorem covers_nil : Covers ([] : Index κ) key [] where
  distinct := List.nodup_nil
  sound := fun hget => by cases hget
  complete := fun hmem => absurd hmem List.not_mem_nil

theorem Covers.isSome_iff (hix : ix.Covers key hs) :
    (ix.get? k).isSome ↔ ∃ h ∈ hs, key h = some k := by
  constructor
  · intro hsome
    obtain ⟨h, hget⟩ := Option.isSome_iff_exists.mp hsome
    exact ⟨h, hix.sound hget⟩
  · rintro ⟨h, hmem, hkey⟩
    exact hix.complete hmem hkey

/-- Where a key is held once, its holder is found. -/
theorem Covers.get?_eq (hix : ix.Covers key hs) (hmem : h ∈ hs) (hkey : key h = some k)
    (honce : ∀ g ∈ hs, key g = some k → g = h) : ix.get? k = some h := by
  obtain ⟨g, hget⟩ := Option.isSome_iff_exists.mp (hix.complete hmem hkey)
  obtain ⟨hg, hgkey⟩ := hix.sound hget
  rw [hget, honce g hg hgkey]

/-- Only the keys of the listed entities matter. -/
theorem Sound.congr (hix : ix.Sound key hs) (hkeys : ∀ h ∈ hs, key' h = key h) :
    ix.Sound key' hs where
  distinct := hix.distinct
  sound := fun hget => by
    obtain ⟨hmem, hkey⟩ := hix.sound hget
    exact ⟨hmem, (hkeys _ hmem).trans hkey⟩

theorem Covers.congr (hix : ix.Covers key hs) (hkeys : ∀ h ∈ hs, key' h = key h) :
    ix.Covers key' hs where
  toSound := hix.toSound.congr hkeys
  complete := fun hmem _ hkey => hix.complete hmem ((hkeys _ hmem).symm.trans hkey)

/-- A longer list has the keys of the shorter. -/
theorem Sound.append (hix : ix.Sound key hs) (h : Handle) : ix.Sound key (hs ++ [h]) where
  distinct := hix.distinct
  sound := fun hget =>
    ⟨List.mem_append_left _ (hix.sound hget).1, (hix.sound hget).2⟩

theorem Sound.put (hix : ix.Sound key hs) (hkey : key h = some k) :
    (ix.put k h).Sound key (hs ++ [h]) where
  distinct := hix.distinct.put k h
  sound := by
    intro k' g hget
    rw [get?_put] at hget
    split at hget
    · next heq =>
      obtain rfl := Option.some.inj hget
      subst heq
      exact ⟨List.mem_append_right _ List.mem_cons_self, hkey⟩
    · exact ⟨List.mem_append_left _ (hix.sound hget).1, (hix.sound hget).2⟩

/-- An entity without a key is covered by having no entry. -/
theorem Covers.append (hix : ix.Covers key hs) (hkey : key h = none) :
    ix.Covers key (hs ++ [h]) where
  toSound := hix.toSound.append h
  complete := by
    intro g hg k hgkey
    rcases List.mem_append.mp hg with hg | hg
    · exact hix.complete hg hgkey
    · obtain rfl := List.mem_singleton.mp hg
      rw [hkey] at hgkey
      cases hgkey

theorem Covers.put (hix : ix.Covers key hs) (hkey : key h = some k) :
    (ix.put k h).Covers key (hs ++ [h]) where
  toSound := hix.toSound.put hkey
  complete := by
    intro g hg k' hgkey
    rw [get?_put]
    split
    · rfl
    · next hne =>
      rcases List.mem_append.mp hg with hg | hg
      · exact hix.complete hg hgkey
      · obtain rfl := List.mem_singleton.mp hg
        rw [hkey] at hgkey
        exact absurd (Option.some.inj hgkey) hne

theorem Covers.putNew (hix : ix.Covers key hs) (hkey : key h = some k) :
    (ix.putNew k h).Covers key (hs ++ [h]) := by
  cases hget : ix.get? k with
  | none =>
    rw [putNew_eq_put_of_new h hget]
    exact hix.put hkey
  | some g =>
    have hheld : (ix.get? k).isSome := by rw [hget]; rfl
    rw [putNew_of_held h hheld]
    refine ⟨hix.toSound.append h, ?_⟩
    intro g' hg' k' hkey'
    rcases List.mem_append.mp hg' with hg' | hg'
    · exact hix.complete hg' hkey'
    · obtain rfl := List.mem_singleton.mp hg'
      rw [hkey] at hkey'
      obtain rfl := Option.some.inj hkey'
      exact hheld

theorem Sound.drop (hix : ix.Sound key hs) (h : Handle) : (ix.drop h).Sound key (hs.erase h) where
  distinct := hix.distinct.drop h
  sound := by
    intro k g hget
    rw [get?_drop hix.distinct, Option.filter_eq_some_iff] at hget
    obtain ⟨hget, hne⟩ := hget
    obtain ⟨hmem, hkey⟩ := hix.sound hget
    exact ⟨(List.mem_erase_of_ne (by simpa using hne)).mpr hmem, hkey⟩

/-- Dropping an entity that shares its key with no other keeps all other keys. -/
theorem Covers.drop (hix : ix.Covers key hs) (hnodup : hs.Nodup)
    (honce : ∀ g ∈ hs, ∀ k, key g = some k → key h = some k → g = h) :
    (ix.drop h).Covers key (hs.erase h) where
  toSound := hix.toSound.drop h
  complete := by
    intro g hg k hkey
    obtain ⟨hne, hmem⟩ := (List.Nodup.mem_erase_iff hnodup).mp hg
    obtain ⟨g', hget⟩ := Option.isSome_iff_exists.mp (hix.complete hmem hkey)
    have hne' : g' ≠ h := by
      intro heq
      subst heq
      exact hne (honce g hmem k hkey (hix.sound hget).2)
    rw [get?_drop hix.distinct, hget, Option.filter_some, if_pos (by simpa using hne')]
    rfl

/-- Putting an entity in the place of the only holder of a key. -/
theorem Covers.replace (hix : ix.Covers key hs) (hnodup : hs.Nodup) (hold : old ∈ hs) (hkey : key h = some k)
    (hkeyOld : key old = some k) (honce : ∀ g ∈ hs, key g = some k → g = old) :
    (ix.put k h).Covers key (hs.replace old h) where
  distinct := hix.distinct.put k h
  sound := by
    intro k' g hget
    rw [get?_put] at hget
    split at hget
    · next heq =>
      obtain rfl := Option.some.inj hget
      subst heq
      exact ⟨(mem_replace hnodup hold).mpr (.inl rfl), hkey⟩
    · next hne =>
      obtain ⟨hmem, hgkey⟩ := hix.sound hget
      have hg : g ≠ old := by
        intro heq
        subst heq
        rw [hkeyOld] at hgkey
        exact hne (Option.some.inj hgkey)
      exact ⟨(mem_replace hnodup hold).mpr (.inr ⟨hmem, hg⟩), hgkey⟩
  complete := by
    intro g hg k' hgkey
    rw [get?_put]
    split
    · rfl
    · next hne =>
      rcases (mem_replace hnodup hold).mp hg with rfl | ⟨hg, -⟩
      · rw [hkey] at hgkey
        exact absurd (Option.some.inj hgkey) hne
      · exact hix.complete hg hgkey

end Index

namespace Cache

/-- Enter an entity's key, if it has one that is not taken. -/
def enterNew {κ : Type} [DecidableEq κ] (key : Handle → Option κ) (ix : Index κ) (h : Handle) :
    Index κ :=
  match key h with
  | some k => ix.putNew k h
  | none => ix

theorem indexEntity_eq (pool : Pool) (ix : Index EntityId × Index String) (h : Handle) :
    indexEntity pool ix h = (enterNew pool.id ix.1 h, enterNew pool.slug ix.2 h) := by
  unfold indexEntity enterNew
  cases pool.id h <;> cases pool.slug h <;> rfl

theorem covers_foldl_enterNew {κ : Type} [DecidableEq κ] {key : Handle → Option κ} {ix : Index κ}
    {done : List Handle} (hix : ix.Covers key done) (hs : List Handle) :
    (hs.foldl (enterNew key) ix).Covers key (done ++ hs) := by
  induction hs generalizing ix done with
  | nil => simpa using hix
  | cons h rest ih =>
    rw [List.foldl_cons, List.append_cons]
    refine ih ?_
    unfold enterNew
    cases hkey : key h with
    | none => exact hix.append hkey
    | some k => exact hix.putNew hkey

theorem foldl_indexEntity (pool : Pool) (ix : Index EntityId × Index String) (hs : List Handle) :
    hs.foldl (indexEntity pool) ix
      = (hs.foldl (enterNew pool.id) ix.1, hs.foldl (enterNew pool.slug) ix.2) := by
  induction hs generalizing ix with
  | nil => rfl
  | cons h rest ih => rw [List.foldl_cons, ih, indexEntity_eq, List.foldl_cons, List.foldl_cons]

variable (pool : Pool) (c : Cache)

@[simp] theorem type_rebuild : (c.rebuild pool).type = c.type := rfl

/-- Rebuilt indexes cover the list. -/
theorem covers_rebuild :
    (c.rebuild pool).byId.Covers pool.id c.entities ∧
      (c.rebuild pool).bySlug.Covers pool.slug c.entities := by
  unfold rebuild
  rw [foldl_indexEntity]
  exact ⟨covers_foldl_enterNew Index.covers_nil c.entities,
    covers_foldl_enterNew Index.covers_nil c.entities⟩

@[simp] theorem entities_refresh : (c.refresh pool).entities = c.entities := by
  unfold refresh
  split <;> rfl

@[simp] theorem type_refresh : (c.refresh pool).type = c.type := by
  unfold refresh
  split <;> rfl

end Cache

/-! ## Caches by type -/

namespace Caches

variable (cs : Caches) (c : Cache) (type : String)

theorem type_of_find? {cs : Caches} {c : Cache} {type : String} (h : cs.find? type = some c) :
    c.type = type := by
  have hfound := List.find?_some h
  simpa using hfound

theorem find?_cons (d : Cache) (rest : Caches) :
    find? (d :: rest) type = if d.type = type then some d else find? rest type := by
  unfold find?
  by_cases hd : d.type = type
  · rw [if_pos hd, List.find?_cons_of_pos (by simpa using hd)]
  · rw [if_neg hd, List.find?_cons_of_neg (by simpa using hd)]

theorem find?_put : (cs.put c).find? type = if c.type = type then some c else cs.find? type := by
  induction cs with
  | nil => rw [put, find?_cons]
  | cons d rest ih =>
    rw [put]
    by_cases hd : d.type = c.type
    · rw [if_pos hd, find?_cons, find?_cons, hd]
      split <;> rfl
    · rw [if_neg hd, find?_cons, find?_cons, ih]
      by_cases hdt : d.type = type
      · rw [if_pos hdt, if_pos hdt, if_neg fun heq => hd (hdt.trans heq.symm)]
      · rw [if_neg hdt, if_neg hdt]

@[simp] theorem find?_put_self : (cs.put c).find? c.type = some c := by
  rw [find?_put, if_pos rfl]

theorem find?_put_of_eq {cs : Caches} {c : Cache} {type : String} (h : c.type = type) :
    (cs.put c).find? type = some c := by
  rw [find?_put, if_pos h]

theorem find?_put_of_ne {cs : Caches} {c : Cache} {type : String} (h : c.type ≠ type) :
    (cs.put c).find? type = cs.find? type := by
  rw [find?_put, if_neg h]

theorem find?_put_eq_some {cs : Caches} {c d : Cache} {type : String} :
    (cs.put c).find? type = some d ↔
      c.type = type ∧ d = c ∨ c.type ≠ type ∧ cs.find? type = some d := by
  rw [find?_put]
  split
  · next heq => simp [heq, eq_comm]
  · next hne => simp [hne]

theorem find?_put_eq_none {cs : Caches} {c : Cache} {type : String} :
    (cs.put c).find? type = none ↔ c.type ≠ type ∧ cs.find? type = none := by
  rw [find?_put]
  split
  · next heq => simp [heq]
  · next hne => simp [hne]

/-- The types of some caches. -/
def types (cs : Caches) : List String := cs.map Cache.type

theorem mem_of_find? {cs : Caches} {c : Cache} {type : String} (h : cs.find? type = some c) :
    c ∈ cs := List.mem_of_find?_eq_some h

theorem isSome_find? : (cs.find? type).isSome ↔ type ∈ cs.types := by
  unfold find? types
  rw [List.find?_isSome, List.mem_map]
  simp

/-- Where no type has two caches, a cache is the one of its type. -/
theorem find?_of_mem {cs : Caches} {c : Cache} (hcs : cs.types.Nodup) (hc : c ∈ cs) :
    cs.find? c.type = some c := by
  induction cs with
  | nil => exact absurd hc List.not_mem_nil
  | cons d rest ih =>
    obtain ⟨hd, hrest⟩ := List.nodup_cons.mp hcs
    rw [find?_cons]
    rcases List.mem_cons.mp hc with rfl | hc
    · rw [if_pos rfl]
    · rw [if_neg, ih hrest hc]
      intro heq
      exact hd (heq ▸ List.mem_map_of_mem hc)

theorem mem_types_put {t : String} : t ∈ (cs.put c).types ↔ t = c.type ∨ t ∈ cs.types := by
  rw [← isSome_find?, ← isSome_find?, find?_put]
  by_cases ht : c.type = t
  · simp [ht]
  · simp [ht, Ne.symm ht]

theorem nodup_types_put (hcs : cs.types.Nodup) : (cs.put c).types.Nodup := by
  induction cs with
  | nil => exact List.nodup_singleton _
  | cons d rest ih =>
    obtain ⟨hd, hrest⟩ := List.nodup_cons.mp hcs
    rw [put]
    split
    · next heq => exact List.nodup_cons.mpr ⟨heq ▸ hd, hrest⟩
    · next hne =>
      refine List.nodup_cons.mpr ⟨?_, ih hrest⟩
      intro hmem
      rcases (mem_types_put rest c).mp hmem with heq | hmem
      · exact hne heq
      · exact hd hmem

/-- Where no type has two caches, what is put in is the only one of its type. -/
theorem eq_or_mem_of_mem_put {cs : Caches} {c d : Cache} (hcs : cs.types.Nodup) (hd : d ∈ cs.put c) :
    d = c ∨ d ∈ cs ∧ d.type ≠ c.type := by
  have hfind := find?_of_mem (nodup_types_put cs c hcs) hd
  rcases find?_put_eq_some.mp hfind with ⟨-, heq⟩ | ⟨hne, hfind⟩
  · exact .inl heq
  · exact .inr ⟨mem_of_find? hfind, Ne.symm hne⟩

/-- Of several caches put in, the one of a type is found; else what was there is. -/
theorem find?_foldl_put {cs : Caches} (hcs : cs.types.Nodup) (base : Caches) :
    (cs.foldl put base).find? type = (cs.find? type).or (base.find? type) := by
  induction cs generalizing base with
  | nil => rfl
  | cons d rest ih =>
    obtain ⟨hd, hrest⟩ := List.nodup_cons.mp hcs
    rw [List.foldl_cons, ih hrest, find?_put, find?_cons]
    by_cases hdt : d.type = type
    · have hnone : find? rest type = none := by
        rw [← Option.not_isSome_iff_eq_none, isSome_find?, ← hdt]
        exact hd
      rw [if_pos hdt, if_pos hdt, hnone]
      rfl
    · rw [if_neg hdt, if_neg hdt]

theorem find?_rebuild (pool : Pool) :
    (cs.rebuild pool).find? type = (cs.find? type).map (Cache.rebuild pool) := by
  induction cs with
  | nil => rfl
  | cons d rest ih =>
    have hcons : Caches.rebuild pool (d :: rest) = d.rebuild pool :: Caches.rebuild pool rest := rfl
    rw [hcons, find?_cons, find?_cons, ih, Cache.type_rebuild]
    split <;> rfl

end Caches

end EntityStore
