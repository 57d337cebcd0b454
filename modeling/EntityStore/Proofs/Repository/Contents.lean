import EntityStore.Proofs.Cache.Edits
import EntityStore.Proofs.Entity.Plain
import EntityStore.Proofs.Repository.Committing

/-!
# What is committed, as a map

The committed entities of a type are read as a map from ids to state data. A type that has not been
loaded counts with what it would be loaded with, so the map is there from the start, and loading
does not change it. A commit of numbered entities leaves the maps of the types that it does not
touch as they are, and makes its changes to the others.
-/

namespace EntityStore

/-- Reading a list by ids is reading what it stands for. -/
theorem Pool.map_holder? (p : Pool) (id : EntityId) (hs : List Handle) :
    (p.holder? id hs).map p.entity = (p.roster hs).at? id := by
  rw [Roster.at?, Pool.roster, List.find?_map]
  rfl

/-- An entity that had an id is not given another. -/
theorem Entity.Completes.eq {e e' : Entity} (h : e.Completes e') (hid : e.id ≠ none) : e' = e := by
  rcases h with heq | ⟨hnone, -⟩
  · exact heq
  · exact absurd hnone hid

theorem Roster.mem_edits {r : Roster} {cs : List Edit} {e : Entity} (he : e ∈ r.edits cs) :
    e ∈ r ∨ ∃ c ∈ cs, e = c.entity := by
  induction cs generalizing r with
  | nil => exact .inl he
  | cons c rest ih =>
    rcases ih he with hedit | ⟨d, hd, heq⟩
    · have hmem : e ∈ r ∨ e = c.entity := by
        unfold Roster.edit at hedit
        split at hedit
        · simpa using hedit
        · obtain ⟨e', he', heq⟩ := List.mem_map.mp hedit
          split at heq
          · exact .inr heq.symm
          · exact .inl (heq ▸ he')
        · exact .inl (List.mem_filter.mp hedit).1
        · exact .inl hedit
      rcases hmem with hr | heq
      · exact .inl hr
      · exact .inr ⟨c, List.mem_cons_self, heq⟩
    · exact .inr ⟨d, List.mem_cons_of_mem _ hd, heq⟩

namespace Store

/-- The state data that is committed under an id of a type. -/
def content (s : Store) (type : String) (id : EntityId) : Option Snapshot :=
  match exec (checkout type) s with
  | (.ok c, s') => (s'.pool.holder? id c.entities).map (Snapshot.capture s'.pool)
  | (.error _, _) => none

/-- A store of plain entities. -/
structure Plain (s : Store) : Prop where
  yields : s.Yields fun _ e => e.Plain
  pool : s.pool.Holds fun _ e => e.Plain

/-- A sound store of plain entities that keeps no tables. -/
structure Orderly (s : Store) : Prop where
  sound : s.Sound
  plain : s.Plain
  inMemory : s.InMemory

variable {s s' : Store} {type : String} {c : Cache} {changes : Changeset}

theorem Frame.plain (h : Frame s s') (hs : s.Plain) : s'.Plain :=
  ⟨h.yields lasting_plain hs.yields, h.holds lasting_plain hs.yields hs.pool⟩

theorem Frame.orderly (h : Frame s s') (hs : s.Orderly) (hsound : s'.Sound) : s'.Orderly :=
  ⟨hsound, h.plain hs.plain, h.inMemory hs.inMemory⟩

theorem Orderly.capture (hs : s.Orderly) {h : Handle} (hh : h < s.pool.next) :
    Snapshot.capture s.pool h = (s.pool.entity h).stateData :=
  Snapshot.capture_of_plain (hs.plain.pool h hh)

/-- The map is what the opened type reads as. -/
theorem Orderly.content_eq (hs : s.Orderly) (type : String) (id : EntityId) :
    s.content type id =
      match s.opened type with
      | .ok (r, _) => (r.at? id).map Entity.stateData
      | .error _ => none := by
  unfold content opened
  rcases hrun : exec (checkout type) s with ⟨e | c, s'⟩
  · rfl
  · have hloads := hs.sound.loads hrun
    have hs' := hloads.toFrame.orderly hs hloads.sound
    simp only
    rw [← Pool.map_holder?, Option.map_map]
    refine Option.map_congr fun h hh => ?_
    exact hs'.capture ((hloads.sound.committed hloads.found).live h (Pool.holder?_eq_some hh).1)

theorem Orderly.content_of_some (hs : s.Orderly) (hfind : s.repository.caches.find? type = some c)
    (id : EntityId) :
    s.content type id = ((s.pool.roster c.entities).at? id).map Entity.stateData := by
  rw [hs.content_eq, opened_of_some hfind]

theorem Orderly.content_congr (hs : s.Orderly) (hs' : s'.Orderly)
    (h : s'.opened type = s.opened type) (id : EntityId) : s'.content type id = s.content type id := by
  rw [hs.content_eq, hs'.content_eq, h]

/-- What a type opens to has ids throughout. -/
theorem Sound.numbered_of_opened (hs : s.Sound) {r : Roster} {last : EntityId}
    (hopened : s.opened type = .ok (r, last)) : ∀ e ∈ r, e.id ≠ none := by
  unfold opened at hopened
  rcases hrun : exec (checkout type) s with ⟨e | c, s'⟩
  · rw [hrun] at hopened
    cases hopened
  · rw [hrun] at hopened
    obtain ⟨rfl, -⟩ := Prod.mk.inj (Except.ok.inj hopened)
    have hloads := hs.loads hrun
    refine List.forall_mem_map.mpr ?_
    exact (hloads.sound.committed hloads.found).numbered

/-- A commit of entities with ids makes its changes to the map of a type that it touches. -/
theorem Committed.content_touched (h : Committed s changes s') (hs : s.Orderly)
    (htouched : changes.Touches s.pool type)
    (hids : ∀ c ∈ changes.editsOf s.pool type, c.entity.id ≠ none) :
    ∃ r : Roster, r.Throughout Roster.Fits (changes.editsOf s.pool type) ∧
      (∀ id, s.content type id = (r.at? id).map Entity.stateData) ∧
      ∀ id, s'.content type id
        = ((r.edits (changes.editsOf s.pool type)).at? id).map Entity.stateData := by
  have hs' := h.toFrame.orderly hs h.sound
  obtain ⟨r, last, c, hacceptable, hfind, hcompletes⟩ := h.touched htouched
  have hsame : s'.pool.roster c.entities = r.edits (changes.editsOf s.pool type) := by
    refine List.ext_get hcompletes.length_eq.symm fun i hi hi' => ?_
    refine (hcompletes.get hi' hi).eq ?_
    rcases Roster.mem_edits (List.get_mem _ ⟨i, hi'⟩) with hr | ⟨d, hd, heq⟩
    · exact hs.sound.numbered_of_opened hacceptable.opened _ hr
    · rw [heq]
      exact hids d hd
  refine ⟨r, hacceptable.fits, ?_, ?_⟩
  · intro id
    rw [hs.content_eq, hacceptable.opened]
  · intro id
    rw [hs'.content_of_some hfind, hsame]

theorem Committed.content_untouched (h : Committed s changes s') (hs : s.Orderly)
    (huntouched : ¬ changes.Touches s.pool type) (id : EntityId) :
    s'.content type id = s.content type id :=
  hs.content_congr (h.toFrame.orderly hs h.sound) (h.untouched huntouched) id

theorem ids_editsOf (hids : ∀ c ∈ changes, s.pool.id c.entity ≠ none) :
    ∀ c ∈ changes.editsOf s.pool type, c.entity.id ≠ none := by
  refine List.forall_mem_map.mpr fun c hc => ?_
  exact hids c (List.mem_filter.mp hc).1

theorem id_ne_of_mem_editsOf {id : EntityId}
    (h : ∀ c ∈ changes, s.pool.typeName c.entity = type → s.pool.id c.entity ≠ some id) :
    ∀ c ∈ changes.editsOf s.pool type, c.entity.id ≠ some id := by
  refine List.forall_mem_map.mpr fun c hc => ?_
  obtain ⟨hmem, htype⟩ := List.mem_filter.mp hc
  exact h c hmem (by simpa using htype)

/-- Under an id that no change is about stands what stood there. -/
theorem Committed.content_of_unchanged (h : Committed s changes s') (hs : s.Orderly)
    (hids : ∀ c ∈ changes, s.pool.id c.entity ≠ none) {id : EntityId}
    (hnone : ∀ c ∈ changes, s.pool.typeName c.entity = type → s.pool.id c.entity ≠ some id) :
    s'.content type id = s.content type id := by
  by_cases htouched : changes.Touches s.pool type
  · obtain ⟨r, -, hbefore, hafter⟩ := h.content_touched hs htouched (ids_editsOf hids)
    rw [hbefore, hafter, Roster.at?_edits_of_ne (id_ne_of_mem_editsOf hnone)]
  · exact h.content_untouched hs htouched id

/-- Under an id that changes are about stands what the last of them puts there. -/
theorem Committed.content_of_last (h : Committed s changes s') (hs : s.Orderly)
    (hids : ∀ c ∈ changes, s.pool.id c.entity ≠ none) {c : Change} {cs ds : Changeset}
    (hsplit : changes = cs ++ c :: ds) {id : EntityId} (hid : s.pool.id c.entity = some id)
    (hlast : ∀ d ∈ ds, s.pool.typeName d.entity = s.pool.typeName c.entity →
      s.pool.id d.entity ≠ some id) :
    s'.content (s.pool.typeName c.entity) id = (c.edit s.pool).outcome.map Entity.stateData := by
  have hmem : c ∈ changes := by
    rw [hsplit]
    exact List.mem_append_right _ List.mem_cons_self
  obtain ⟨r, hfits, -, hafter⟩ := h.content_touched hs ⟨c, hmem, rfl⟩ (ids_editsOf hids)
  have hedits : changes.editsOf s.pool (s.pool.typeName c.entity)
      = cs.editsOf s.pool (s.pool.typeName c.entity)
        ++ c.edit s.pool :: ds.editsOf s.pool (s.pool.typeName c.entity) := by
    rw [hsplit, Changeset.editsOf_append, ← List.singleton_append, Changeset.editsOf_append,
      Changeset.editsOf_singleton rfl]
    rfl
  rw [hedits] at hfits hafter
  rw [hafter, Roster.at?_edits_of_last hfits hid (id_ne_of_mem_editsOf hlast)]

/-! ## Steps that change no content -/

/-- A step keeps the entities that have ids, and what is committed. -/
structure Carries (s s' : Store) : Prop where
  orderly : s'.Orderly
  pool : s.pool.Grows s'.pool
  content : ∀ type id, s'.content type id = s.content type id

theorem Carries.refl (hs : s.Orderly) : Carries s s := ⟨hs, .refl _, fun _ _ => rfl⟩

theorem Carries.trans {s'' : Store} (h : Carries s s') (h' : Carries s' s'') : Carries s s'' where
  orderly := h'.orderly
  pool := h.pool.trans h'.pool
  content := fun type id => (h'.content type id).trans (h.content type id)

/-- Where the same types are loaded and the pool only grows, the content stays. -/
theorem Orderly.carries (hs : s.Orderly) (hs' : s'.Orderly) (hpool : s.pool.Grows s'.pool)
    (hcaches : s'.repository.caches = s.repository.caches)
    (hloaded : ∀ type, s'.loaded type = s.loaded type) : Carries s s' where
  orderly := hs'
  pool := hpool
  content := by
    intro type id
    cases hfind : s.repository.caches.find? type with
    | some c =>
      have hfind' : s'.repository.caches.find? type = some c := by rw [hcaches, hfind]
      have hkept := (hs.sound.committed hfind).kept hpool
      rw [hs.content_of_some hfind, hs'.content_of_some hfind', Pool.roster_congr hkept]
    | none =>
      have hfind' : s'.repository.caches.find? type = none := by rw [hcaches, hfind]
      exact hs.content_congr hs' (opened_congr_of_none (hloaded type) hfind hfind') id

theorem Orderly.carries_checkout (hs : s.Orderly) (type : String) :
    Carries s (exec (checkout type) s).2 := by
  rcases hrun : exec (checkout type) s with ⟨e | c, s'⟩
  · have hfails := hs.sound.failsToLoad hrun
    have hs' := hfails.toFrame.orderly hs hfails.sound
    exact ⟨hs', hfails.pool.grows, fun t id => hs.content_congr hs' (opened_of_checkout hs.sound hrun t) id⟩
  · have hloads := hs.sound.loads hrun
    have hs' := hloads.toFrame.orderly hs hloads.sound
    exact ⟨hs', hloads.pool.grows, fun t id => hs.content_congr hs' (opened_of_checkout hs.sound hrun t) id⟩

theorem Orderly.carries_newId (hs : s.Orderly) (type : String) :
    Carries s (exec (newId type) s).2 := by
  obtain ⟨hretains, hsound, -⟩ := newId_spec hs.sound type
  have hs' := hretains.toFrame.orderly hs hsound
  have hcheckout := hs.carries_checkout type
  rw [exec_newId] at hs' ⊢
  rcases hrun : exec (checkout type) s with ⟨e | c, s₁⟩
  · rw [hrun] at hcheckout
    exact hcheckout
  · rw [hrun] at hcheckout hs'
    simp only at hs' ⊢
    cases hadvance :
        (advance type ((s₁.pool.roster c.entities).latest (s₁.repository.lastId type))).1 with
    | error e => exact hcheckout
    | ok id =>
      rw [hadvance] at hs'
      exact hcheckout.trans (hcheckout.orderly.carries hs' (.refl _) rfl fun _ => rfl)

/-- A store whose pool is another, in which the committed entities are as they were. -/
theorem Orderly.withPool (hs : s.Orderly) {pool : Pool} (hnext : s.pool.next ≤ pool.next)
    (hkept : ∀ {type c}, s.repository.caches.find? type = some c →
      ∀ h ∈ c.entities, pool.entity h = s.pool.entity h)
    (hclosed : pool.Closed) (hplain : pool.Holds fun _ e => e.Plain) :
    Orderly { s with pool } where
  sound := hs.sound.withPool hnext hkept hclosed
  plain := ⟨hs.plain.yields, hplain⟩
  inMemory := hs.inMemory

/-- Giving an entity the id that it does not have changes no content. -/
theorem Orderly.carries_setId (hs : s.Orderly) {h : Handle} (hid : s.pool.id h = none)
    (id : EntityId) : Carries s { s with pool := s.pool.edit h fun e => e.setId (some id) } := by
  have hgrows := Pool.grows_setId hid id
  have hs' : Orderly { s with pool := s.pool.edit h fun e => e.setId (some id) } :=
    hs.withPool hgrows.next_le (fun hfind => (hs.sound.committed hfind).kept hgrows)
      (hs.sound.closed.grows lasting_refersBelow hgrows rfl)
      (hs.plain.pool.grows lasting_plain hgrows rfl)
  exact hs.carries hs' hgrows rfl fun _ => rfl

end Store

end EntityStore
