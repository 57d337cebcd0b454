import EntityStore.Proofs.Repository.Finishing

/-!
# Commits

A commit that goes through puts the finished copies in the place of the touched caches. One that
fails, wherever it does, leaves every loaded type as it was: its entities, their order, their ids
and their fields. It goes through if every touched type opens, all changes fit, no addition takes
a slug that is held at its turn, no key is held twice in the end and there are ids enough.
-/

namespace EntityStore

/-- An entity as it was, or with the id it did not have. -/
def Entity.Completes (e e' : Entity) : Prop :=
  e' = e ∨ e.id = none ∧ ∃ id, e' = e.setId (some id)

namespace Store

variable {s s' s₀ : Store} {cs staged : Caches} {changes done : Changeset} {type : String}

/-- A touched type after its changes, and before it is numbered: what it was, what its changes
make of it, and that they fit. -/
structure Edited (s : Store) (changes : Changeset) (type : String) (r : Roster) (last : EntityId) :
    Prop where
  opened : s.opened type = .ok (r, last)
  fits : r.Throughout Roster.Fits (changes.editsOf s.pool type)

/-- A touched type that a commit can finish. -/
structure Acceptable (s : Store) (changes : Changeset) (type : String) (r : Roster)
    (last : EntityId) : Prop extends Edited s changes type r last where
  unique : (r.edits (changes.editsOf s.pool type)).UniqueKeys
  roomy : (r.edits (changes.editsOf s.pool type)).Roomy last

/-- Whether a staged cache can be finished is a matter of the edited roster. -/
theorem Staging.finishable_iff (h : Staging s₀ done staged s) {c : Cache} (hc : c ∈ staged) :
    ∃ r last, Edited s₀ done c.type r last ∧
      s.pool.roster c.entities = r.edits (done.editsOf s₀.pool c.type) ∧
      (s.Finishable c ↔ Acceptable s₀ done c.type r last) := by
  obtain ⟨r, last, hopened, hfits, hreads⟩ := h.reads c hc
  have hlast := h.lastId (List.mem_map_of_mem hc) hopened
  refine ⟨r, last, ⟨hopened, hfits⟩, hreads, ?_⟩
  rw [Finishable, hreads, hlast]
  constructor
  · rintro ⟨hunique, hroomy⟩
    exact ⟨⟨hopened, hfits⟩, hunique, hroomy⟩
  · exact fun h => ⟨h.unique, h.roomy⟩

/-- What is staged are entities of the commit's own, so finishing touches nothing that lived. -/
theorem Staging.extends_finishing (h : Staging s₀ done staged s) (hf : Finishing s staged s') :
    s₀.pool.Extends s'.pool := by
  refine ⟨hf.next ▸ h.pool.next_le, ?_⟩
  intro k hk
  rw [hf.kept ?_, h.pool.kept k hk]
  by_cases hall : ∀ c ∈ staged, k ∉ c.entities
  · exact .inl hall
  · obtain ⟨c, hc, hmem⟩ : ∃ c ∈ staged, k ∈ c.entities := by simpa using hall
    exact .inr fun hid => absurd ((h.copies c hc).newcomers k hmem hid) (Nat.not_le.mpr hk)

theorem Staging.frame_finishing (h : Staging s₀ done staged s) (hf : Finishing s staged s') :
    Frame s₀ s' where
  settings := by rw [hf.repository]; exact h.settings
  loader := by rw [hf.repository]; exact h.loader
  format := by rw [hf.repository]; exact h.format
  directory := hf.directory.trans h.directory
  pool := h.extends_finishing hf
  holds := fun hP hyields hs => (h.holds hP hyields hs).grows hP hf.grows hf.next

/-- When all is staged but not all can be finished, nothing is put in its place. -/
theorem Staging.finishing (h : Staging s₀ done staged s) (hf : Finishing s staged s')
    (hs : s₀.Sound) : Retains s₀ s' ∧ s'.Sound := by
  have hframe := h.frame_finishing hf
  have hcaches : s'.repository.caches = s.repository.caches := by rw [hf.repository]
  refine ⟨⟨hframe, ?_⟩, hs.frame hframe ?_⟩
  · intro type c hc
    rw [hcaches]
    exact h.caches hc
  · intro type c hc
    rw [hcaches] at hc
    exact .inr ((h.sound.committed hc).grows hf.grows)

/-- What a commit leaves that goes through. -/
structure Committed (s : Store) (changes : Changeset) (s' : Store) : Prop extends Frame s s' where
  sound : s'.Sound
  /-- A touched type reads as its changes have made it, and all have ids. -/
  touched : ∀ {type}, changes.Touches s.pool type → ∃ r last c, Acceptable s changes type r last ∧
    s'.repository.caches.find? type = some c ∧
    List.Forall₂ Entity.Completes (r.edits (changes.editsOf s.pool type))
      (s'.pool.roster c.entities)
  /-- The other types open to what they did. -/
  untouched : ∀ {type}, ¬ changes.Touches s.pool type → s'.opened type = s.opened type
  /-- What was loaded still is. -/
  loaded : ∀ {type c}, s.repository.caches.find? type = some c →
    ∃ c', s'.repository.caches.find? type = some c'

theorem foldl_withCache (cs : Caches) (r : Repository) :
    cs.foldl .withCache r = { r with caches := cs.foldl Caches.put r.caches } := by
  induction cs generalizing r with
  | nil => rfl
  | cons c rest ih => exact ih (r.withCache c)

/-- When all is staged and all is finished, the copies take the place of the caches. -/
theorem Staging.committed (h : Staging s₀ changes staged s) (hf : Finishing s staged s')
    (hs : s₀.Sound) (hall : ∀ c ∈ staged, s.Finishable c) {cs : Caches} (htypes : cs.types = staged.types)
    (hcs : ∀ c' ∈ cs, c'.Committed s'.pool ∧
      ∃ c ∈ staged, c'.type = c.type ∧ c'.entities = c.entities) :
    Committed s₀ changes { s' with repository := cs.foldl .withCache s'.repository } := by
  obtain ⟨s'', hs''⟩ : ∃ s'', s'' = { s' with
    repository := { s'.repository with caches := cs.foldl Caches.put s'.repository.caches } } :=
    ⟨_, rfl⟩
  rw [foldl_withCache, ← hs'']
  have hpool : s''.pool = s'.pool := by rw [hs'']
  have hframe : Frame s₀ s'' := by
    obtain ⟨hsettings, hloader, hformat, hdirectory, hpool, hholds⟩ := h.frame_finishing hf
    rw [hs'']
    exact ⟨hsettings, hloader, hformat, hdirectory, hpool, hholds⟩
  have hfind : ∀ t, s''.repository.caches.find? t
      = (cs.find? t).or (s.repository.caches.find? t) := by
    intro t
    rw [hs'', show s.repository.caches = s'.repository.caches by rw [hf.repository]]
    exact Caches.find?_foldl_put t (htypes ▸ h.types) _
  have hnone : ∀ {t}, ¬ changes.Touches s₀.pool t → cs.find? t = none := by
    intro t ht
    rw [← Option.not_isSome_iff_eq_none, Caches.isSome_find?, htypes, h.touched]
    exact ht
  have hcommitted : ∀ {t c}, s''.repository.caches.find? t = some c → c.Committed s''.pool := by
    intro t c hc
    rw [hfind] at hc
    rw [hpool]
    rcases Option.or_eq_some_iff.mp hc with hc | ⟨-, hc⟩
    · exact (hcs c (Caches.mem_of_find? hc)).1
    · exact (h.sound.committed hc).grows hf.grows
  refine ⟨hframe, hs.frame hframe fun hc => .inr (hcommitted hc), ?_, ?_, ?_⟩
  · intro type htouched
    have hmem : type ∈ cs.types := by
      rw [htypes, h.touched]
      exact htouched
    obtain ⟨c', hc', rfl⟩ := List.mem_map.mp hmem
    obtain ⟨-, c, hc, htype, hentities⟩ := hcs c' hc'
    obtain ⟨r, last, -, hreads, hiff⟩ := h.finishable_iff hc
    refine ⟨r, last, c', htype ▸ hiff.mp (hall c hc), ?_, ?_⟩
    · rw [hfind, Caches.find?_of_mem (htypes ▸ h.types) hc']
      rfl
    · rw [htype, ← hreads, hentities, hpool]
      refine List.forall₂_map_left_iff.mpr (List.forall₂_map_right_iff.mpr ?_)
      exact List.forall₂_same.mpr fun k hk => hf.grows.kept k ((h.copies c hc).live k hk)
  · intro t ht
    have hsame : s''.repository.caches.find? t = s.repository.caches.find? t := by
      rw [hfind, hnone ht]
      rfl
    rw [← h.opened]
    cases hold : s.repository.caches.find? t with
    | some c =>
      have hkept := (h.sound.committed hold).kept hf.grows
      have hlast : s''.repository.lastId t = s.repository.lastId t := by
        rw [hs'']
        exact hf.lastId fun hmem => ht ((h.touched t).mp hmem)
      rw [opened_of_some (hsame.trans hold), opened_of_some hold, hpool, Pool.roster_congr hkept, hlast]
    | none =>
      have hfirst := h.toRetains.find?_eq_none hold
      rw [hframe.opened_of_none hfirst (hsame.trans hold), h.toFrame.opened_of_none hfirst hold]
  · intro t c hc
    rw [hfind, h.caches hc]
    cases cs.find? t with
    | none => exact ⟨c, rfl⟩
    | some d => exact ⟨d, rfl⟩

/-- **What a commit does.** -/
theorem commit_spec (hs : s.Sound) (hmemory : s.InMemory)
    (hlive : ∀ c ∈ changes, c.entity < s.pool.next) :
    match exec (commit changes) s with
    | (.ok _, s') => Committed s changes s'
    | (.error _, s') => Retains s s' ∧ s'.Sound ∧ ¬ ∀ type, changes.Touches s.pool type →
        ∃ r last, Acceptable s changes type r last ∧
          r.Throughout Roster.SlugFree (changes.editsOf s.pool type) := by
  have hstaging := (staging_nil hs).run hlive
  rw [List.nil_append] at hstaging
  unfold commit
  rw [exec_bind, exec_applyAll]
  rcases hrun : exec (changes.foldlM stage []) s with ⟨e | staged, s₁⟩
  · rw [hrun] at hstaging
    obtain ⟨hunstaged, hnot⟩ := hstaging
    refine ⟨hunstaged.toRetains, hunstaged.sound, fun hall => hnot ?_⟩
    intro type htouched
    obtain ⟨r, last, hacceptable, hfree⟩ := hall type htouched
    exact ⟨⟨r, last, hacceptable.opened, hacceptable.fits⟩, r, last, hacceptable.opened, hfree⟩
  · rw [hrun] at hstaging
    have hfinish := finishAll_spec hstaging.types fun c hc => (hstaging.copies c hc).toKeyed
    simp only
    rcases hrun' : exec (staged.mapM finish) s₁ with ⟨e | cs, s₂⟩
    · rw [hrun'] at hfinish
      obtain ⟨hfinishing, hnot⟩ := hfinish
      obtain ⟨hretains, hsound⟩ := hstaging.finishing hfinishing hs
      refine ⟨hretains, hsound, fun hall => hnot ?_⟩
      intro c hc
      obtain ⟨r, last, hedited, -, hiff⟩ := hstaging.finishable_iff hc
      obtain ⟨r', last', hacceptable, -⟩ :=
        hall c.type ((hstaging.touched c.type).mp (List.mem_map_of_mem hc))
      have hsame := hacceptable.opened
      rw [hedited.opened] at hsame
      obtain ⟨rfl, rfl⟩ := Prod.mk.inj (Except.ok.inj hsame)
      exact hiff.mpr hacceptable
    · rw [hrun'] at hfinish
      obtain ⟨hfinishing, hall, htypes, hcs⟩ := hfinish
      have hcommitted := hstaging.committed hfinishing hs hall htypes hcs
      simp only
      rw [exec_forM_dump (hcommitted.toFrame.inMemory hmemory)]
      exact hcommitted

end Store

end EntityStore
