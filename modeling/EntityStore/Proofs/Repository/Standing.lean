import EntityStore.Proofs.Repository.Requests
import EntityStore.Proofs.Repository.Sequences

/-!
# What stands committed

A type that can be loaded has a roster: the entities that are committed of it, in order, with all
they have. Loading types, drawing ids, making entities, giving those that have none an id, and
commits that are refused leave every roster as it is. Only a commit that goes through changes one.
-/

namespace EntityStore.Store

variable {s s' s'' : Store} {type : String} {c : Cache} {changes : Changeset}

/-- The entities that the repository hands out when it is asked for a type. -/
def roster? (s : Store) (type : String) : Option Roster :=
  match exec (load type) s with
  | (.ok hs, s') => some (s'.pool.roster hs)
  | (.error _, _) => none

theorem roster?_eq : s.roster? type = (s.opened type).toOption.map Prod.fst := by
  rw [roster?, opened, exec_load]
  rcases exec (checkout type) s with ⟨_ | _, _⟩ <;> rfl

theorem roster?_of_opened {r : Roster} {last : EntityId} (hopened : s.opened type = .ok (r, last)) :
    s.roster? type = some r := by
  rw [roster?_eq, hopened]
  rfl

theorem opened_of_roster? {r : Roster} (hr : s.roster? type = some r) :
    ∃ last, s.opened type = .ok (r, last) := by
  rw [roster?_eq] at hr
  cases hopened : s.opened type with
  | error e =>
    rw [hopened] at hr
    cases hr
  | ok out =>
    rw [hopened] at hr
    obtain rfl := Option.some.inj hr
    exact ⟨out.2, rfl⟩

/-- What a type reads as is what a cache lists once it is loaded. -/
theorem Upkept.checkout_of_opened (hs : s.Upkept) {r : Roster} {last : EntityId}
    (hopened : s.opened type = .ok (r, last)) :
    ∃ c, (exec (Store.checkout type) s).2.repository.caches.find? type = some c ∧
      r = (exec (Store.checkout type) s).2.pool.roster c.entities := by
  obtain ⟨-, hfound⟩ := hs.checkout type
  unfold opened at hopened
  rcases hrun : exec (Store.checkout type) s with ⟨e | c, s'⟩
  · rw [hrun] at hopened
    cases hopened
  · rw [hrun] at hopened hfound
    obtain ⟨rfl, -⟩ := Prod.mk.inj (Except.ok.inj hopened)
    exact ⟨c, hfound c rfl, rfl⟩

theorem roster?_congr (hopened : s'.opened type = s.opened type) :
    s'.roster? type = s.roster? type := by rw [roster?_eq, roster?_eq, hopened]

/-- Where the same is loaded of a type, and what is committed is as it was, its roster is, too. -/
theorem roster?_of_kept
    (hcaches : s'.repository.caches.find? type = s.repository.caches.find? type)
    (hloaded : s'.loaded type = s.loaded type)
    (hkept : ∀ {c}, s.repository.caches.find? type = some c →
      ∀ h ∈ c.entities, s'.pool.entity h = s.pool.entity h) :
    s'.roster? type = s.roster? type := by
  cases hfind : s.repository.caches.find? type with
  | some c =>
    have hfind' : s'.repository.caches.find? type = some c := by rw [hcaches, hfind]
    rw [roster?_of_opened (opened_of_some hfind), roster?_of_opened (opened_of_some hfind'),
      Pool.roster_congr (hkept hfind)]
  | none =>
    have hfind' : s'.repository.caches.find? type = none := by rw [hcaches, hfind]
    exact roster?_congr (opened_congr_of_none hloaded hfind hfind')

/-- A sound store that keeps no tables, and that commits when it is told to and not otherwise. -/
structure Manual (s : Store) : Prop where
  sound : s.Sound
  inMemory : s.InMemory
  explicit : s.repository.settings.autocommit = false

theorem Frame.manual (h : Frame s s') (hs : s.Manual) (hsound : s'.Sound) : s'.Manual where
  sound := hsound
  inMemory := h.inMemory hs.inMemory
  explicit := by
    rw [h.settings]
    exact hs.explicit

/-- Others have made and edited entities, and left those of the repository alone. -/
theorem Manual.withPool (hs : s.Manual) {pool : Pool} (hnext : s.pool.next ≤ pool.next)
    (hkept : ∀ h, s.Owns h → pool.entity h = s.pool.entity h) (hclosed : pool.Closed) :
    Manual { s with pool } ∧ ∀ type, roster? { s with pool } type = s.roster? type := by
  have howned : ∀ {type c}, s.repository.caches.find? type = some c →
      ∀ h ∈ c.entities, pool.entity h = s.pool.entity h :=
    fun hfind h hh => hkept h ⟨_, _, hfind, hh⟩
  exact ⟨⟨hs.sound.withPool hnext howned hclosed, hs.inMemory, hs.explicit⟩,
    fun type => roster?_of_kept rfl rfl howned⟩

/-! ## Steps that leave it standing -/

/-- A step keeps the entities that have ids, and all that is committed. -/
structure Upholds (s s' : Store) : Prop where
  manual : s'.Manual
  pool : s.pool.Grows s'.pool
  roster : ∀ type, s'.roster? type = s.roster? type

theorem Upholds.refl (hs : s.Manual) : Upholds s s := ⟨hs, .refl _, fun _ => rfl⟩

theorem Upholds.trans (h : Upholds s s') (h' : Upholds s' s'') : Upholds s s'' where
  manual := h'.manual
  pool := h.pool.trans h'.pool
  roster := fun type => (h'.roster type).trans (h.roster type)

/-- Entities are made, and given ids. -/
theorem Manual.upholds_pool (hs : s.Manual) {pool : Pool} (hpool : s.pool.Grows pool)
    (hclosed : pool.Closed) : Upholds s { s with pool } := by
  have howned : ∀ h, s.Owns h → pool.entity h = s.pool.entity h := by
    intro h ⟨type, c, hfind, hh⟩
    exact (hs.sound.committed hfind).kept hpool h hh
  obtain ⟨hmanual, hroster⟩ := hs.withPool hpool.next_le howned hclosed
  exact ⟨hmanual, hpool, hroster⟩

theorem Manual.upholds_setId (hs : s.Manual) {h : Handle} (hid : s.pool.id h = none)
    (id : EntityId) : Upholds s { s with pool := s.pool.edit h fun e => e.setId (some id) } :=
  have hgrows := Pool.grows_setId hid id
  hs.upholds_pool hgrows (hs.sound.closed.grows lasting_refersBelow hgrows rfl)

theorem Manual.upholds_checkout (hs : s.Manual) (type : String) :
    Upholds s (exec (checkout type) s).2 := by
  rcases hrun : exec (checkout type) s with ⟨e | c, s'⟩
  · have hfails := hs.sound.failsToLoad hrun
    exact ⟨hfails.toFrame.manual hs hfails.sound, hfails.pool.grows,
      fun t => roster?_congr (opened_of_checkout hs.sound hrun t)⟩
  · have hloads := hs.sound.loads hrun
    exact ⟨hloads.toFrame.manual hs hloads.sound, hloads.pool.grows,
      fun t => roster?_congr (opened_of_checkout hs.sound hrun t)⟩

theorem Manual.upholds_newId (hs : s.Manual) (type : String) :
    Upholds s (exec (newId type) s).2 := by
  obtain ⟨hretains, hsound, -⟩ := newId_spec hs.sound type
  have hmanual := hretains.toFrame.manual hs hsound
  have hcheckout := hs.upholds_checkout type
  rw [exec_newId] at hmanual ⊢
  rcases hrun : exec (checkout type) s with ⟨e | c, s₁⟩
  · rw [hrun] at hcheckout
    exact hcheckout
  · rw [hrun] at hcheckout hmanual
    simp only at hmanual ⊢
    cases hadvance :
        (advance type ((s₁.pool.roster c.entities).latest (s₁.repository.lastId type))).1 with
    | error e => exact hcheckout
    | ok id =>
      rw [hadvance] at hmanual
      -- only a sequence is moved on
      exact hcheckout.trans ⟨hmanual, .refl _, fun t => roster?_of_kept rfl rfl fun _ _ _ => rfl⟩

/-- A commit that is refused. -/
theorem Manual.upholds_refused (hs : s.Manual) (hlive : ∀ c ∈ changes, c.entity < s.pool.next)
    {e : StoreError} (hfail : exec (commit changes) s = (.error e, s')) : Upholds s s' := by
  have hspec := commit_spec hs.sound hs.inMemory hlive
  rw [hfail] at hspec
  obtain ⟨hretains, hsound, -⟩ := hspec
  obtain ⟨hsame, hmoved⟩ := opened_of_refused hs.sound hs.inMemory hlive hfail
  refine ⟨hretains.toFrame.manual hs hsound, hretains.pool.grows, fun type => ?_⟩
  by_cases htype : type ∈ (s.finished changes).types
  · -- at most the sequence of the type has been moved on
    obtain ⟨c, hc, rfl⟩ := List.mem_map.mp htype
    obtain ⟨r, last, hopened, hopened'⟩ := hmoved c hc
    rw [roster?_of_opened hopened, roster?_of_opened hopened']
  · exact roster?_congr (hsame type htype)

/-- Whatever comes of a commit, it leaves the store in order, and what has an id as it was. -/
theorem Manual.commit (hs : s.Manual) (hlive : ∀ c ∈ changes, c.entity < s.pool.next) :
    (exec (commit changes) s).2.Manual ∧ s.pool.Grows (exec (commit changes) s).2.pool := by
  have hspec := commit_spec hs.sound hs.inMemory hlive
  rcases hrun : exec (Store.commit changes) s with ⟨e | _, s'⟩
  · have hrefused := hs.upholds_refused hlive hrun
    exact ⟨hrefused.manual, hrefused.pool⟩
  · rw [hrun] at hspec
    exact ⟨hspec.toFrame.manual hs hspec.sound, hspec.pool.grows⟩

end EntityStore.Store

namespace EntityStore

/-- A request is a commit that goes through. -/
def Request.Commits (s : Store) : Request → Prop
  | .commit changes => (exec (Store.commit changes) s).1 = .ok ()
  | _ => False

/-- **What a request leaves standing.** -/
theorem Store.Manual.ask {s : Store} (hs : s.Manual) {r : Request} (hlive : r.Live s) :
    (exec r.run s).2.Manual ∧ s.pool.Grows (exec r.run s).2.pool ∧
      (¬ r.Commits s → s.Upholds (exec r.run s).2) := by
  cases r with
  | load type =>
    have h := hs.upholds_checkout type
    rw [snd_run_load]
    exact ⟨h.manual, h.pool, fun _ => h⟩
  | newId type =>
    have h := hs.upholds_newId type
    rw [snd_run_newId]
    exact ⟨h.manual, h.pool, fun _ => h⟩
  | commit changes =>
    obtain ⟨hmanual, hpool⟩ := hs.commit hlive
    refine ⟨hmanual, hpool, fun hrefused => ?_⟩
    show s.Upholds (exec (Store.commit changes) s).2
    rcases hrun : exec (Store.commit changes) s with ⟨e | _, s'⟩
    · exact hs.upholds_refused hlive hrun
    · exact absurd (congrArg Prod.fst hrun) hrefused
  | rollback changes => exact ⟨hs, .refl _, fun _ => .refl hs⟩

end EntityStore
