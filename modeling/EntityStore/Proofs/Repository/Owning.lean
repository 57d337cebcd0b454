import EntityStore.Proofs.Repository.Acceptance
import EntityStore.Proofs.Repository.Requests

/-!
# What the repository owns

The repository owns the entities that its caches list. Whatever it comes to own it has made itself:
a load fills a cache with what a loader yields, and a commit stores copies of what it is handed, never
what it is handed. This holds of every store and every request, whatever comes of it.
-/

namespace EntityStore

theorem Caches.find?_of_foldl_put {cs base : Caches} {type : String} {c : Cache}
    (hfind : (cs.foldl put base).find? type = some c) : c ∈ cs ∨ base.find? type = some c := by
  induction cs generalizing base with
  | nil => exact .inr hfind
  | cons d rest ih =>
    rcases ih hfind with hmem | hfind
    · exact .inl (List.mem_cons_of_mem d hmem)
    · rcases find?_put_eq_some.mp hfind with ⟨-, rfl⟩ | ⟨-, hfind⟩
      · exact .inl List.mem_cons_self
      · exact .inr hfind

/-- Applying a change brings in at most a copy of the entity that the change is about. -/
theorem Cache.mem_apply {change : Change} {c : Cache} {pool : Pool} {h : Handle}
    (hh : h ∈ (c.apply change pool).2.1.entities) :
    h ∈ c.entities ∨ pool.next ≤ h ∧ h < (c.apply change pool).2.2.next := by
  obtain ⟨kind, g⟩ := change
  unfold apply at hh ⊢
  by_cases htyped : pool.typeName g = c.type
  · simp only [htyped, ne_eq, not_true_eq_false, if_false] at hh ⊢
    have hcopy : pool.next ≤ (pool.detach g).1 ∧ (pool.detach g).1 < (pool.detach g).2.next :=
      ⟨Nat.le_refl _, Nat.lt_succ_self _⟩
    cases kind with
    | add =>
      simp only at hh ⊢
      rcases add_cases (pool.detach g).2 (pool.detach g).1 c with
        ⟨-, hadd⟩ | ⟨-, e, -, hadd⟩ | ⟨-, -, hadd⟩
      · rw [hadd, entities_refresh] at hh
        exact .inl hh
      · rw [hadd, entities_refresh] at hh
        exact .inl hh
      · rw [hadd, entities_append, entities_refresh] at hh
        rcases List.mem_append.mp hh with hh | hh
        · exact .inl hh
        · rw [List.mem_singleton.mp hh]
          exact .inr hcopy
    | update =>
      simp only at hh ⊢
      rcases swapIn_cases (pool.detach g).2 (pool.detach g).1 c with
        ⟨-, hswap⟩ | ⟨old, -, id, -, -, hswap⟩
      · rw [hswap] at hh ⊢
        exact .inl hh
      · rw [hswap] at hh ⊢
        rcases mem_or_eq_of_mem_replace hh with hh | rfl
        · exact .inl hh
        · exact .inr hcopy
    | remove =>
      simp only at hh
      rcases remove_cases pool g c with ⟨-, hremove⟩ | ⟨gone, -, -, hremove⟩
      · rw [hremove] at hh
        exact .inl hh
      · rw [hremove] at hh
        exact .inl (List.mem_of_mem_erase hh)
  · simp only [ne_eq, htyped, not_false_eq_true, if_true] at hh
    exact .inl hh

namespace Store

variable {s s' s'' : Store} {staged : Caches} {c : Cache} {h n : Handle}

/-- An entity that the repository owns, or that has been made since, below the handle `n`. -/
def OwnsOrMade (s : Store) (n h : Handle) : Prop := s.Owns h ∨ s.pool.next ≤ h ∧ h < n

/-- What the repository comes to own is made on the way. -/
structure Acquires (s s' : Store) : Prop where
  next_le : s.pool.next ≤ s'.pool.next
  owned : ∀ {h}, s'.Owns h → s.OwnsOrMade s'.pool.next h

theorem OwnsOrMade.mono {m : Handle} (hh : s.OwnsOrMade m h) (hmn : m ≤ n) : s.OwnsOrMade n h :=
  hh.imp_right fun ⟨hle, hlt⟩ => ⟨hle, Nat.lt_of_lt_of_le hlt hmn⟩

theorem Acquires.trace (hs : Acquires s s') (hh : s'.OwnsOrMade n h) (hn : s'.pool.next ≤ n) :
    s.OwnsOrMade n h := by
  rcases hh with howned | ⟨hle, hlt⟩
  · exact (hs.owned howned).mono hn
  · exact .inr ⟨Nat.le_trans hs.next_le hle, hlt⟩

theorem Acquires.refl (s : Store) : Acquires s s := ⟨Nat.le_refl _, .inl⟩

theorem Acquires.trans (hs : Acquires s s') (hs' : Acquires s' s'') : Acquires s s'' :=
  ⟨Nat.le_trans hs.next_le hs'.next_le, fun howned => hs.trace (hs'.owned howned) hs'.next_le⟩

/-- Where the caches stay as they are nothing comes to be owned. -/
theorem acquires_of_caches (hcaches : s'.repository.caches = s.repository.caches)
    (hnext : s.pool.next ≤ s'.pool.next) : Acquires s s' := by
  refine ⟨hnext, fun ⟨type, c, hfind, hh⟩ => .inl ⟨type, c, ?_, hh⟩⟩
  rw [← hcaches]
  exact hfind

/-- What is owned lives. -/
def Alive (s : Store) : Prop := ∀ h, s.Owns h → h < s.pool.next

theorem Acquires.alive (hs : Acquires s s') (halive : s.Alive) : s'.Alive := by
  intro h howned
  rcases hs.owned howned with hold | ⟨-, hlt⟩
  · exact Nat.lt_of_lt_of_le (halive h hold) hs.next_le
  · exact hlt

/-- What lives and is not owned stays so. -/
theorem Acquires.not_owns (hs : Acquires s s') (hh : h < s.pool.next ∧ ¬ s.Owns h) :
    h < s'.pool.next ∧ ¬ s'.Owns h := by
  refine ⟨Nat.lt_of_lt_of_le hh.1 hs.next_le, fun howned => ?_⟩
  rcases hs.owned howned with hold | ⟨hle, -⟩
  · exact hh.2 hold
  · exact Nat.not_lt.mpr hle hh.1

theorem Upkept.alive (hs : s.Upkept) : s.Alive := by
  rintro h ⟨type, c, hfind, hh⟩
  exact (hs.keyed hfind).live h hh

/-! ## Loading -/

/-- A cache is filled with entities that are made for it. -/
theorem fill_made (pool : Pool) (type : String) (es : List Entity) {last : EntityId}
    (hok : (fill pool type es).1 = .ok (c, last)) :
    ∀ h ∈ c.entities, pool.next ≤ h ∧ h < (fill pool type es).2.next := by
  obtain ⟨-, -, -, hnew⟩ := Pool.allocAll_spec pool es
  have hspec := Cache.ofEntities_spec (pool.allocAll es).2 type (pool.allocAll es).1
  unfold fill at hok ⊢
  cases hof : Cache.ofEntities (pool.allocAll es).2 type (pool.allocAll es).1 with
  | error e =>
    rw [hof] at hok
    cases hok
  | ok d =>
    rw [hof] at hok hspec
    obtain ⟨-, -, hlist, -⟩ := hspec
    obtain ⟨-, hnext, -⟩ := Cache.assignIds_frame (advance d.type) d.entities (pool.allocAll es).2
      ((d.maxId? (pool.allocAll es).2).getD 0)
    simp only at hok ⊢
    rcases hrun : Cache.assignIds (advance d.type) d.entities (pool.allocAll es).2
      ((d.maxId? (pool.allocAll es).2).getD 0) with ⟨e | k, pool', last'⟩
    · rw [hrun] at hok
      cases hok
    · rw [hrun] at hok hnext
      obtain ⟨rfl, -⟩ := Prod.mk.inj (Except.ok.inj hok)
      intro h hh
      have hh : h ∈ d.entities := hh
      rw [hlist] at hh
      simp only at hnext ⊢
      rw [hnext]
      exact hnew h hh

theorem acquires_checkout (s : Store) (type : String) :
    Acquires s (exec (checkout type) s).2 ∧ ∀ c, (exec (checkout type) s).1 = .ok c →
      ∀ h ∈ c.entities, (exec (checkout type) s).2.Owns h := by
  cases hfind : s.repository.caches.find? type with
  | some c =>
    rw [exec_checkout_of_some hfind]
    refine ⟨.refl s, fun d hd h hh => ⟨type, c, hfind, ?_⟩⟩
    rwa [Except.ok.inj hd]
  | none =>
    rw [exec_checkout_of_none hfind]
    cases s.loaded type with
    | error e => exact ⟨.refl s, fun _ hok => by cases hok⟩
    | ok es =>
      have hnext := (extends_fill s.pool type es).next_le
      have hmade : ∀ c last, (fill s.pool type es).1 = .ok (c, last) →
          ∀ h ∈ c.entities, s.pool.next ≤ h ∧ h < (fill s.pool type es).2.next :=
        fun _ _ => fill_made s.pool type es
      simp only
      rcases hrun : fill s.pool type es with ⟨e | ⟨c, last⟩, pool⟩
      · rw [hrun] at hnext
        exact ⟨acquires_of_caches rfl hnext, fun _ hok => by cases hok⟩
      · rw [hrun] at hnext hmade
        refine ⟨⟨hnext, ?_⟩, fun d hd h hh => ⟨c.type, c, ?_, ?_⟩⟩
        · rintro h ⟨t, d, hd, hh⟩
          rcases Caches.find?_put_eq_some.mp hd with ⟨-, rfl⟩ | ⟨-, hold⟩
          · exact .inr (hmade _ last rfl h hh)
          · exact .inl ⟨t, d, hold, hh⟩
        · exact Caches.find?_put_self _ c
        · rwa [Except.ok.inj hd]

theorem acquires_newId (s : Store) (type : String) : Acquires s (exec (newId type) s).2 := by
  obtain ⟨hcheckout, -⟩ := acquires_checkout s type
  rw [exec_newId]
  rcases hrun : exec (checkout type) s with ⟨e | c, s'⟩
  · rw [hrun] at hcheckout
    exact hcheckout
  · rw [hrun] at hcheckout
    simp only
    cases (advance type ((s'.pool.roster c.entities).latest (s'.repository.lastId type))).1 with
    | error e => exact hcheckout
    | ok id => exact hcheckout.trans (acquires_of_caches rfl (Nat.le_refl _))

/-! ## Committing -/

/-- What is staged lists what was owned, and what has been made since. -/
def Gathers (s : Store) (staged : Caches) (s' : Store) : Prop :=
  Acquires s s' ∧ ∀ c ∈ staged, ∀ h ∈ c.entities, s.OwnsOrMade s'.pool.next h

theorem Gathers.stage (hs : Gathers s staged s') (change : Change) :
    Acquires s (exec (stage staged change) s').2 ∧
      ∀ staged', (exec (Store.stage staged change) s').1 = .ok staged' →
        Gathers s staged' (exec (Store.stage staged change) s').2 := by
  obtain ⟨hacquires, hstaged⟩ := hs
  -- the cache that the change is applied to lists what was owned or made, too
  obtain ⟨hon, hcache⟩ : Acquires s' (exec (stagedOn staged (s'.pool.typeName change.entity)) s').2 ∧
      ∀ c, (exec (stagedOn staged (s'.pool.typeName change.entity)) s').1 = .ok c →
        ∀ h ∈ c.entities, s.OwnsOrMade
          (exec (stagedOn staged (s'.pool.typeName change.entity)) s').2.pool.next h := by
    unfold stagedOn
    cases hfind : staged.find? (s'.pool.typeName change.entity) with
    | some c =>
      refine ⟨.refl s', fun d hd => ?_⟩
      obtain rfl := Except.ok.inj hd
      exact hstaged c (Caches.mem_of_find? hfind)
    | none =>
      obtain ⟨hcheckout, howned⟩ := acquires_checkout s' (s'.pool.typeName change.entity)
      exact ⟨hcheckout, fun c hc h hh => (hacquires.trans hcheckout).owned (howned c hc h hh)⟩
  rw [exec_stage]
  rcases hrun : exec (stagedOn staged (s'.pool.typeName change.entity)) s' with ⟨e | c, s₁⟩
  · rw [hrun] at hon
    exact ⟨hacquires.trans hon, fun _ hok => by cases hok⟩
  · rw [hrun] at hon hcache
    have hnext := (Cache.extends_apply change c s₁.pool).next_le
    have hmem : ∀ h ∈ (c.apply change s₁.pool).2.1.entities, h ∈ c.entities ∨
        s₁.pool.next ≤ h ∧ h < (c.apply change s₁.pool).2.2.next := fun _ => Cache.mem_apply
    simp only
    rcases happly : c.apply change s₁.pool with ⟨e | _, c', pool⟩
    · rw [happly] at hnext
      have happlied : Acquires s₁ { s₁ with pool } := acquires_of_caches rfl hnext
      exact ⟨(hacquires.trans hon).trans happlied, fun _ hok => by cases hok⟩
    · rw [happly] at hnext hmem
      have happlied : Acquires s₁ { s₁ with pool } := acquires_of_caches rfl hnext
      have hall := (hacquires.trans hon).trans happlied
      refine ⟨hall, fun staged' hok => ⟨hall, ?_⟩⟩
      obtain rfl := Except.ok.inj hok
      intro d hd h hh
      rcases Caches.mem_put hd with rfl | hd
      · rcases hmem h hh with hlisted | ⟨hle, hlt⟩
        · exact (hcache c rfl h hlisted).mono hnext
        · exact .inr ⟨Nat.le_trans (hacquires.trans hon).next_le hle, hlt⟩
      · exact (hstaged d hd h hh).mono (hon.trans happlied).next_le

theorem Gathers.run (hs : Gathers s staged s') (changes : Changeset) :
    Acquires s (exec (changes.foldlM Store.stage staged) s').2 ∧
      ∀ staged', (exec (changes.foldlM Store.stage staged) s').1 = .ok staged' →
        Gathers s staged' (exec (changes.foldlM Store.stage staged) s').2 := by
  induction changes generalizing staged s' with
  | nil => exact ⟨hs.1, fun staged' hok => Except.ok.inj hok ▸ hs⟩
  | cons change rest ih =>
    obtain ⟨hacquires, hnext⟩ := hs.stage change
    rw [List.foldlM_cons, exec_bind]
    rcases hrun : exec (Store.stage staged change) s' with ⟨e | staged', s₁⟩
    · rw [hrun] at hacquires
      exact ⟨hacquires, fun _ hok => by cases hok⟩
    · rw [hrun] at hnext
      exact ih (hnext staged' rfl)

/-- Finishing makes nothing, and lists nothing new. -/
theorem finish_lists (c : Cache) (s : Store) :
    (exec (finish c) s).2.repository.caches = s.repository.caches ∧
      (exec (finish c) s).2.pool.next = s.pool.next ∧
      ∀ c', (exec (finish c) s).1 = .ok c' → c'.entities = c.entities := by
  rw [exec_finish]
  cases c.checkUnique s.pool with
  | error e => exact ⟨rfl, rfl, fun _ hok => by cases hok⟩
  | ok _ =>
    obtain ⟨-, hnext, -⟩ := Cache.assignIds_frame (advance c.type) c.entities s.pool
      ((s.pool.roster c.entities).latest (s.repository.lastId c.type))
    simp only
    rcases hrun : Cache.assignIds (advance c.type) c.entities s.pool
      ((s.pool.roster c.entities).latest (s.repository.lastId c.type)) with ⟨e | k, pool, last⟩
    · rw [hrun] at hnext
      exact ⟨rfl, hnext, fun _ hok => by cases hok⟩
    · rw [hrun] at hnext
      exact ⟨rfl, hnext, fun c' hok => Except.ok.inj hok ▸ rfl⟩

theorem mapM_finish_lists (cs : Caches) (s : Store) :
    (exec (cs.mapM finish) s).2.repository.caches = s.repository.caches ∧
      (exec (cs.mapM finish) s).2.pool.next = s.pool.next ∧
      ∀ cs', (exec (cs.mapM finish) s).1 = .ok cs' →
        ∀ c' ∈ cs', ∃ c ∈ cs, c'.entities = c.entities := by
  induction cs generalizing s with
  | nil =>
    refine ⟨rfl, rfl, fun cs' hok c' hc' => ?_⟩
    rw [← Except.ok.inj hok] at hc'
    exact absurd hc' List.not_mem_nil
  | cons c rest ih =>
    have hfinish := finish_lists c s
    rw [List.mapM_cons, exec_bind]
    rcases hrun : exec (finish c) s with ⟨e | d, s₁⟩
    · rw [hrun] at hfinish
      exact ⟨hfinish.1, hfinish.2.1, fun _ hok => by cases hok⟩
    · rw [hrun] at hfinish
      obtain ⟨hcaches, hnext, hlist⟩ := hfinish
      obtain ⟨hcaches', hnext', hlists⟩ := ih s₁
      simp only [exec_bind, exec_pure]
      rcases hrun' : exec (rest.mapM finish) s₁ with ⟨e | ds, s₂⟩
      · rw [hrun'] at hcaches' hnext'
        exact ⟨hcaches'.trans hcaches, hnext'.trans hnext, fun _ hok => by cases hok⟩
      · rw [hrun'] at hcaches' hnext' hlists
        refine ⟨hcaches'.trans hcaches, hnext'.trans hnext, fun cs' hok c' hc' => ?_⟩
        rw [← Except.ok.inj hok] at hc'
        rcases List.mem_cons.mp hc' with rfl | hc'
        · exact ⟨c, List.mem_cons_self, hlist c' rfl⟩
        · obtain ⟨e, he, heq⟩ := hlists ds rfl c' hc'
          exact ⟨e, List.mem_cons_of_mem c he, heq⟩

/-- **A commit stores copies.** -/
theorem acquires_commit (s : Store) (changes : Changeset) :
    Acquires s (exec (commit changes) s).2 := by
  have hnone : Gathers s [] s := ⟨.refl s, fun _ hc => absurd hc List.not_mem_nil⟩
  obtain ⟨hacquires, hgathers⟩ := hnone.run changes
  unfold Store.commit
  rw [exec_bind, exec_applyAll]
  rcases hrun : exec (changes.foldlM Store.stage []) s with ⟨e | staged, s₁⟩
  · rw [hrun] at hacquires
    exact hacquires
  · rw [hrun] at hgathers
    obtain ⟨hacquires, hstaged⟩ := hgathers staged rfl
    obtain ⟨hcaches, hnext, hlists⟩ := mapM_finish_lists staged s₁
    simp only at hacquires hstaged ⊢
    rcases hrun' : exec (staged.mapM finish) s₁ with ⟨e | cs, s₂⟩
    · rw [hrun'] at hcaches hnext
      exact hacquires.trans (acquires_of_caches hcaches (Nat.le_of_eq hnext.symm))
    · rw [hrun'] at hcaches hnext hlists
      obtain ⟨hpool, hrepository⟩ :=
        forM_dump_keeps cs { s₂ with repository := cs.foldl .withCache s₂.repository }
      simp only at hcaches hnext hlists ⊢
      refine ⟨?_, ?_⟩
      · rw [hpool]
        exact Nat.le_trans hacquires.next_le (Nat.le_of_eq hnext.symm)
      · rintro h ⟨type, c, hfind, hh⟩
        rw [hrepository, foldl_withCache] at hfind
        rw [hpool]
        show s.OwnsOrMade s₂.pool.next h
        rw [hnext]
        rcases Caches.find?_of_foldl_put hfind with hc | hold
        · obtain ⟨d, hd, hlist⟩ := hlists cs rfl c hc
          exact hstaged d hd h (hlist ▸ hh)
        · exact hacquires.owned ⟨type, c, hcaches ▸ hold, hh⟩

/-- **Whatever is asked of a store.** -/
theorem acquires_ask (s : Store) (r : Request) : Acquires s (exec r.run s).2 := by
  cases r with
  | load type =>
    rw [snd_run_load]
    exact (acquires_checkout s type).1
  | newId type =>
    rw [snd_run_newId]
    exact acquires_newId s type
  | commit changes => exact acquires_commit s changes
  | rollback changes => exact .refl s

end Store

end EntityStore
