import EntityStore.Proofs.Repository.Persisting

/-!
# Stores that differ in their tables only

Two stores are twins when they have the same entities, the same caches and the same sequences, and
when what has not been loaded yet is loaded alike. They may load it from different places, and one may
keep tables where the other keeps none. Whatever both are asked, they answer alike and stay twins, as
long as it does not come to writing tables.
-/

namespace EntityStore.Store

variable {s s' t t' : Store} {type : String} {α β : Type}

/-- Stores that agree on all but where they load from and what they write. -/
structure Twins (s t : Store) : Prop where
  pool : t.pool = s.pool
  caches : t.repository.caches = s.repository.caches
  lastId : t.repository.lastId = s.repository.lastId
  /-- What has yet to be loaded is loaded alike. -/
  loaded : ∀ type, s.repository.caches.find? type = none → t.loaded type = s.loaded type

namespace Twins

theorem refl (s : Store) : Twins s s := ⟨rfl, rfl, rfl, fun _ _ => rfl⟩

theorem withPool (h : Twins s t) (pool : Pool) : Twins { s with pool } { t with pool } :=
  ⟨rfl, h.caches, h.lastId, h.loaded⟩

theorem withLastId (h : Twins s t) (type : String) (id : EntityId) :
    Twins { s with repository := s.repository.withLastId type id }
      { t with repository := t.repository.withLastId type id } where
  pool := h.pool
  caches := h.caches
  lastId := by
    rw [Repository.withLastId, Repository.withLastId, h.lastId]
  loaded := h.loaded

theorem withCache (h : Twins s t) (c : Cache) :
    Twins { s with repository := s.repository.withCache c }
      { t with repository := t.repository.withCache c } where
  pool := h.pool
  caches := congrArg (fun cs : Caches => cs.put c) h.caches
  lastId := h.lastId
  loaded := fun type hfind => h.loaded type (Caches.find?_put_eq_none.mp hfind).2

theorem withCaches (h : Twins s t) (cs : Caches) :
    Twins { s with repository := cs.foldl .withCache s.repository }
      { t with repository := cs.foldl .withCache t.repository } := by
  induction cs generalizing s t with
  | nil => exact h
  | cons c rest ih => exact ih (h.withCache c)

end Twins

/-! ## Steps that twins take alike -/

/-- Taken by either of two stores, a step answers alike and leaves twins, and the first of them is set
up as before and has the same files. -/
structure Alike (m : StoreM α) (s t : Store) : Prop where
  outcome : (exec m t).1 = (exec m s).1
  twins : Twins (exec m s).2 (exec m t).2
  spares : Spares s (exec m s).2

theorem Alike.of_exec {m : StoreM α} {a : Except StoreError α} (hs : exec m s = (a, s'))
    (ht : exec m t = (a, t')) (htwins : Twins s' t') (hspares : Spares s s') : Alike m s t := by
  refine ⟨?_, ?_, ?_⟩
  · rw [hs, ht]
  · rw [hs, ht]
    exact htwins
  · rw [hs]
    exact hspares

/-- Either both fail, or both go through. -/
theorem Alike.cases {m : StoreM α} (h : Alike m s t) :
    (∃ e s' t', exec m s = (.error e, s') ∧ exec m t = (.error e, t') ∧ Twins s' t' ∧ Spares s s') ∨
      ∃ a s' t', exec m s = (.ok a, s') ∧ exec m t = (.ok a, t') ∧ Twins s' t' ∧ Spares s s' := by
  obtain ⟨houtcome, htwins, hspares⟩ := h
  rcases hs : exec m s with ⟨e | a, s'⟩ <;> rcases ht : exec m t with ⟨outcome, t'⟩ <;>
    rw [hs, ht] at houtcome htwins <;> rw [hs] at hspares <;> obtain rfl := houtcome
  · exact .inl ⟨e, s', t', rfl, rfl, htwins, hspares⟩
  · exact .inr ⟨a, s', t', rfl, rfl, htwins, hspares⟩

/-- A step that all twins take alike. -/
def Indifferent (m : StoreM α) : Prop := ∀ ⦃s t⦄, Twins s t → Alike m s t

theorem Indifferent.spares {m : StoreM α} (hm : Indifferent m) (s : Store) : Spares s (exec m s).2 :=
  (hm (.refl s)).spares

theorem indifferent_pure (a : α) : Indifferent (pure a : StoreM α) := fun _ _ h =>
  .of_exec rfl rfl h (.refl _)

theorem Indifferent.bind {m : StoreM α} {f : α → StoreM β} (hm : Indifferent m)
    (hf : ∀ a, Indifferent (f a)) : Indifferent (m >>= f) := by
  intro s t h
  rcases (hm h).cases with ⟨e, s', t', hs, ht, htwins, hspares⟩ | ⟨a, s', t', hs, ht, htwins, hspares⟩
  · exact .of_exec (by rw [exec_bind, hs]) (by rw [exec_bind, ht]) htwins hspares
  · obtain ⟨houtcome, htwins', hspares'⟩ := hf a htwins
    have hs' : exec (m >>= f) s = exec (f a) s' := by rw [exec_bind, hs]
    have ht' : exec (m >>= f) t = exec (f a) t' := by rw [exec_bind, ht]
    refine ⟨?_, ?_, ?_⟩
    · rw [hs', ht']
      exact houtcome
    · rw [hs', ht']
      exact htwins'
    · rw [hs']
      exact hspares.trans hspares'

theorem indifferent_checkout (type : String) : Indifferent (checkout type) := by
  intro s t h
  cases hfind : s.repository.caches.find? type with
  | some c =>
    exact .of_exec (exec_checkout_of_some hfind) (exec_checkout_of_some (h.caches ▸ hfind)) h (.refl s)
  | none =>
    have hs := exec_checkout_of_none hfind
    have ht := exec_checkout_of_none (s := t) (h.caches ▸ hfind)
    rw [h.loaded type hfind, h.pool] at ht
    cases hes : s.loaded type with
    | error e =>
      rw [hes] at hs ht
      exact .of_exec hs ht h (.refl s)
    | ok es =>
      rw [hes] at hs ht
      simp only at hs ht
      rcases hfill : fill s.pool type es with ⟨e | ⟨c, last⟩, pool⟩
      · rw [hfill] at hs ht
        exact .of_exec hs ht (h.withPool pool) ⟨rfl, rfl, rfl⟩
      · rw [hfill] at hs ht
        exact .of_exec hs ht (((h.withPool pool).withLastId type last).withCache c) ⟨rfl, rfl, rfl⟩

theorem indifferent_newId (type : String) : Indifferent (newId type) := by
  intro s t h
  have hs := exec_newId (s := s) type
  have ht := exec_newId (s := t) type
  rcases (indifferent_checkout type h).cases with
    ⟨e, s', t', hs', ht', htwins, hspares⟩ | ⟨c, s', t', hs', ht', htwins, hspares⟩
  · rw [hs'] at hs
    rw [ht'] at ht
    exact .of_exec hs ht htwins hspares
  · rw [hs'] at hs
    rw [ht'] at ht
    have hlatest : (t'.pool.roster c.entities).latest (t'.repository.lastId type)
        = (s'.pool.roster c.entities).latest (s'.repository.lastId type) := by
      rw [htwins.pool, htwins.lastId]
    simp only [hlatest] at hs ht
    cases hid : (advance type ((s'.pool.roster c.entities).latest (s'.repository.lastId type))).1 with
    | error e =>
      rw [hid] at hs ht
      exact .of_exec hs ht htwins hspares
    | ok id =>
      rw [hid] at hs ht
      exact .of_exec hs ht (htwins.withLastId type id) (hspares.trans ⟨rfl, rfl, rfl⟩)

theorem indifferent_stagedOn (staged : Caches) (type : String) : Indifferent (stagedOn staged type) := by
  unfold stagedOn
  cases staged.find? type with
  | some c => exact indifferent_pure c
  | none => exact indifferent_checkout type

theorem indifferent_stage (staged : Caches) (change : Change) : Indifferent (stage staged change) := by
  intro s t h
  have hs := exec_stage (s := s) staged change
  have ht := exec_stage (s := t) staged change
  rw [h.pool] at ht
  rcases (indifferent_stagedOn staged (s.pool.typeName change.entity) h).cases with
    ⟨e, s', t', hs', ht', htwins, hspares⟩ | ⟨c, s', t', hs', ht', htwins, hspares⟩
  · rw [hs'] at hs
    rw [ht'] at ht
    exact .of_exec hs ht htwins hspares
  · rw [hs'] at hs
    rw [ht'] at ht
    simp only [htwins.pool] at hs ht
    rcases happly : c.apply change s'.pool with ⟨e | _, c', pool⟩
    · rw [happly] at hs ht
      exact .of_exec hs ht (htwins.withPool pool) (hspares.trans ⟨rfl, rfl, rfl⟩)
    · rw [happly] at hs ht
      exact .of_exec hs ht (htwins.withPool pool) (hspares.trans ⟨rfl, rfl, rfl⟩)

theorem indifferent_stageAll (changes : Changeset) (staged : Caches) :
    Indifferent (changes.foldlM stage staged) := by
  induction changes generalizing staged with
  | nil => exact indifferent_pure staged
  | cons change rest ih =>
    rw [List.foldlM_cons]
    exact (indifferent_stage staged change).bind ih

theorem indifferent_finish (c : Cache) : Indifferent (finish c) := by
  intro s t h
  have hs := exec_finish (s := s) c
  have ht := exec_finish (s := t) c
  rw [h.pool, h.lastId] at ht
  cases hcheck : c.checkUnique s.pool with
  | error e =>
    rw [hcheck] at hs ht
    exact .of_exec hs ht h (.refl s)
  | ok _ =>
    rw [hcheck] at hs ht
    simp only at hs ht
    rcases hassign : Cache.assignIds (advance c.type) c.entities s.pool
      ((s.pool.roster c.entities).latest (s.repository.lastId c.type)) with ⟨e | n, pool, last⟩
    · rw [hassign] at hs ht
      exact .of_exec hs ht (h.withPool pool) ⟨rfl, rfl, rfl⟩
    · rw [hassign] at hs ht
      exact .of_exec hs ht ((h.withPool pool).withLastId c.type last) ⟨rfl, rfl, rfl⟩

theorem indifferent_finishAll (cs : Caches) : Indifferent (cs.mapM finish) := by
  induction cs with
  | nil => exact indifferent_pure []
  | cons c rest ih =>
    rw [List.mapM_cons]
    exact (indifferent_finish c).bind fun c' => ih.bind fun cs' => indifferent_pure (c' :: cs')

/-- **Applying changes**: all that a commit does before it writes tables. -/
theorem indifferent_applyAll (changes : Changeset) : Indifferent (applyAll changes) := by
  intro s t h
  have hs := exec_applyAll (s := s) changes
  have ht := exec_applyAll (s := t) changes
  rcases (indifferent_stageAll changes [] h).cases with
    ⟨e, s', t', hs', ht', htwins, hspares⟩ | ⟨staged, s', t', hs', ht', htwins, hspares⟩
  · rw [hs'] at hs
    rw [ht'] at ht
    exact .of_exec hs ht htwins hspares
  · rw [hs'] at hs
    rw [ht'] at ht
    simp only at hs ht
    rcases (indifferent_finishAll staged htwins).cases with
      ⟨e, s'', t'', hs'', ht'', htwins', hspares'⟩ | ⟨cs, s'', t'', hs'', ht'', htwins', hspares'⟩
    · rw [hs''] at hs
      rw [ht''] at ht
      exact .of_exec hs ht htwins' (hspares.trans hspares')
    · rw [hs''] at hs
      rw [ht''] at ht
      refine .of_exec hs ht (htwins'.withCaches cs) ((hspares.trans hspares').trans ?_)
      rw [foldl_withCache]
      exact ⟨rfl, rfl, rfl⟩

/-- Twins hand out the same of every type, whether it has been loaded or not. -/
theorem Twins.roster? (h : Twins s t) (type : String) : t.roster? type = s.roster? type := by
  refine roster?_congr ?_
  unfold opened
  rcases (indifferent_checkout type h).cases with
    ⟨e, s', t', hs, ht, -, -⟩ | ⟨c, s', t', hs, ht, htwins, -⟩
  · rw [hs, ht]
  · rw [hs, ht]
    simp only [htwins.pool, htwins.lastId]

end EntityStore.Store
