import EntityStore.Proofs.Cache.Numbering

/-!
# Running the steps of a store

What a step does to a store, said as an equation for each function: its outcome together with the
store it leaves. A step that fails keeps what it changed before it failed, so the store is part
of the equation in either case.
-/

namespace EntityStore

section Running

variable {ε σ α β : Type}

/-- Run a step: its outcome and the state it leaves. -/
def exec (m : ExceptT ε (StateM σ) α) (s : σ) : Except ε α × σ := m.run.run s

variable (s s' : σ)

@[simp] theorem exec_pure (a : α) : exec (pure a : ExceptT ε (StateM σ) α) s = (.ok a, s) := rfl

@[simp] theorem exec_bind (m : ExceptT ε (StateM σ) α) (f : α → ExceptT ε (StateM σ) β) :
    exec (m >>= f) s =
      match exec m s with
      | (.ok a, s) => exec (f a) s
      | (.error e, s) => (.error e, s) := by
  show (m.run >>= ExceptT.bindCont f).run s = _
  rw [StateT.run_bind]
  show (match m.run.run s with | (x, s) => (ExceptT.bindCont f x).run s : Except ε β × σ) = _
  unfold exec
  rcases m.run.run s with ⟨_ | _, _⟩ <;> rfl

@[simp] theorem exec_map (f : α → β) (m : ExceptT ε (StateM σ) α) :
    exec (f <$> m) s = ((exec m s).1.map f, (exec m s).2) := by
  rw [← bind_pure_comp, exec_bind]
  rcases exec m s with ⟨_ | _, _⟩ <;> rfl

@[simp] theorem exec_get : exec (get : ExceptT ε (StateM σ) σ) s = (.ok s, s) := rfl

@[simp] theorem exec_set : exec (set s' : ExceptT ε (StateM σ) PUnit) s = (.ok ⟨⟩, s') := rfl

@[simp] theorem exec_modify (f : σ → σ) :
    exec (modify f : ExceptT ε (StateM σ) PUnit) s = (.ok ⟨⟩, f s) := rfl

@[simp] theorem exec_throw (e : ε) :
    exec (throw e : ExceptT ε (StateM σ) α) s = (.error e, s) := rfl

@[simp] theorem exec_ofExcept (x : Except ε α) :
    exec (ofExcept x : ExceptT ε (StateM σ) α) s = (x, s) := by
  cases x <;> rfl

@[simp] theorem exec_tryCatch (m : ExceptT ε (StateM σ) α) (f : ε → ExceptT ε (StateM σ) α) :
    exec (tryCatch m f) s =
      match exec m s with
      | (.ok a, s) => (.ok a, s)
      | (.error e, s) => exec (f e) s := by
  show (m.run >>= fun x => match x with
    | .ok a => pure (.ok a)
    | .error e => (f e).run : StateT σ Id (Except ε α)).run s = _
  rw [StateT.run_bind]
  show (match m.run.run s with
    | (x, s) => (match x with
        | .ok a => pure (.ok a)
        | .error e => (f e).run : StateT σ Id (Except ε α)).run s) = _
  unfold exec
  rcases m.run.run s with ⟨_ | _, _⟩ <;> rfl

end Running

namespace Store

variable (s : Store)

/-- The entities that the loader of a type yields. A type without a loader starts empty. -/
def loaded (type : String) : Except StoreError (List Entity) :=
  match s.repository.loader? type with
  | some loader => loader s.directory
  | none => .ok []

theorem exec_number (last : EntityId) (c : Cache) :
    exec (number last c) s =
      match Cache.assignIds (advance c.type) c.entities s.pool last with
      | (.ok _, pool, last) => (.ok (last, c.rebuild pool), { s with pool })
      | (.error e, pool, _) => (.error e, { s with pool }) := by
  have hstale : ∀ pool, c.invalidate.rebuild pool = c.rebuild pool := fun _ => rfl
  unfold number Cache.assignMissingIds
  rcases hrun : Cache.assignIds (advance c.type) c.entities s.pool last with ⟨e | n, pool, last'⟩
  · simp [hrun, Except.map]
  · by_cases hn : n = 0 <;> simp [hrun, hn, hstale, Except.map]

variable {s}

theorem exec_checkout_of_some {type : String} {c : Cache}
    (hfind : s.repository.caches.find? type = some c) : exec (checkout type) s = (.ok c, s) := by
  unfold checkout
  simp [hfind]

/-- Fill a cache with entities under new handles and number them. -/
def fill (pool : Pool) (type : String) (entities : List Entity) :
    Except StoreError (Cache × EntityId) × Pool :=
  match Cache.ofEntities (pool.allocAll entities).2 type (pool.allocAll entities).1 with
  | .error e => (.error e, pool)
  | .ok c =>
    match Cache.assignIds (advance c.type) c.entities (pool.allocAll entities).2
        ((c.maxId? (pool.allocAll entities).2).getD 0) with
    | (.error e, pool, _) => (.error e, pool)
    | (.ok _, pool, last) => (.ok (c.rebuild pool, last), pool)

theorem exec_checkout_of_none {type : String} (hfind : s.repository.caches.find? type = none) :
    exec (checkout type) s =
      match s.loaded type with
      | .error e => (.error e, s)
      | .ok entities =>
        match fill s.pool type entities with
        | (.error e, pool) => (.error e, { s with pool })
        | (.ok (c, last), pool) =>
          (.ok c, { s with pool, repository := (s.repository.withLastId type last).withCache c }) := by
  unfold checkout loaded fill
  cases hloader : s.repository.loader? type with
  | none =>
    simp only [exec_bind, exec_get, hfind, hloader, exec_pure, exec_ofExcept, exec_set, exec_modify,
      exec_number]
    cases Cache.ofEntities (s.pool.allocAll []).2 type (s.pool.allocAll []).1 with
    | error e => rfl
    | ok c =>
      simp only
      rcases Cache.assignIds _ c.entities _ _ with ⟨_ | _, _, _⟩ <;> rfl
  | some loader =>
    simp only [exec_bind, exec_get, hfind, hloader, exec_pure, exec_ofExcept, exec_set, exec_modify,
      exec_number]
    cases loader s.directory with
    | error e => rfl
    | ok es =>
      simp only
      cases Cache.ofEntities (s.pool.allocAll es).2 type (s.pool.allocAll es).1 with
      | error e => rfl
      | ok c =>
        simp only
        rcases Cache.assignIds _ c.entities _ _ with ⟨_ | _, _, _⟩ <;> rfl

theorem exec_load (type : String) :
    exec (load type) s = ((exec (checkout type) s).1.map Cache.entities, (exec (checkout type) s).2) := by
  unfold load
  simp only [exec_bind, exec_pure]
  rcases exec (checkout type) s with ⟨_ | _, _⟩ <;> rfl

theorem exec_newId (type : String) :
    exec (newId type) s =
      match exec (checkout type) s with
      | (.error e, s) => (.error e, s)
      | (.ok c, s) =>
        match (advance type ((s.pool.roster c.entities).latest (s.repository.lastId type))).1 with
        | .error e => (.error e, s)
        | .ok id => (.ok id, { s with repository := s.repository.withLastId type id }) := by
  unfold newId
  simp only [exec_bind]
  rcases exec (checkout type) s with ⟨e | c, s'⟩
  · rfl
  · simp only [exec_get, exec_ofExcept, exec_modify, exec_pure, Cache.getD_map_later]
    rcases (advance type _).1 with _ | _ <;> rfl

/-! ## Committing -/

/-- The cache that a change of a type is applied to. -/
def stagedOn (staged : Caches) (type : String) : StoreM Cache :=
  match staged.find? type with
  | some c => pure c
  | none => checkout type

theorem exec_stage (staged : Caches) (change : Change) :
    exec (stage staged change) s =
      match exec (stagedOn staged (s.pool.typeName change.entity)) s with
      | (.error e, s) => (.error e, s)
      | (.ok c, s) =>
        match c.apply change s.pool with
        | (.error e, _, pool) => (.error e, { s with pool })
        | (.ok _, c, pool) => (.ok (staged.put c), { s with pool }) := by
  unfold stage stagedOn
  simp only [exec_bind, exec_get]
  cases staged.find? (s.pool.typeName change.entity) with
  | some c =>
    simp only [exec_bind, exec_get, exec_pure, exec_set, exec_ofExcept]
    rcases c.apply change s.pool with ⟨_ | _, _, _⟩ <;> rfl
  | none =>
    simp only [exec_bind, exec_get, exec_set, exec_ofExcept, exec_pure]
    rcases exec (checkout (s.pool.typeName change.entity)) s with ⟨e | c, s'⟩
    · rfl
    · simp only
      rcases c.apply change s'.pool with ⟨_ | _, _, _⟩ <;> rfl

theorem exec_finish (c : Cache) :
    exec (finish c) s =
      match c.checkUnique s.pool with
      | .error e => (.error e, s)
      | .ok _ =>
        match Cache.assignIds (advance c.type) c.entities s.pool
            ((s.pool.roster c.entities).latest (s.repository.lastId c.type)) with
        | (.error e, pool, _) => (.error e, { s with pool })
        | (.ok _, pool, last) =>
          (.ok (c.rebuild pool),
            { s with pool, repository := s.repository.withLastId c.type last }) := by
  unfold finish
  simp only [exec_bind, exec_get, exec_ofExcept, exec_number, exec_modify, exec_pure]
  rcases c.checkUnique s.pool with e | _
  · rfl
  · simp only [Cache.getD_map_later]
    rcases Cache.assignIds (advance c.type) c.entities s.pool _ with ⟨_ | _, _, _⟩ <;> rfl

theorem exec_applyAll (changes : Changeset) :
    exec (applyAll changes) s =
      match exec (changes.foldlM stage []) s with
      | (.error e, s) => (.error e, s)
      | (.ok staged, s) =>
        match exec (staged.mapM finish) s with
        | (.error e, s) => (.error e, s)
        | (.ok staged, s) =>
          (.ok staged, { s with repository := staged.foldl .withCache s.repository }) := by
  unfold applyAll
  simp only [exec_bind, exec_modify, exec_pure]
  rcases exec (changes.foldlM stage []) s with ⟨e | staged, s'⟩
  · rfl
  · simp only
    rcases exec (staged.mapM finish) s' with ⟨_ | _, _⟩ <;> rfl

theorem exec_dump_of_none {c : Cache} (hformat : s.repository.format? c.type = none) :
    exec (dump c) s = (.ok (), s) := by
  unfold dump
  simp [hformat]

/-- A repository that keeps no tables: what commits write stays in memory. -/
def InMemory (s : Store) : Prop := ∀ type, s.repository.format? type = none

theorem exec_forM_dump (hmemory : s.InMemory) (cs : Caches) :
    exec (cs.forM dump) s = (.ok (), s) := by
  induction cs with
  | nil => rfl
  | cons c rest ih =>
    show exec (dump c >>= fun _ => rest.forM dump) s = (.ok (), s)
    rw [exec_bind, exec_dump_of_none (hmemory c.type)]
    exact ih

end Store

end EntityStore
