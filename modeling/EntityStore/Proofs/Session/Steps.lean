import EntityStore.Proofs.Repository.Steps
import EntityStore.Session

/-!
# Running the steps of a session

What a step does to a session and to the store behind it, as an equation for each function. An
addition or a removal does its work first and then commits, if the repository is set to commit
every change; the two parts are told apart here.
-/

namespace EntityStore.Session

variable {w w' : Work} {α : Type}

theorem exec_ask (m : StoreM α) (w : Work) :
    exec (ask m) w
      = ((exec m w.store).1.mapError .store, { w with store := (exec m w.store).2 }) := by
  unfold ask
  rw [exec_bind, exec_get, show exec m w.store = m.run.run w.store from rfl]
  simp only
  rcases m.run.run w.store with ⟨outcome, store⟩
  rw [exec_bind, exec_set]
  exact exec_ofExcept _ _

theorem exec_track (f : Pool → Ledger → Except Violation Ledger) (w : Work) :
    exec (track f) w =
      match f w.store.pool w.session.ledger with
      | .error v => (.error (.violation v), w)
      | .ok ledger => (.ok (), { w with session := { w.session with ledger } }) := by
  unfold track
  simp only [exec_bind, exec_get, exec_set, exec_ofExcept]
  cases f w.store.pool w.session.ledger <;> rfl

theorem exec_checkout_of_some {type : String} {c : Cache}
    (hfind : w.session.caches.find? type = some c) : exec (checkout type) w = (.ok c, w) := by
  unfold checkout
  simp [hfind]

theorem exec_checkout_of_none {type : String} (hfind : w.session.caches.find? type = none) :
    exec (checkout type) w =
      match exec (Store.load type) w.store with
      | (.error e, s) => (.error (.store e), { w with store := s })
      | (.ok committed, s) =>
        match w.session.ledger.registerAllClean s.pool committed with
        | (copies, pool, ledger) =>
          match Cache.ofEntities pool type copies with
          | .error e =>
            (.error (.store e),
              { store := { s with pool }, session := { w.session with ledger } })
          | .ok c =>
            (.ok c,
              { store := { s with pool }
                session := { w.session with ledger, caches := w.session.caches.put c } }) := by
  unfold checkout
  simp only [exec_bind, exec_get, hfind, exec_ask]
  rcases exec (Store.load type) w.store with ⟨e | committed, s⟩
  · rfl
  · simp only [Except.mapError, exec_set, exec_ofExcept]
    rcases w.session.ledger.registerAllClean s.pool committed with ⟨copies, pool, ledger⟩
    simp only
    cases Cache.ofEntities pool type copies with
    | error e => rfl
    | ok c => simp

/-- **A checkout that goes through**: the type was checked out already, or copies of what is committed
have been registered and put into a cache. -/
theorem of_exec_checkout {type : String} {c : Cache}
    (hrun : exec (checkout type) w = (.ok c, w')) :
    w.session.caches.find? type = some c ∧ w' = w ∨
      w.session.caches.find? type = none ∧ ∃ committed s copies pool ledger,
        exec (Store.load type) w.store = (.ok committed, s) ∧
        w.session.ledger.registerAllClean s.pool committed = (copies, pool, ledger) ∧
        Cache.ofEntities pool type copies = .ok c ∧
        w' = ⟨{ s with pool }, { w.session with ledger, caches := w.session.caches.put c }⟩ := by
  cases hfind : w.session.caches.find? type with
  | some d =>
    rw [exec_checkout_of_some hfind] at hrun
    obtain ⟨hcache, rfl⟩ := Prod.mk.inj hrun
    obtain rfl := Except.ok.inj hcache
    exact .inl ⟨rfl, rfl⟩
  | none =>
    rw [exec_checkout_of_none hfind] at hrun
    rcases hload : exec (Store.load type) w.store with ⟨e | committed, s⟩
    · rw [hload] at hrun
      cases hrun
    · rw [hload] at hrun
      simp only at hrun
      rcases hregister : w.session.ledger.registerAllClean s.pool committed with ⟨copies, pool, ledger⟩
      rw [hregister] at hrun
      simp only at hrun
      cases hof : Cache.ofEntities pool type copies with
      | error e =>
        rw [hof] at hrun
        cases hrun
      | ok d =>
        rw [hof] at hrun
        obtain ⟨hcache, rfl⟩ := Prod.mk.inj hrun
        obtain rfl := Except.ok.inj hcache
        exact .inr ⟨rfl, committed, s, copies, pool, ledger, rfl, hregister, hof, rfl⟩

/-- What has been checked out is in its place. -/
theorem find?_of_exec_checkout {type : String} {c : Cache}
    (hrun : exec (checkout type) w = (.ok c, w')) :
    w'.session.caches.find? type = some c := by
  rcases of_exec_checkout hrun with ⟨hfind, rfl⟩ | ⟨-, _, _, copies, pool, _, -, -, hof, rfl⟩
  · exact hfind
  · have hspec := Cache.ofEntities_spec pool type copies
    rw [hof] at hspec
    obtain ⟨-, -, -, htype⟩ := hspec
    exact Caches.find?_put_of_eq htype

theorem exec_onCache (type : String) (f : Pool → Cache → Except StoreError α × Cache) (w : Work) :
    exec (onCache type f) w =
      match exec (checkout type) w with
      | (.error e, w) => (.error e, w)
      | (.ok c, w) =>
        ((f w.store.pool c).1.mapError .store,
          { w with session :=
            { w.session with caches := w.session.caches.put (f w.store.pool c).2 } }) := by
  unfold onCache
  simp only [exec_bind, exec_get, exec_set, exec_ofExcept]
  rcases exec (checkout type) w with ⟨e | c, w'⟩ <;> rfl

theorem exec_flush (w : Work) :
    exec flush w = (.ok (), { w with session :=
      { w.session with caches := w.session.caches.rebuild w.store.pool } }) := rfl

/-- A commit re-indexes, hands the changes over, and lets go of everything if they are taken. -/
theorem exec_commit (w : Work) :
    exec commit w =
      match exec (Store.commit (changeset w)) w.store with
      | (.error e, s) =>
        (.error (.store e),
          { store := s
            session := { w.session with caches := w.session.caches.rebuild w.store.pool } })
      | (.ok _, s) =>
        (.ok (), { store := s, session := { w.session with ledger := [], caches := [] } }) := by
  unfold commit
  simp only [exec_bind, exec_flush, exec_get, exec_ask, changeset]
  rcases exec (Store.commit (w.session.ledger.changeset w.store.pool)) w.store with ⟨e | _, s⟩ <;> rfl

/-- The store's answer to a commit is the session's. -/
theorem fst_exec_commit (w : Work) :
    (exec commit w).1 = (exec (Store.commit (changeset w)) w.store).1.mapError .store := by
  rw [exec_commit]
  rcases exec (Store.commit (changeset w)) w.store with ⟨_ | _, _⟩ <;> rfl

theorem exec_rollback (w : Work) :
    exec rollback w
      = (.ok (), { w with session := { w.session with ledger := [], caches := [] } }) := rfl

/-- A step that violates the contract of the ledger poisons the session. -/
theorem exec_run (m : SessionM α) (w : Work) :
    exec (run m) w =
      match exec m w with
      | (.ok a, w) => (.ok a, w)
      | (.error (.store e), w) => (.error (.store e), w)
      | (.error (.violation v), w) =>
        (.error (.violation v), { w with session := { w.session with poisoned := true } }) := by
  unfold run
  rw [exec_tryCatch]
  rcases exec m w with ⟨(e | v) | a, w'⟩ <;> rfl

theorem exec_locked (m : SessionM α) (w : Work) :
    exec (locked m) w =
      if w.session.poisoned then (.error (.store (.lockPoisoned .session)), w)
      else exec (run m) w := by
  unfold locked
  simp only [exec_bind, exec_get]
  split <;> rfl

end EntityStore.Session
