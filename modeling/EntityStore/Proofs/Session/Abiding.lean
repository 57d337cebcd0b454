import EntityStore.Proofs.Session.Effects

/-!
# What abides whatever a session does

A session changes the store behind it in few ways: it has types loaded, ids drawn and changes
committed, it makes copies of entities, and it gives an id to an entity that has none. What is known of
the store and outlasts each of these outlasts every call of a session, whatever comes of the call: also
one that fails halfway, and one that violates the contract of the ledger.
-/

namespace EntityStore.Session

variable {R : Store → Prop} {known : Handle → Prop} {bad : Prop} {w : Work} {type : String} {c : Cache}
  {h : Handle} {α β : Type}

/-- What is known of a store that is kept up, and outlasts whatever a session does to it. -/
structure Abiding (R : Store → Prop) : Prop where
  checkout : ∀ {s} type, s.Upkept → R s → R (exec (Store.checkout type) s).2
  newId : ∀ {s} type, s.Upkept → R s → R (exec (Store.newId type) s).2
  commit : ∀ {s changes}, s.Upkept → (∀ c ∈ changes, c.entity < s.pool.next) → R s →
    R (exec (Store.commit changes) s).2
  /-- Entities are made, and given ids. -/
  pool : ∀ {s pool}, s.Upkept → s.pool.Grows pool → R s → R { s with pool }

/-- While an entity is being identified it abides. -/
theorem Abiding.enduring (hR : Abiding R) {s : Store} (hs : s.Upkept) :
    Enduring fun s' => s.Progress s' ∧ R s' where
  newId := fun type ⟨hprogress, h⟩ =>
    ⟨(enduring_progress hs).newId type hprogress, hR.newId type (hs.progress hprogress) h⟩
  setId := fun ⟨hprogress, h⟩ hid id =>
    ⟨(enduring_progress hs).setId hprogress hid id,
      hR.pool (hs.progress hprogress) (Pool.grows_setId hid id) h⟩

/-! ## Steps -/

/-- A step that every coherent session may make, and that keeps what abides. -/
structure Tame (R : Store → Prop) (m : SessionM α) : Prop where
  harmless : Harmless m
  keeps : ∀ {known w}, Coherent known w → R w.store → R (exec m w).2.store

/-- One step after another. -/
theorem keeps_bind {m : SessionM α} {f : α → SessionM β} (hm : Conducts known bad w m)
    (hfirst : R (exec m w).2.store)
    (hf : ∀ a w', Coherent known w' → R w'.store → R (exec (f a) w').2.store) :
    R (exec (m >>= f) w).2.store := by
  rw [exec_bind]
  rcases hrun : exec m w with ⟨e | a, w'⟩
  · rw [hrun] at hfirst
    exact hfirst
  · rw [hrun] at hfirst
    exact hf a w' (hm.coherent_of_ok hrun) hfirst

theorem Tame.bind {m : SessionM α} {f : α → SessionM β} (hm : Tame R m) (hf : ∀ a, Tame R (f a)) :
    Tame R (m >>= f) where
  harmless := hm.harmless.bind fun a => (hf a).harmless
  keeps := fun {known w} hw h => keeps_bind (hm.harmless known False w hw) (hm.keeps hw h)
    fun a _ hw' h' => (hf a).keeps hw' h'

theorem tame_pure (a : α) : Tame R (pure a : SessionM α) := ⟨harmless_pure a, fun _ h => h⟩

theorem tame_get : Tame R (get : SessionM Work) := ⟨harmless_get, fun _ h => h⟩

/-- **Checking out** loads a type and copies what is committed of it. -/
theorem Abiding.checkout_keeps (hR : Abiding R) (hw : Coherent known w) (h : R w.store)
    (type : String) : R (exec (Session.checkout type) w).2.store := by
  cases hfind : w.session.caches.find? type with
  | some c =>
    rw [exec_checkout_of_some hfind]
    exact h
  | none =>
    have hloads := hR.checkout type hw.store h
    obtain ⟨hprogress, hfound⟩ := hw.store.checkout type
    rw [exec_checkout_of_none hfind, Store.exec_load]
    rcases hload : exec (Store.checkout type) w.store with ⟨e | committed, s⟩
    · rw [hload] at hloads
      exact hloads
    · rw [hload] at hloads hprogress hfound
      have hloaded : Coherent known { w with store := s } := hw.progress hprogress
      simp only [Except.map]
      rcases hregister : w.session.ledger.registerAllClean s.pool committed.entities with
        ⟨copies, pool, ledger⟩
      obtain ⟨hcopies, -⟩ := hloaded.register hfind (hfound committed rfl) hregister
      have hcopied := hR.pool hloaded.store hcopies.pool hloads
      simp only
      cases Cache.ofEntities pool type copies <;> exact hcopied

theorem tame_checkout (hR : Abiding R) (type : String) : Tame R (checkout type) :=
  ⟨harmless_checkout type, fun hw h => hR.checkout_keeps hw h type⟩

/-- Once the type is checked out, an operation on its cache is no matter for the store. -/
theorem store_onCache (type : String) (f : Pool → Cache → Except StoreError α × Cache) (w : Work) :
    (exec (onCache type f) w).2.store = (exec (checkout type) w).2.store := by
  rw [exec_onCache]
  rcases exec (checkout type) w with ⟨_ | _, _⟩ <;> rfl

theorem tame_onCache (hR : Abiding R) (type : String) {f : Pool → Cache → Except StoreError α × Cache}
    (hf : Relisting f) : Tame R (onCache type f) where
  harmless := harmless_onCache type hf
  keeps := fun hw h => by
    rw [store_onCache]
    exact hR.checkout_keeps hw h type

theorem tame_readThrough (hR : Abiding R) (type : String) : Tame R (readThrough type) := by
  refine tame_get.bind fun w => ?_
  split
  · exact tame_onCache hR type relisting_rebuild
  · exact tame_pure _

theorem tame_commit (hR : Abiding R) : Tame R commit where
  harmless := harmless_commit
  keeps := by
    intro known w hw h
    have hcommit := hR.commit hw.store hw.live_changeset h
    rw [exec_commit]
    rcases hrun : exec (Store.commit (changeset w)) w.store with ⟨e | _, s⟩ <;>
    · rw [hrun] at hcommit
      exact hcommit

theorem tame_autocommit (hR : Abiding R) : Tame R autocommit := by
  refine tame_get.bind fun w => ?_
  split
  · exact tame_commit hR
  · exact tame_pure _

/-! ## Adding, removing and replacing -/

/-- What remains of a removal once the entity is out of its cache is a matter of the ledger. -/
theorem store_leave (h : Handle) (w : Work) :
    (exec (leave h) w).2.store = (exec (checkout (w.store.pool.typeName h)) w).2.store := by
  rw [exec_leave]
  unfold withdraw
  simp only [exec_bind]
  rw [← store_onCache (w.store.pool.typeName h) (fun pool c => c.remove pool h)]
  rcases exec (onCache (w.store.pool.typeName h) fun pool c => c.remove pool h) w with ⟨e | gone, w'⟩
  · rfl
  · simp only [exec_get]
    split
    · exact (ledgering_track _ w').store
    · rfl

theorem tame_leave (hR : Abiding R) (h : Handle) : Tame R (leave h) where
  harmless := harmless_leave h
  keeps := fun hw hstore => by
    rw [store_leave]
    exact hR.checkout_keeps hw hstore _

/-- What remains of a replacement once the cache lists the new entity is a matter of the ledger. -/
theorem store_replace (h : Handle) (w : Work) :
    (exec (replace h) w).2.store = (exec (checkout (w.store.pool.typeName h)) w).2.store := by
  rw [exec_replace]
  simp only [exec_bind]
  rw [← store_onCache (w.store.pool.typeName h) (fun pool c => c.replace pool h)]
  rcases exec (onCache (w.store.pool.typeName h) fun pool c => c.replace pool h) w with ⟨e | old, w'⟩
  · rfl
  · exact (ledgering_succeed old h w').store

/-- Once an entity has its id, the rest of an addition is a matter of the ledger. -/
theorem store_settle (type : String) (h : Handle) (revived : Bool) (w : Work) :
    (exec (settle type h revived) w).2.store =
      if (w.store.pool.id h).isNone then (exec (identify type h) w).2.store else w.store := by
  have htake : ∀ v : Work, (exec (if revived then succeed h h
      else track fun pool l => l.registerNew pool h) v).2.store = v.store := by
    intro v
    split
    · exact (ledgering_succeed h h v).store
    · exact (ledgering_track _ v).store
  unfold settle
  rw [exec_bind, exec_get]
  by_cases hid : (w.store.pool.id h).isNone = true
  · simp only [hid, if_true]
    rw [exec_bind]
    rcases exec (identify type h) w with ⟨e | _, w'⟩
    · rfl
    · exact htake w'
  · simp only [hid]
    exact htake w

/-- Entering an entity that is not listed, and what remains of the addition then. -/
theorem Abiding.insert_keeps (hR : Abiding R) (hw : Coherent known w) (hstore : R w.store)
    (hfind : w.session.caches.find? type = some c) (hlive : h < w.store.pool.next)
    (htyped : w.store.pool.typeName h = type) (hmem : h ∉ c.entities) (revived : Bool) :
    R (exec (do
      onCache type fun pool c => c.add pool h
      settle type h revived
      return true : SessionM Bool) w).2.store := by
  have hstart : w.store.Progress w.store ∧ R w.store := ⟨.refl w.store, hstore⟩
  rw [exec_bind]
  rcases exec_insert (R := fun s => w.store.Progress s ∧ R s) hstart hfind (hw.keyed hfind) hlive
    htyped hmem with ⟨e, hrun⟩ | ⟨v, hrun, -, hentered⟩
  · rw [hrun]
    exact hstore
  · have hsettled : R (exec (settle type h revived) v).2.store := by
      rw [store_settle]
      by_cases hid : v.store.pool.id h = none
      · have hidentify := hentered.identify (hR.enduring hw.store) (Caches.type_of_find? hfind) hid
        rw [hid, Option.isNone_none, if_pos rfl]
        rcases hrun' : exec (identify type h) v with ⟨fault | _, v'⟩
        · rw [hrun'] at hidentify
          exact hidentify.2.1.2
        · rw [hrun'] at hidentify
          exact hidentify.1.store.2
      · rw [if_neg (mt Option.isNone_iff_eq_none.mp hid)]
        exact hentered.store.2
    rw [hrun]
    simp only [exec_bind, exec_pure]
    rcases hrun' : exec (settle type h revived) v with ⟨e | _, v'⟩ <;>
    · rw [hrun'] at hsettled
      exact hsettled

/-- **Adding** an entity that lives. -/
theorem Abiding.enter_keeps (hR : Abiding R) (hw : Coherent known w) (hstore : R w.store)
    (hlive : h < w.store.pool.next) : R (exec (enter h) w).2.store := by
  obtain ⟨hcheckout, hout⟩ := checkout_conducts True hw (w.store.pool.typeName h)
  have hfirst := hR.checkout_keeps hw hstore (w.store.pool.typeName h)
  have hprogress := hcheckout.progress
  rw [exec_enter]
  simp only [exec_bind]
  rcases hrun : exec (Session.checkout (w.store.pool.typeName h)) w with ⟨e | c, w₁⟩
  · rw [hrun] at hfirst
    exact hfirst
  · rw [hrun] at hfirst hprogress
    obtain ⟨hfind, -⟩ := hout c w₁ hrun
    simp only
    by_cases hmem : h ∈ c.entities
    · rw [if_pos (by simpa [Cache.contains] using hmem)]
      exact hfirst
    · rw [if_neg (by simpa [Cache.contains] using hmem)]
      exact hR.insert_keeps (hcheckout.coherent_of_ok hrun) hfirst hfind
        (Nat.lt_of_lt_of_le hlive hprogress.pool.next_le) (hprogress.pool.typeName hlive) hmem _

/-! ## Calls -/

/-- **Whatever a session is called for**, and whatever comes of it. -/
theorem Call.keeps (hR : Abiding R) (c : Call) (hw : Coherent known w)
    (hlive : ∀ h ∈ c.entity?, h < w.store.pool.next) (h : R w.store) :
    R (exec c.run w).2.store := by
  have hread : ∀ {α : Type} {m : SessionM α}, Tame R m → R (exec (do let _ ← m) w).2.store :=
    fun hm => (hm.bind fun _ => tame_pure ()).keeps hw h
  cases c with
  | add k =>
    rw [run, add_eq]
    refine keeps_bind (enter_conducts hw (hlive k rfl)) (hR.enter_keeps hw h (hlive k rfl)) ?_
    intro any w' hw' h'
    split
    · exact (tame_autocommit hR).keeps hw' h'
    · exact h'
  | remove k =>
    rw [run, remove_eq]
    exact ((tame_leave hR k).bind fun _ => tame_autocommit hR).keeps hw h
  | replace k =>
    rw [run, store_replace]
    exact hR.checkout_keeps hw h _
  | enter k =>
    exact keeps_bind (enter_conducts hw (hlive k rfl)) (hR.enter_keeps hw h (hlive k rfl))
      fun _ _ _ h' => h'
  | leave k => exact (tame_leave hR k).keeps hw h
  | getById type id =>
    exact hread ((tame_readThrough hR type).bind fun _ => tame_onCache hR type (relisting_getById id))
  | getBySlug type slug =>
    exact hread
      ((tame_readThrough hR type).bind fun _ => tame_onCache hR type (relisting_getBySlug slug))
  | all type =>
    exact hread
      ((tame_readThrough hR type).bind fun _ => (tame_checkout hR type).bind fun _ => tame_pure _)
  | flush => exact h
  | commit => exact (tame_commit hR).keeps hw h
  | rollback => exact h

/-- Under the lock, too. -/
theorem Call.keeps_locked (hR : Abiding R) (c : Call)
    (hw : w.session.poisoned = false → Coherent known w)
    (hlive : ∀ h ∈ c.entity?, h < w.store.pool.next) (h : R w.store) :
    R (exec (locked c.run) w).2.store := by
  cases hpoisoned : w.session.poisoned with
  | true =>
    rw [exec_locked_of_poisoned hpoisoned]
    exact h
  | false =>
    rw [store_exec_locked hpoisoned]
    exact c.keeps hR (hw hpoisoned) hlive h

/-- A call under the lock, of a session that is coherent unless it has been poisoned. -/
theorem Call.conducts_locked (c : Call) (hw : w.session.poisoned = false → Coherent known w)
    (hlive : ∀ h ∈ c.entity?, h < w.store.pool.next) :
    w.store.Progress (exec (locked c.run) w).2.store ∧
      ((exec (locked c.run) w).2.session.poisoned = false →
        Coherent known (exec (locked c.run) w).2) := by
  cases hpoisoned : w.session.poisoned with
  | true =>
    rw [exec_locked_of_poisoned hpoisoned]
    exact ⟨.refl w.store, hw⟩
  | false =>
    have hconducts := c.conducts (hw hpoisoned) (Call.newcomer_live hlive)
    refine ⟨?_, fun hfree => ?_⟩
    · rw [store_exec_locked hpoisoned]
      exact hconducts.progress
    · have hlawful := lawful_of_unpoisoned hpoisoned hfree
      rw [exec_locked_of_lawful hpoisoned hlawful]
      exact hconducts.coherent.resolve_left hlawful

end EntityStore.Session
