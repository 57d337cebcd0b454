import EntityStore.Proofs.Repository.Owning
import EntityStore.Proofs.Session.Conduct

/-!
# What a session tracks

A session comes to track the entities that it is called about, and copies of what is committed; these
it makes itself. So it tracks nothing that the repository owns, and nothing that another session has
made, as long as it is not called about any such entity. This holds of every call, whatever comes of
it: also of one that fails, or that violates the contract of the ledger.
-/

namespace EntityStore

namespace Ledger

theorem next_registerAllClean (p : Pool) (l : Ledger) (hs : List Handle) :
    (l.registerAllClean p hs).2.1.next = p.next + hs.length := by
  induction hs generalizing p l with
  | nil => rfl
  | cons h rest ih =>
    refine (ih (p.detach h).2 _).trans ?_
    rw [List.length_cons]
    exact Nat.succ_add_eq_add_succ _ _

/-- What is registered is made for it. -/
theorem entities_registerAllClean (p : Pool) (l : Ledger) (hs : List Handle) :
    (l.registerAllClean p hs).2.2.map LedgerEntry.entity
      = l.map LedgerEntry.entity ++ List.range' p.next hs.length := by
  induction hs generalizing p l with
  | nil => exact (List.append_nil _).symm
  | cons h rest ih =>
    refine (ih (p.detach h).2 _).trans ?_
    rw [List.map_append, List.append_assoc, List.length_cons, List.range'_succ]
    rfl

theorem entities_register {p : Pool} {l l' : Ledger} {h : Handle} {state : LifeState}
    {snapshot : Snapshot} (hok : l.register p h state snapshot = .ok l') :
    l'.map LedgerEntry.entity = l.map LedgerEntry.entity ++ [h] := by
  unfold register at hok
  split at hok
  · cases hok
  · rw [← Except.ok.inj hok, List.map_append]
    rfl

theorem entities_mark {p : Pool} {l l' : Ledger} {h : Handle} {target : LifeState}
    (hok : l.mark p h target = .ok l') : l'.map LedgerEntry.entity = l.map LedgerEntry.entity := by
  unfold mark at hok
  cases hfind : l.find? h with
  | none =>
    rw [hfind] at hok
    cases hok
  | some e =>
    rw [hfind] at hok
    simp only at hok
    split at hok
    · rw [← Except.ok.inj hok, update, List.map_map]
      refine List.map_congr_left fun d _ => ?_
      rw [Function.comp]
      split <;> rfl
    · cases hok

end Ledger

namespace Session

variable {w w' w'' : Work} {news : Option Handle} {α β : Type}

/-- The entities that a session tracks. -/
def tracked (w : Work) : List Handle := w.session.ledger.map LedgerEntry.entity

/-- What a session comes to track it is called about, or it has been made on the way for the session
and not for the repository. -/
structure KeepsApart (news : Option Handle) (w w' : Work) : Prop where
  store : w.store.Acquires w'.store
  tracked : ∀ h ∈ tracked w', h ∈ tracked w ∨ news = some h ∨
    w.store.pool.next ≤ h ∧ h < w'.store.pool.next ∧ ¬ w'.store.Owns h

theorem KeepsApart.refl (w : Work) : KeepsApart news w w := ⟨.refl _, fun _ => .inl⟩

theorem KeepsApart.trans (h : KeepsApart news w w') (h' : KeepsApart news w' w'') :
    KeepsApart news w w'' where
  store := h.store.trans h'.store
  tracked := by
    intro k hk
    -- what the first step has made the second one does not make over to the repository
    rcases h'.tracked k hk with hold | hnews | ⟨hle, hlt, hnot⟩
    · rcases h.tracked k hold with hold | hnews | ⟨hle, hlt, hnot⟩
      · exact .inl hold
      · exact .inr (.inl hnews)
      · exact .inr (.inr ⟨hle, h'.store.not_owns ⟨hlt, hnot⟩⟩)
    · exact .inr (.inl hnews)
    · exact .inr (.inr ⟨Nat.le_trans h.store.next_le hle, hlt, hnot⟩)

/-! ## Steps that keep apart -/

/-- A step that keeps apart what the session tracks and what the repository owns. -/
def Separates (news : Option Handle) (m : SessionM α) : Prop :=
  ∀ w : Work, w.store.Alive → KeepsApart news w (exec m w).2

/-- A step that copies nothing. -/
theorem separates_of {m : SessionM α} (hm : ∀ w, w.store.Acquires (exec m w).2.store ∧
    ∀ h ∈ tracked (exec m w).2, h ∈ tracked w ∨ news = some h) : Separates news m :=
  fun w _ => ⟨(hm w).1, fun h hh => ((hm w).2 h hh).imp_right .inl⟩

/-- A step that leaves the store and the ledger alone. -/
theorem separates_of_same {m : SessionM α}
    (hm : ∀ w, (exec m w).2.store = w.store ∧ (exec m w).2.session.ledger = w.session.ledger) :
    Separates news m := by
  refine separates_of fun w => ⟨?_, fun h hh => .inl ?_⟩
  · rw [(hm w).1]
    exact .refl _
  · rwa [tracked, ← (hm w).2]

theorem separates_pure (a : α) : Separates news (pure a : SessionM α) :=
  separates_of_same fun _ => ⟨rfl, rfl⟩

theorem separates_get : Separates news (get : SessionM Work) :=
  separates_of_same fun _ => ⟨rfl, rfl⟩

theorem separates_throw (e : SessionFault) : Separates news (throw e : SessionM α) :=
  separates_of_same fun _ => ⟨rfl, rfl⟩

theorem Separates.bind {m : SessionM α} {f : α → SessionM β} (hm : Separates news m)
    (hf : ∀ a, Separates news (f a)) : Separates news (m >>= f) := by
  intro w halive
  have hfirst := hm w halive
  rw [exec_bind]
  rcases hrun : exec m w with ⟨e | a, w'⟩
  · rw [hrun] at hfirst
    exact hfirst
  · rw [hrun] at hfirst
    exact hfirst.trans (hf a w' (hfirst.store.alive halive))

theorem Separates.tryCatch {m : SessionM α} {f : SessionFault → SessionM α}
    (hm : Separates news m) (hf : ∀ e, Separates news (f e)) :
    Separates news (MonadExcept.tryCatch m f) := by
  intro w halive
  have hfirst := hm w halive
  rw [exec_tryCatch]
  rcases hrun : exec m w with ⟨e | a, w'⟩
  · rw [hrun] at hfirst
    exact hfirst.trans (hf e w' (hfirst.store.alive halive))
  · rw [hrun] at hfirst
    exact hfirst

theorem separates_ask {m : StoreM α} (hm : ∀ s : Store, s.Acquires (exec m s).2) :
    Separates news (ask m) := by
  refine separates_of fun w => ?_
  rw [exec_ask]
  exact ⟨hm w.store, fun h hh => .inl hh⟩

theorem separates_track {f : Pool → Ledger → Except Violation Ledger}
    (hf : ∀ p l l', f p l = .ok l' → ∀ h ∈ l'.map LedgerEntry.entity,
      h ∈ l.map LedgerEntry.entity ∨ news = some h) : Separates news (track f) := by
  refine separates_of fun w => ?_
  rw [exec_track]
  cases hrun : f w.store.pool w.session.ledger with
  | error v => exact ⟨.refl _, fun h hh => .inl hh⟩
  | ok l => exact ⟨.refl _, hf _ _ _ hrun⟩

theorem separates_registerNew (h : Handle) :
    Separates (some h) (track fun pool l => l.registerNew pool h) := by
  refine separates_track fun p l l' hok k hk => ?_
  rw [Ledger.entities_register hok] at hk
  exact (List.mem_append.mp hk).imp_right fun hk => congrArg some (List.mem_singleton.mp hk).symm

theorem separates_mark (h : Handle) (target : LifeState) :
    Separates news (track fun pool l => l.mark pool h target) := by
  refine separates_track fun p l l' hok k hk => .inl ?_
  rwa [Ledger.entities_mark hok] at hk

/-- The entry of the one entity is released before the other is registered. -/
theorem separates_succeed (old h : Handle) : Separates (some h) (succeed old h) := by
  refine separates_of fun w => ?_
  have hreleased : ∀ k ∈ (List.filter (fun e => e.entity != old) w.session.ledger).map
      LedgerEntry.entity, k ∈ tracked w := by
    intro k hk
    obtain ⟨e, he, rfl⟩ := List.mem_map.mp hk
    exact List.mem_map_of_mem (List.mem_filter.mp he).1
  rw [exec_succeed]
  cases hregister : Ledger.register w.store.pool h (legacy w.store.pool w.session.ledger old h).1
      (legacy w.store.pool w.session.ledger old h).2
      (List.filter (fun e => e.entity != old) w.session.ledger) with
  | error v => exact ⟨.refl _, fun k hk => .inl (hreleased k hk)⟩
  | ok l =>
    refine ⟨.refl _, fun k hk => ?_⟩
    have hk : k ∈ l.map LedgerEntry.entity := hk
    rw [Ledger.entities_register hregister] at hk
    rcases List.mem_append.mp hk with hk | hk
    · exact .inl (hreleased k hk)
    · exact .inr (congrArg some (List.mem_singleton.mp hk).symm)

/-- **Checking out** makes copies for the session. -/
theorem separates_checkout (type : String) : Separates news (checkout type) := by
  intro w halive
  cases hfind : w.session.caches.find? type with
  | some c =>
    rw [exec_checkout_of_some hfind]
    exact .refl w
  | none =>
    have hload : w.store.Acquires (exec (Store.load type) w.store).2 := by
      rw [Store.exec_load]
      exact (Store.acquires_checkout w.store type).1
    rw [exec_checkout_of_none hfind]
    rcases hrun : exec (Store.load type) w.store with ⟨e | committed, s⟩
    · rw [hrun] at hload
      exact ⟨hload, fun h hh => .inl hh⟩
    · rw [hrun] at hload
      have hnext := Ledger.next_registerAllClean s.pool w.session.ledger committed
      have hentities := Ledger.entities_registerAllClean s.pool w.session.ledger committed
      simp only
      rcases hregister : w.session.ledger.registerAllClean s.pool committed with
        ⟨copies, pool, ledger⟩
      rw [hregister] at hnext hentities
      simp only at hnext hentities ⊢
      have hle : s.pool.next ≤ pool.next := by
        rw [hnext]
        exact Nat.le_add_right _ _
      have hcopied : s.Acquires { s with pool } := Store.acquires_of_caches rfl hle
      -- the copies lie beyond all that is owned
      have hkept : ∀ σ : Session, σ.ledger = ledger → KeepsApart news w ⟨{ s with pool }, σ⟩ := by
        rintro σ rfl
        refine ⟨hload.trans hcopied, fun h hh => ?_⟩
        have hh : h ∈ σ.ledger.map LedgerEntry.entity := hh
        rw [hentities] at hh
        refine (List.mem_append.mp hh).imp_right fun hh => .inr ?_
        obtain ⟨hfrom, hto⟩ := List.mem_range'_1.mp hh
        refine ⟨Nat.le_trans hload.next_le hfrom, hnext ▸ hto, fun howned => ?_⟩
        exact Nat.not_lt.mpr hfrom (hload.alive halive h howned)
      cases Cache.ofEntities pool type copies with
      | error e => exact hkept _ rfl
      | ok c => exact hkept _ rfl

theorem separates_onCache (type : String) (f : Pool → Cache → Except StoreError α × Cache) :
    Separates news (onCache type f) := by
  intro w halive
  have hcheckout : KeepsApart news w (exec (checkout type) w).2 := separates_checkout type w halive
  rw [exec_onCache]
  rcases hrun : exec (checkout type) w with ⟨e | c, w'⟩
  · rw [hrun] at hcheckout
    exact hcheckout
  · rw [hrun] at hcheckout
    exact ⟨hcheckout.store, hcheckout.tracked⟩

theorem separates_readThrough (type : String) : Separates news (readThrough type) := by
  refine separates_get.bind fun w => ?_
  split
  · exact separates_onCache type _
  · exact separates_pure _

theorem separates_unusedId (type : String) (draws : Nat) : Separates news (unusedId type draws) := by
  induction draws with
  | zero => exact separates_throw _
  | succ draws ih =>
    refine (separates_ask fun s => Store.acquires_newId s type).bind fun id => ?_
    refine (separates_onCache type _).bind fun found => ?_
    cases found with
    | none => exact separates_pure id
    | some h => exact ih

theorem separates_identify (type : String) (h : Handle) : Separates news (identify type h) := by
  refine (separates_checkout type).bind fun c => ?_
  refine (Separates.tryCatch (separates_unusedId type _) fun e => ?_).bind fun id => ?_
  · exact (separates_onCache type _).bind fun _ => separates_throw e
  · refine Separates.bind (separates_of fun w => ⟨?_, fun k hk => .inl hk⟩) fun _ =>
      separates_onCache type _
    exact Store.acquires_of_caches rfl (Nat.le_refl _)

theorem separates_settle (type : String) (h : Handle) (revived : Bool) :
    Separates (some h) (settle type h revived) := by
  have htake : Separates (some h)
      (if revived then succeed h h else track fun pool l => l.registerNew pool h) := by
    split
    · exact separates_succeed h h
    · exact separates_registerNew h
  refine separates_get.bind fun w => ?_
  by_cases hid : (w.store.pool.id h).isNone = true
  · simp only [hid, if_true]
    exact (separates_identify type h).bind fun _ => htake
  · simp only [hid, Bool.false_eq_true, if_false]
    exact htake

/-! ## Calls -/

theorem separates_enter (h : Handle) : Separates (some h) (enter h) := by
  refine separates_get.bind fun w => separates_get.bind fun w' => ?_
  refine (separates_checkout _).bind fun c => ?_
  -- what is listed is not entered again
  split
  · exact separates_pure false
  · exact (separates_onCache _ _).bind fun _ => (separates_settle _ h _).bind fun _ =>
      separates_pure true

theorem separates_leave (h : Handle) : Separates news (leave h) := by
  refine separates_get.bind fun w => (separates_onCache _ _).bind fun gone => ?_
  refine separates_get.bind fun w' => ?_
  split
  · exact separates_mark gone .deleted
  · exact separates_pure ()

theorem separates_replace (h : Handle) : Separates (some h) (replace h) :=
  separates_get.bind fun _ => (separates_onCache _ _).bind fun previous =>
    separates_succeed previous h

theorem separates_commit : Separates news commit := by
  refine separates_of fun w => ?_
  have hcommit := Store.acquires_commit w.store (changeset w)
  rw [exec_commit]
  rcases hrun : exec (Store.commit (changeset w)) w.store with ⟨e | _, s⟩
  · rw [hrun] at hcommit
    exact ⟨hcommit, fun h hh => .inl hh⟩
  · rw [hrun] at hcommit
    exact ⟨hcommit, fun h hh => absurd hh List.not_mem_nil⟩

theorem separates_autocommit : Separates news autocommit := by
  refine separates_get.bind fun w => ?_
  split
  · exact separates_commit
  · exact separates_pure ()

/-- **Every call keeps apart** what the session tracks and what the repository owns. -/
theorem Call.separates (c : Call) : Separates c.newcomer? c.run := by
  cases c with
  | add h =>
    rw [run, add_eq]
    refine (separates_enter h).bind fun any => ?_
    split
    · exact separates_autocommit
    · exact separates_pure ()
  | remove h =>
    rw [run, remove_eq]
    exact (separates_leave h).bind fun _ => separates_autocommit
  | replace h => exact separates_replace h
  | enter h => exact (separates_enter h).bind fun _ => separates_pure ()
  | leave h => exact separates_leave h
  | getById type id =>
    exact ((separates_readThrough type).bind fun _ => separates_onCache type _).bind fun _ =>
      separates_pure ()
  | getBySlug type slug =>
    exact ((separates_readThrough type).bind fun _ => separates_onCache type _).bind fun _ =>
      separates_pure ()
  | all type =>
    exact ((separates_readThrough type).bind fun _ => (separates_checkout type).bind fun _ =>
      separates_pure _).bind fun _ => separates_pure ()
  | flush => exact separates_of_same fun _ => ⟨rfl, rfl⟩
  | commit => exact separates_commit
  | rollback =>
    exact separates_of fun w => ⟨.refl _, fun h hh => absurd hh List.not_mem_nil⟩

theorem Call.entity?_of_newcomer? {c : Call} {h : Handle} (hnew : c.newcomer? = some h) :
    c.entity? = some h := by
  cases c <;> first | exact hnew | cases hnew

/-- Going through the lock at most poisons the session. -/
theorem Separates.locked {m : SessionM α} (hm : Separates news m) : Separates news (locked m) := by
  intro w halive
  have hmade := hm w halive
  rw [exec_locked]
  split
  · exact .refl w
  · rw [exec_run]
    rcases hrun : exec m w with ⟨(e | v) | a, w'⟩
    · rw [hrun] at hmade
      exact hmade
    · rw [hrun] at hmade
      exact ⟨hmade.store, hmade.tracked⟩
    · rw [hrun] at hmade
      exact hmade

end Session

end EntityStore
