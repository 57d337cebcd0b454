import EntityStore.Proofs.Session.Rows
import EntityStore.Proofs.Session.Runs

/-!
# The effect of a call

What a session shows after a call depends on what it showed before, on the store and on whether the
call went through; where that is so, it is read here as a function, and every call is proved to have
that effect unless it violates the contract of the ledger. What the repository hands out changes only
when a commit goes through. Under its lock a session that has not been poisoned does the same, and
when it is asked for all entities of a type it answers with what it shows.
-/

namespace EntityStore

namespace Session

variable {known : Handle → Prop} {w : Work} {type : String}

/-! ## The effect of a call -/

/-- What a session shows after a call: a matter of what it showed before, of the store, of whether
the call went through, and of the ids that entities have then. -/
def Call.effect (c : Call) (s : Store) (done : Bool) (given : Handle → Option EntityId) (v : Showing) :
    Showing :=
  match c with
  | .add h | .enter h => v.change s (s.pool.typeName h)
      (if done then Rows.add h ((s.pool.entity h).setId (given h)) else id)
  | .remove h | .leave h => v.change s (s.pool.typeName h)
      (if done then Rows.remove h (s.pool.id h) else id)
  | .replace h => v.change s (s.pool.typeName h)
      (if done then Rows.replace h (s.pool.entity h) else id)
  | .getById type _ | .getBySlug type _ | .all type => v.change s type id
  | .flush => v
  | .commit | .rollback => if done then fun _ => none else v

/-- A call is a commit that goes through. -/
def Call.Commits (w : Work) (c : Call) : Prop := c = .commit ∧ (exec c.run w).1 = .ok ()

/-- What comes of a call where the store commits when it is told to. -/
structure Call.Turns (c : Call) (w : Work) : Prop where
  manual : (exec c.run w).2.store.Manual
  pool : w.store.pool.Grows (exec c.run w).2.store.pool
  upholds : ¬ c.Commits w → w.store.Upholds (exec c.run w).2.store
  shown : Faults c.run w ∨ shown (exec c.run w).2 =
    c.effect w.store (exec c.run w).1.isOk (exec c.run w).2.store.pool.id (shown w)

theorem exec_autocommit_of_explicit (hexplicit : w.store.repository.settings.autocommit = false) :
    exec autocommit w = (.ok (), w) := by
  unfold autocommit
  rw [exec_bind, exec_get]
  simp only [hexplicit, Bool.false_eq_true, if_false]
  rfl

/-- A call that changes the rows of one type. -/
theorem Changes.turns {c : Call} {f : Pool → Rows → Rows} (hc : Changes w type f w c.run)
    (heffect : c.effect w.store (exec c.run w).1.isOk (exec c.run w).2.store.pool.id
        (Session.shown w) = Showing.change (Session.shown w) w.store type
        (if (exec c.run w).1.isOk then f (exec c.run w).2.store.pool else id)) : c.Turns w where
  manual := hc.upholds.manual
  pool := hc.upholds.pool
  upholds := fun _ => hc.upholds
  shown := by
    rw [heffect]
    exact hc.shown

theorem Coherent.shown_flush (hw : Coherent known w) {s : Store}
    (hpool : w.store.pool.Grows s.pool) :
    Session.shown ⟨s, { w.session with caches := w.session.caches.rebuild w.store.pool }⟩
      = Session.shown w := by
  funext t
  rw [Session.shown, Session.shown, Caches.find?_rebuild]
  cases hfind : w.session.caches.find? t with
  | none => rfl
  | some c =>
    show some (s.pool.rows c.entities) = some (w.store.pool.rows c.entities)
    rw [Pool.rows_congr (hw.kept hpool hfind)]

theorem turns_commit (hw : Coherent known w) (hs : w.store.Manual) : Call.commit.Turns w := by
  have hlive : ∀ c ∈ changeset w, c.entity < w.store.pool.next := by
    intro c hc
    obtain ⟨e, he, heq⟩ := entity_of_mem_changeset hc
    rw [heq]
    exact (hw.ledger.live e he).1
  have hcommit := hs.commit hlive
  have hrun : exec Call.commit.run w = _ := exec_commit w
  rcases hstore : exec (Store.commit (changeset w)) w.store with ⟨e | _, s⟩
  · have hrefused := hs.upholds_refused hlive hstore
    rw [hstore] at hrun
    refine ⟨?_, ?_, fun _ => ?_, .inr ?_⟩ <;> rw [hrun]
    · exact hrefused.manual
    · exact hrefused.pool
    · exact hrefused
    · exact hw.shown_flush hrefused.pool
  · rw [hstore] at hrun hcommit
    refine ⟨?_, ?_, fun hnot => absurd ⟨rfl, congrArg Prod.fst hrun⟩ hnot, .inr ?_⟩ <;> rw [hrun]
    · exact hcommit.1
    · exact hcommit.2
    · rfl

/-- **What a session shows after a call**, unless the call violates the contract of the ledger. -/
theorem Call.turns (c : Call) (hw : Coherent known w) (hs : w.store.Manual)
    (hlive : ∀ h ∈ c.entity?, h < w.store.pool.next) : c.Turns w := by
  cases c with
  | add h =>
    refine Changes.turns (f := fun q => Rows.add h ((w.store.pool.entity h).setId (q.id h))) ?_ rfl
    rw [run, add_eq]
    refine (enter_changes hw hs (hlive h rfl)).followed fun any v hv => ?_
    cases any with
    | true => exact ⟨(), exec_autocommit_of_explicit hv.explicit⟩
    | false => exact ⟨(), rfl⟩
  | remove h =>
    refine Changes.turns (f := fun _ => Rows.remove h (w.store.pool.id h)) ?_ rfl
    rw [run, remove_eq]
    exact (leave_changes hw hs (hlive h rfl)).followed fun _ v hv =>
      ⟨(), exec_autocommit_of_explicit hv.explicit⟩
  | replace h => exact (replace_changes hw hs (hlive h rfl)).turns rfl
  | enter h => exact ((enter_changes hw hs (hlive h rfl)).answer _).turns rfl
  | leave h => exact (leave_changes hw hs (hlive h rfl)).turns rfl
  | getById type id' =>
    exact ((getById_changes hw hs type id').answer _).turns (by rw [ite_self]; rfl)
  | getBySlug type slug =>
    exact ((getBySlug_changes hw hs type slug).answer _).turns (by rw [ite_self]; rfl)
  | all type => exact ((all_changes hw hs type).answer _).turns (by rw [ite_self]; rfl)
  | flush => exact ⟨hs, .refl _, fun _ => .refl hs, .inr (hw.shown_flush (.refl _))⟩
  | commit => exact turns_commit hw hs
  | rollback => exact ⟨hs, .refl _, fun _ => .refl hs, .inr rfl⟩

/-- Asking for all entities of a type is checking it out, whether an index is brought up to date
before or not. -/
theorem exec_all_of_error {fault : SessionFault} {w' : Work}
    (hrun : exec (checkout type) w = (.error fault, w')) :
    exec (all type) w = (.error fault, w') := by
  unfold all readThrough
  by_cases hauto : w.store.repository.settings.autoflush = true
  · simp only [exec_bind, exec_get, hauto, if_true, exec_onCache, hrun]
  · simp only [exec_bind, exec_get, hauto, Bool.false_eq_true, if_false, exec_pure, hrun]

theorem exec_all_of_ok {c : Cache} {w' : Work} (hrun : exec (checkout type) w = (.ok c, w'))
    (hfind : w'.session.caches.find? type = some c) :
    ∃ w'', exec (all type) w = (.ok c.entities, w'') ∧ w''.store = w'.store := by
  unfold all readThrough
  by_cases hauto : w.store.repository.settings.autoflush = true
  · have hfind' : (w'.session.caches.put (c.rebuild w'.store.pool)).find? type
        = some (c.rebuild w'.store.pool) := by
      rw [← Caches.type_of_find? hfind]
      exact Caches.find?_put_self _ (c.rebuild w'.store.pool)
    refine ⟨{ w' with session := { w'.session with
      caches := w'.session.caches.put (c.rebuild w'.store.pool) } }, ?_, rfl⟩
    simp only [exec_bind, exec_get, hauto, if_true, exec_onCache, hrun, Except.mapError]
    rw [exec_checkout_of_some hfind']
    rfl
  · refine ⟨w', ?_, rfl⟩
    simp only [exec_bind, exec_get, hauto, Bool.false_eq_true, if_false, exec_pure, hrun]

/-! ## Under the lock -/

section Lock

variable {α : Type} {m : SessionM α}

theorem exec_locked_of_poisoned (hpoisoned : w.session.poisoned = true) :
    exec (locked m) w = (.error (.store (.lockPoisoned .session)), w) := by
  rw [exec_locked, if_pos hpoisoned]

theorem exec_locked_of_lawful (hfree : w.session.poisoned = false) (hlawful : ¬ Faults m w) :
    exec (locked m) w = exec m w := by
  rw [exec_locked, hfree, if_neg Bool.false_ne_true, exec_run]
  rcases hrun : exec m w with ⟨(e | v) | a, w'⟩
  · rfl
  · exact absurd ⟨v, congrArg Prod.fst hrun⟩ hlawful
  · rfl

theorem exec_locked_of_ok {a : α} (hfree : w.session.poisoned = false)
    (hok : (exec m w).1 = .ok a) : exec (locked m) w = exec m w := by
  refine exec_locked_of_lawful hfree ?_
  rintro ⟨v, hv⟩
  rw [hok] at hv
  cases hv

/-- A violation poisons the session, and is not undone. -/
theorem exec_locked_of_faults (hfree : w.session.poisoned = false) (hfault : Faults m w) :
    (exec (locked m) w).2 =
      { (exec m w).2 with session := { (exec m w).2.session with poisoned := true } } := by
  obtain ⟨v, hv⟩ := hfault
  rw [exec_locked, hfree, if_neg Bool.false_ne_true, exec_run]
  rcases hrun : exec m w with ⟨outcome, w'⟩
  rw [hrun] at hv
  obtain rfl : outcome = .error (.violation v) := hv
  rfl

theorem store_exec_locked (hfree : w.session.poisoned = false) :
    (exec (locked m) w).2.store = (exec m w).2.store := by
  by_cases hfault : Faults m w
  · rw [exec_locked_of_faults hfree hfault]
  · rw [exec_locked_of_lawful hfree hfault]

theorem lawful_of_unpoisoned (hfree : w.session.poisoned = false)
    (hafter : (exec (locked m) w).2.session.poisoned = false) : ¬ Faults m w := by
  intro hfault
  rw [exec_locked_of_faults hfree hfault] at hafter
  cases hafter

/-- What goes through under the lock goes through without it. -/
theorem of_exec_locked {a : α} {w' : Work} (hrun : exec (locked m) w = (.ok a, w')) :
    w.session.poisoned = false ∧ exec m w = (.ok a, w') := by
  cases hpoisoned : w.session.poisoned with
  | true =>
    rw [exec_locked_of_poisoned hpoisoned] at hrun
    cases hrun
  | false =>
    rw [exec_locked, hpoisoned, if_neg Bool.false_ne_true, exec_run] at hrun
    rcases hm : exec m w with ⟨(e | v) | b, w''⟩
    · rw [hm] at hrun
      cases hrun
    · rw [hm] at hrun
      cases hrun
    · rw [hm] at hrun
      exact ⟨rfl, hrun⟩

end Lock

/-- What a session answers when it is asked for all entities of a type. -/
def answered (w : Work) (type : String) : Option Rows :=
  match exec (locked (all type)) w with
  | (.ok hs, w') => some (w'.store.pool.rows hs)
  | (.error _, _) => none

/-- **A session answers with what it shows**, or with what it is handed if it has not accessed the
type. -/
theorem answered_eq (hw : Coherent known w) (hs : w.store.Manual)
    (hfree : w.session.poisoned = false) (type : String) :
    answered w type = (Session.shown w type).or (w.store.handsOut type) := by
  rcases checkout_cases hw hs type with
    ⟨e, w', hrun, -, -, hnone, hhands⟩ | ⟨c, w', hrun, -, -, hfind, hshown⟩
  · have hall := exec_all_of_error hrun
    have hlawful : ¬ Faults (all type) w := by
      rintro ⟨v, hv⟩
      rw [hall] at hv
      cases hv
    rw [answered, exec_locked_of_lawful hfree hlawful, hall, hnone, hhands]
    rfl
  · obtain ⟨w'', hall, hstore⟩ := exec_all_of_ok hrun hfind
    have hsight : (Session.shown w type).or (w.store.handsOut type)
        = some (w'.store.pool.rows c.entities) := by
      rw [← shown_of_find? hfind, hshown, Showing.change, Function.update_self, Option.map_id_fun, id]
    rw [hsight, answered, exec_locked_of_ok hfree (congrArg Prod.fst hall), hall]
    exact congrArg (fun s : Store => some (s.pool.rows c.entities)) hstore

end Session

/-- What a session is handed is what is committed, whatever the handles. -/
theorem Store.entities_handsOut_congr {s s' : Store} {type : String}
    (hroster : s'.roster? type = s.roster? type) :
    (s'.handsOut type).map (List.map Prod.snd) = (s.handsOut type).map (List.map Prod.snd) := by
  have hentities : ∀ s : Store, (s.handsOut type).map (List.map Prod.snd)
      = (s.roster? type).filter fun r => r.UniqueKeys := by
    intro s
    rw [handsOut]
    cases s.roster? type with
    | none => rfl
    | some r =>
      rw [Option.bind_some, Option.filter_some]
      by_cases hkeys : r.UniqueKeys
      · have hswap : Prod.snd ∘ Prod.swap = (Prod.fst : Entity × Nat → Entity) := rfl
        rw [if_pos hkeys, if_pos (decide_eq_true hkeys), Option.map_some, List.map_map, hswap,
          List.zipIdx_map_fst]
      · rw [if_neg hkeys, if_neg (mt of_decide_eq_true hkeys)]
        rfl
  rw [hentities, hentities, hroster]

end EntityStore
