import EntityStore.Collection.InSession
import EntityStore.Proofs.Collection.Relationships
import EntityStore.Proofs.Session.Sustaining

/-!
# Adding to the children of a parent

An entity that is added to the children of a parent comes to be one of them and to refer back to the
parent. Whether the session shows it afterwards depends on what the session knew of it before: it is
added to the session only where that does not track it, and one that has been removed is tracked
still.
-/

namespace EntityStore

namespace Session

variable {w w' : Work} {type : String} {h : Handle}

/-! ## What is live in a session -/

theorem state?_eq_deleted_iff :
    state? h w = some .deleted ↔ ∃ e, w.session.ledger.find? h = some e ∧ e.state = .deleted := by
  rw [state?, Ledger.state?, Option.map_eq_some_iff]
  refine exists_congr fun e => and_congr_right fun _ => ?_
  unfold LedgerEntry.current
  split
  next hedited =>
    have hclean : e.state = .clean := of_decide_eq_true (Bool.and_eq_true_iff.mp hedited).1
    rw [hclean]
    decide
  next => rfl

/-- Whether an entity reads as deleted is a matter of its entry alone. -/
theorem state?_eq_deleted_congr (hsame : w'.session.ledger.find? h = w.session.ledger.find? h) :
    state? h w' = some .deleted ↔ state? h w = some .deleted := by
  rw [state?_eq_deleted_iff, state?_eq_deleted_iff, hsame]

/-- An entity is among all those of its type, and does not read as deleted. -/
def Live (w : Work) (type : String) (h : Handle) : Prop :=
  (∃ hs w', exec (all type) w = (.ok hs, w') ∧ h ∈ hs) ∧ state? h w ≠ some .deleted

/-- An entity that was there before is among all of its type exactly if it is listed: a type that has
yet to be checked out yields copies. -/
theorem live_iff (hh : h < w.store.pool.next) :
    Live w type h ↔ h ∈ w.session.listed type ∧ state? h w ≠ some .deleted := by
  refine and_congr_left fun _ => ?_
  rcases hrun : exec (checkout type) w with ⟨fault | c, w₁⟩
  · refine iff_of_false ?_ fun hlisted => ?_
    · rintro ⟨hs, w', hall, -⟩
      rw [exec_all_of_error hrun] at hall
      cases hall
    · cases hfind : w.session.caches.find? type with
      | some c =>
        rw [exec_checkout_of_some hfind] at hrun
        cases hrun
      | none =>
        rw [Session.listed, hfind] at hlisted
        exact List.not_mem_nil hlisted
  · obtain ⟨w₂, hall, -⟩ := exec_all_of_ok hrun (find?_of_exec_checkout hrun)
    have hanswer : (∃ hs w', exec (all type) w = (.ok hs, w') ∧ h ∈ hs) ↔ h ∈ c.entities := by
      constructor
      · rintro ⟨hs, w', hall', hmem⟩
        rw [hall] at hall'
        exact Except.ok.inj (Prod.mk.inj hall').1 ▸ hmem
      · exact fun hmem => ⟨c.entities, w₂, hall, hmem⟩
    rw [hanswer, Session.listed]
    rcases of_exec_checkout hrun with
      ⟨hfind, -⟩ | ⟨hnone, committed, s, copies, pool, ledger, hload, hregister, hof, -⟩
    · rw [hfind]
      rfl
    · rw [hnone]
      refine iff_of_false (fun hmem => ?_) List.not_mem_nil
      have hspec := Cache.ofEntities_spec pool type copies
      rw [hof] at hspec
      obtain ⟨-, -, hentities, -⟩ := hspec
      have hcopies := Ledger.copies_registerAllClean s.pool w.session.ledger committed
      rw [hregister] at hcopies
      have hnext := (Store.keepsFields_load w.store type).pool.next_le
      rw [hload] at hnext
      rw [hentities, show copies = _ from hcopies, List.mem_range'_1] at hmem
      exact absurd (Nat.lt_of_lt_of_le hh hnext) (Nat.not_lt_of_le hmem.1)

/-! ## Entering what is not tracked -/

/-- Once the ledger has taken up an entity as new it does not read as deleted. -/
theorem of_exec_registerNew (hrun : exec (track fun pool l => l.registerNew pool h) w = (.ok (), w')) :
    w'.store = w.store ∧ w'.session.caches = w.session.caches ∧ state? h w' ≠ some .deleted := by
  rw [exec_track, Ledger.registerNew, Ledger.register] at hrun
  cases htracked : w.session.ledger.contains h with
  | true =>
    rw [htracked] at hrun
    cases hrun
  | false =>
    rw [htracked] at hrun
    obtain ⟨-, rfl⟩ := Prod.mk.inj hrun
    refine ⟨rfl, rfl, fun hdeleted => ?_⟩
    obtain ⟨e, he, heq, hstate⟩ := exists_of_state?_eq_deleted hdeleted
    rcases List.mem_append.mp he with he | he
    · exact not_contains_iff.mp htracked e he heq
    · rw [List.mem_singleton.mp he] at hstate
      cases hstate

/-- Putting an entity into a cache, if it goes through. -/
theorem of_exec_insert {c : Cache} (hfind : w.session.caches.find? type = some c)
    (hrun : exec (onCache type fun pool c => c.add pool h) w = (.ok (), w')) :
    w'.store = w.store ∧ h ∈ w'.session.listed type := by
  have hput : ∀ c' : Cache, c'.type = c.type → h ∈ c'.entities →
      h ∈ Session.listed { w.session with caches := w.session.caches.put c' } type := by
    intro c' htype hmem
    rw [Session.listed, ← Caches.type_of_find? hfind, ← htype, Caches.find?_put_self]
    exact hmem
  rw [exec_onCache, exec_checkout_of_some hfind] at hrun
  simp only at hrun
  rcases Cache.add_cases w.store.pool h c with ⟨hmem, hadd⟩ | ⟨-, e, -, hadd⟩ | ⟨-, -, hadd⟩
  · rw [hadd] at hrun
    obtain ⟨-, rfl⟩ := Prod.mk.inj hrun
    refine ⟨rfl, hput _ (Cache.type_refresh _ c) ?_⟩
    rwa [Cache.entities_refresh]
  · rw [hadd] at hrun
    cases hrun
  · rw [hadd] at hrun
    obtain ⟨-, rfl⟩ := Prod.mk.inj hrun
    exact ⟨rfl, hput _ (Cache.type_refresh _ c) (List.mem_append_right _ (List.mem_singleton_self h))⟩

/-- Settling an entity that is listed, if it goes through. -/
theorem of_exec_settle (hrun : exec (settle type h false) w = (.ok (), w'))
    (hlisted : h ∈ w.session.listed type) :
    w.store.KeepsFields w'.store ∧ h ∈ w'.session.listed type ∧ state? h w' ≠ some .deleted := by
  unfold settle at hrun
  rw [exec_bind, exec_get] at hrun
  simp only [Bool.false_eq_true, if_false] at hrun
  split at hrun
  · rw [exec_bind] at hrun
    rcases hidentify : exec (identify type h) w with ⟨e | _, w₁⟩
    · rw [hidentify] at hrun
      cases hrun
    · rw [hidentify] at hrun
      have hsustains : Sustains type h w w₁ := sustaining_identify type h _ _ _ hidentify
      obtain ⟨hstore, hcaches, hstate⟩ := of_exec_registerNew hrun
      refine ⟨hstore ▸ hsustains.store, ?_, hstate⟩
      rw [Session.listed, hcaches]
      exact hsustains.listed hlisted
  · obtain ⟨hstore, hcaches, hstate⟩ := of_exec_registerNew hrun
    refine ⟨hstore ▸ .refl _, ?_, hstate⟩
    rw [Session.listed, hcaches]
    exact hlisted

/-- **Entering what is not tracked**, if it goes through: the entity is listed then, and does not read
as deleted. -/
theorem of_exec_enter {any : Bool} (huntracked : state? h w = none) (hh : h < w.store.pool.next)
    (hrun : exec (enter h) w = (.ok any, w')) :
    w.store.KeepsFields w'.store ∧ h ∈ w'.session.listed (w.store.pool.typeName h) ∧
      state? h w' ≠ some .deleted := by
  rw [exec_enter] at hrun
  simp only [exec_bind, huntracked] at hrun
  rcases hcheckout : exec (checkout (w.store.pool.typeName h)) w with ⟨e | c, w₁⟩
  · rw [hcheckout] at hrun
    cases hrun
  · have hsustains : Sustains (w.store.pool.typeName h) h w w₁ := sustaining_checkout _ _ _ _ hcheckout
    have hfind := find?_of_exec_checkout hcheckout
    rw [hcheckout] at hrun
    simp only at hrun
    split at hrun
    next hcontains =>
      obtain ⟨-, rfl⟩ := Prod.mk.inj hrun
      refine ⟨hsustains.store, ?_, ?_⟩
      · rw [Session.listed, hfind]
        exact List.contains_iff_mem.mp hcontains
      · rw [Ne, state?_eq_deleted_congr (hsustains.tracked hh), huntracked]
        decide
    next =>
      rw [exec_bind] at hrun
      rcases hinsert : exec (onCache (w.store.pool.typeName h) fun pool c => c.add pool h) w₁
        with ⟨e | _, w₂⟩
      · rw [hinsert] at hrun
        cases hrun
      · obtain ⟨hstore, hlisted⟩ := of_exec_insert hfind hinsert
        rw [hinsert] at hrun
        simp only [exec_bind] at hrun
        rcases hsettle : exec (settle (w.store.pool.typeName h) h false) w₂ with ⟨e | _, w₃⟩
        · rw [show (none == some LifeState.deleted) = false from rfl, hsettle] at hrun
          cases hrun
        · rw [show (none == some LifeState.deleted) = false from rfl, hsettle] at hrun
          obtain ⟨-, rfl⟩ := Prod.mk.inj hrun
          obtain ⟨hkeeps, hlisted, hstate⟩ := of_exec_settle hsettle hlisted
          exact ⟨hsustains.store.trans (hstore ▸ hkeeps), hlisted, hstate⟩

theorem not_mem_listed_iff :
    h ∉ w.session.listed type ↔ ∀ c ∈ w.session.caches.find? type, h ∉ c.entities := by
  rw [Session.listed]
  cases w.session.caches.find? type <;> simp

/-- What is tracked and has not been removed is astray where it is not listed. -/
theorem astray_iff_not_listed (htracked : state? h w ≠ none) (hkept : state? h w ≠ some .deleted) :
    w.session.Astray w.store.pool h ↔ h ∉ w.session.listed (w.store.pool.typeName h) := by
  rw [not_mem_listed_iff]
  refine and_iff_right_of_imp fun _ => ?_
  obtain ⟨state, hstate⟩ := Option.ne_none_iff_exists'.mp htracked
  obtain ⟨e, hfind, -⟩ := Option.map_eq_some_iff.mp hstate
  refine ⟨e, List.mem_of_find?_eq_some hfind, by simpa using List.find?_some hfind, fun hdeleted => ?_⟩
  exact hkept (state?_eq_deleted_iff.mpr ⟨e, hfind, hdeleted⟩)

theorem not_astray_of_untracked (huntracked : state? h w = none) :
    ¬ w.session.Astray w.store.pool h := by
  rintro ⟨⟨e, he, heq, -⟩, -⟩
  have hfind : w.session.ledger.find? h = none := Option.map_eq_none_iff.mp huntracked
  exact List.find?_eq_none.mp hfind e he (beq_iff_eq.mpr heq)

end Session

open Session

namespace SessionCollection

variable {c : SessionCollection} {r : Relationship} {back : String} {w w' : Work} {h : Handle}

/-- Adding an entity to the session unless that tracks it, if it goes through: the entity is live then,
unless it has been removed or is astray. -/
theorem of_exec_addUntracked (hexplicit : w.store.repository.settings.autocommit = false)
    (hh : h < w.store.pool.next) (hrun : exec (addUntracked h) w = (.ok (), w')) :
    w.store.KeepsFields w'.store ∧ (Live w' (w.store.pool.typeName h) h ↔
      state? h w ≠ some .deleted ∧ ¬ w.session.Astray w.store.pool h) := by
  unfold addUntracked at hrun
  rw [exec_bind, exec_get] at hrun
  simp only at hrun
  cases hstate : state? h w with
  | none =>
    rw [hstate, Option.isNone_none, if_pos rfl, add_eq, exec_bind] at hrun
    rcases henter : exec (enter h) w with ⟨e | any, w₁⟩
    · rw [henter] at hrun
      cases hrun
    · obtain ⟨hkeeps, hlisted, hkept⟩ := of_exec_enter hstate hh henter
      have hexplicit₁ : w₁.store.repository.settings.autocommit = false :=
        (congrArg Settings.autocommit hkeeps.settings).trans hexplicit
      have hsame : w' = w₁ := by
        rw [henter] at hrun
        simp only at hrun
        split at hrun
        · rw [exec_autocommit_of_explicit hexplicit₁] at hrun
          exact (Prod.mk.inj hrun).2.symm
        · exact (Prod.mk.inj hrun).2.symm
      subst hsame
      refine ⟨hkeeps, iff_of_true ?_ ⟨by decide, not_astray_of_untracked hstate⟩⟩
      exact (live_iff (Nat.lt_of_lt_of_le hh hkeeps.pool.next_le)).mpr ⟨hlisted, hkept⟩
  | some state =>
    rw [hstate, Option.isNone_some, if_neg Bool.false_ne_true] at hrun
    obtain ⟨-, rfl⟩ := Prod.mk.inj hrun
    refine ⟨.refl _, ?_⟩
    rw [live_iff hh, and_comm, ← hstate]
    refine and_congr_right fun hkept => ?_
    rw [astray_iff_not_listed (by rw [hstate]; exact Option.some_ne_none state) hkept, not_not]

/-- An addition to the children of a parent that goes through, of what is none of them yet. -/
theorem of_exec_add_of_scope (hscope : c.scope = some r) (hnew : h ∉ r.children w.store.pool)
    (hrun : exec (c.add h) w = (.ok (), w')) :
    ∃ w₁, exec (addUntracked h) w = (.ok (), w₁) ∧
      w' = { w₁ with store := { w₁.store with pool := r.attach h w₁.store.pool } } := by
  unfold add at hrun
  rw [hscope] at hrun
  simp only [exec_bind, exec_get, exec_ofExcept] at hrun
  cases hadmits : Relationship.admits w.store.pool h (r.children w.store.pool) with
  | error e =>
    rw [hadmits] at hrun
    cases hrun
  | ok admitted =>
    cases admitted with
    | false => exact absurd (Relationship.mem_of_admits hadmits) hnew
    | true =>
      rw [hadmits] at hrun
      simp only [Except.mapError, if_true, exec_bind] at hrun
      rcases hlocked : exec (locked (addUntracked h)) w with ⟨e | _, w₁⟩
      · rw [hlocked] at hrun
        cases hrun
      · rw [hlocked] at hrun
        exact ⟨w₁, (of_exec_locked hlocked).2, (Prod.mk.inj hrun).2.symm⟩

/-- **Adding to the children of a parent**, where nothing commits by itself: if the addition of what is
none of the children goes through, the entity is one of them once and refers back to the parent. It is
live in the session exactly if the session has not removed it before and it is not astray; and in the
states that come about where no slug depends on an id and nobody else edits the entities of the
repository, exactly if the session has not removed it. -/
theorem add_live_iff (hscope : c.scope = some r) (hr : r.TwoWay back)
    (hexplicit : w.store.repository.settings.autocommit = false)
    (htype : w.store.pool.typeName h = c.type) (hh : h < w.store.pool.next)
    (hparent : r.parent < w.store.pool.next) (hnew : h ∉ r.children w.store.pool)
    (hadd : exec (c.add h) w = (.ok (), w')) :
    (r.children w'.store.pool).count h = 1 ∧
      (w'.store.pool.entity h).stored? back = some (.one (some r.parent)) ∧
      (Live w' c.type h ↔ state? h w ≠ some .deleted ∧ ¬ w.session.Astray w.store.pool h) ∧
      (w.Reachable Eq Store.SlugFixed → (Live w' c.type h ↔ state? h w ≠ some .deleted)) := by
  obtain ⟨w₁, hrun, rfl⟩ := of_exec_add_of_scope hscope hnew hadd
  obtain ⟨hkeeps, hlive⟩ := of_exec_addUntracked hexplicit hh hrun
  have hchildren : r.children w₁.store.pool = r.children w.store.pool :=
    Relationship.children_congr (hkeeps.pool.stored? _ hparent _ hr.field_ne_id)
  have hh₁ := Nat.lt_of_lt_of_le hh hkeeps.pool.next_le
  -- pointing the two at each other touches neither the caches nor the ledger
  have hlive' : Live ⟨{ w₁.store with pool := r.attach h w₁.store.pool }, w₁.session⟩ c.type h ↔
      state? h w ≠ some .deleted ∧ ¬ w.session.Astray w.store.pool h := by
    have hattached :
        Live ⟨{ w₁.store with pool := r.attach h w₁.store.pool }, w₁.session⟩ c.type h ↔ _ :=
      live_iff (Nat.lt_of_lt_of_eq hh₁ (hr.next_attach h w₁.store.pool).symm)
    rw [← hlive, htype, live_iff hh₁, hattached]
    exact and_congr_right fun _ => not_congr (state?_eq_deleted_congr rfl)
  refine ⟨?_, hr.stored?_back_attach h _, hlive', fun hreachable => ?_⟩
  · rw [hr.toLawful.children_attach, hchildren, List.count_append, List.count_eq_zero_of_not_mem hnew,
      List.count_singleton_self]
  · refine hlive'.trans (and_iff_left fun hastray => ?_)
    exact (coherent_to_everybody hreachable).not_known_of_astray hastray trivial

open Samples

/-- A session that has been given Ann, beside a note that it does not know of. -/
def annAndNote : Work := after ⟨redAndBlue [personCalled 1 "ann", blank note], .fresh⟩ (.add 0)

/-- Ann's notes. -/
def notesOfAnn : SessionCollection where
  type := "note"
  schema := .ofList Samples.all
  scope := some ⟨0, "notes", some "author"⟩
  view := .all

theorem reachable_annAndNote : annAndNote.Reachable Eq Store.SlugFixed := by
  have hperson : person.SlugFixed := by
    rintro ⟨type, id, fields⟩ rfl id'
    rfl
  have hnote : note.SlugFixed := by
    rintro ⟨type, id, fields⟩ rfl id'
    rfl
  exact (Work.Reachable.fresh (Run.untouched_redAndBlue _) (Run.slugFixed_redAndBlue
    (List.forall_mem_cons.mpr ⟨hperson, List.forall_mem_singleton.mpr hnote⟩))).step
    (.call (.add 0) (by decide +kernel) (by decide +kernel))

/-- A new note is added to Ann's, and is live. -/
theorem add_live_iff_annAndNote :
    let w' := (exec (notesOfAnn.add 1) annAndNote).2
    (Relationship.children ⟨0, "notes", some "author"⟩ w'.store.pool).count 1 = 1 ∧
      (w'.store.pool.entity 1).stored? "author" = some (.one (some 0)) ∧ Live w' "note" 1 := by
  intro w'
  have hadd : exec (notesOfAnn.add 1) annAndNote = (.ok (), w') := Prod.ext (by decide +kernel) rfl
  have hr : Relationship.TwoWay ⟨0, "notes", some "author"⟩ "author" :=
    ⟨rfl, by decide, by decide, by decide⟩
  obtain ⟨hcount, hback, -, hlive⟩ := add_live_iff rfl hr (by decide +kernel) (by decide +kernel)
    (by decide +kernel) (by decide +kernel) (by decide +kernel) hadd
  exact ⟨hcount, hback, (hlive reachable_annAndNote).mpr (by decide +kernel)⟩

/-- The note has been added to the session and removed from it. -/
def noteRemoved : Work := after (after annAndNote (.add 1)) (.remove 1)

/-- **What has been removed does not come back with its parent.** Adding a note to Ann's that was removed
before goes through; it is one of them then and refers back, but the session does not list it, and it
reads as deleted. Adding it to the session alone brings it back. -/
theorem not_live_of_removed :
    noteRemoved.Reachable Eq Store.SlugFixed ∧
      1 ∉ Relationship.children ⟨0, "notes", some "author"⟩ noteRemoved.store.pool ∧
      (exec (notesOfAnn.add 1) noteRemoved).1 = .ok () ∧
      (let w' := (exec (notesOfAnn.add 1) noteRemoved).2
       Relationship.children ⟨0, "notes", some "author"⟩ w'.store.pool = [1] ∧
         state? 1 w' = some .deleted ∧ (exec (locked (all "note")) w').1 = .ok []) ∧
      (let w' := (exec (locked (Session.add 1)) noteRemoved).2
       state? 1 w' = some .new ∧ (exec (locked (all "note")) w').1 = .ok [1]) :=
  ⟨(reachable_annAndNote.step (.call (.add 1) (by decide +kernel) (by decide +kernel))).step
      (.call (.remove 1) (by decide +kernel) (by decide +kernel)),
    by decide +kernel, by decide +kernel, by decide +kernel, by decide +kernel⟩

end SessionCollection

end EntityStore
