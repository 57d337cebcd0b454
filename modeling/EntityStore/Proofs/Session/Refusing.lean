import EntityStore.Proofs.Session.Attaching
import EntityStore.Proofs.Session.Quiet

/-!
# Refused changes to the children of a parent

A change to the children of a parent is made in two places, at the parent and in the session, and
the session may refuse its part. An addition asks the session first; when it is refused nothing has
happened. A removal and an update change the parent first, and what they changed there they leave.
**A refused change leaves everything as it was exactly if there was nothing to change at the
parent**: an addition always does, a removal and an update where the parent has no such child, and
an update where the child stays in its own place and refers back already.
-/

namespace EntityStore

/-- A change has something to change at the parent before the session is asked: a removal where the
parent has such a child, and an update too, unless the child stays in its own place and refers back
already. -/
def Relationship.Disturbs (r : Relationship) (p : Pool) (h : Handle) : ChangeKind → Prop
  | .add => False
  | .remove => ∃ gone, p.counterpart? h (r.children p) = some gone
  | .update => ∃ old, p.counterpart? h (r.children p) = some old ∧ ¬ (old = h ∧ r.RefersBack p h)

namespace Session

variable {w w' : Work} {p : Pool} {σ : Session} {type : String} {hs : List Handle} {c : Cache}
  {h : Handle} {e : StoreError}

/-- What is refused under the lock is refused for want of it, or without it too. -/
theorem of_exec_locked_refused {α : Type} {m : SessionM α}
    (hrun : exec (locked m) w = (.error (.store e), w')) :
    w.session.poisoned = true ∧ w' = w ∨ exec m w = (.error (.store e), w') := by
  cases hpoisoned : w.session.poisoned with
  | true =>
    rw [exec_locked_of_poisoned hpoisoned] at hrun
    exact .inl ⟨rfl, (Prod.mk.inj hrun).2.symm⟩
  | false =>
    rw [exec_locked, hpoisoned, if_neg Bool.false_ne_true, exec_run] at hrun
    rcases hm : exec m w with ⟨(e' | v) | a, w₁⟩
    · rw [hm] at hrun
      exact .inr hrun
    · rw [hm] at hrun
      cases hrun
    · rw [hm] at hrun
      cases hrun

end Session

open Session

namespace SessionCollection

variable {c : SessionCollection} {r : Relationship} {w w' : Work} {d : Cache} {h : Handle}
  {e : StoreError}

/-! ## What is to be spared -/

/-- The changes of one type that a commit would hand over. -/
def changesOf (type : String) (w : Work) : Changeset :=
  (changeset w).filter fun ch => w.store.pool.typeName ch.entity == type

/-- Both ends of a relationship are as they were, and so is the session: what it shows, in what
states, and what it has to hand over of a type. -/
structure Spares (r : Relationship) (type : String) (h : Handle) (w w' : Work) : Prop where
  children : r.children w'.store.pool = r.children w.store.pool
  back : ∀ back ∈ r.back, ∀ k ∈ h :: r.children w.store.pool,
    (w'.store.pool.entity k).stored? back = (w.store.pool.entity k).stored? back
  shown : ∀ t, shown w' t = shown w t
  states : ∀ k, state? k w' = state? k w
  changes : changesOf type w' = changesOf type w

/-- A quiet change spares every relationship of what lives. -/
theorem spares_of_quiet (hquiet : Quiet w w') (hliving : w.session.Living w.store.pool)
    (hclosed : w.store.pool.Closed) (hparent : r.parent < w.store.pool.next)
    (hh : h < w.store.pool.next) (type : String) : Spares r type h w w' where
  children := Relationship.children_congr (by rw [hquiet.pool.kept _ hparent])
  back := by
    intro back _ k hk
    have hlive : k < w.store.pool.next := by
      rcases List.mem_cons.mp hk with rfl | hchild
      · exact hh
      · exact Relationship.lt_of_mem_children hclosed hparent hchild
    rw [hquiet.pool.kept k hlive]
  shown := hquiet.shown hliving
  states := hquiet.state? hliving hclosed
  changes := by
    rw [changesOf, changesOf, hquiet.changeset hliving hclosed]
    refine List.filter_congr fun ch hch => ?_
    rw [hquiet.pool.typeName (hliving.changeset ch hch)]

/-! ## The three changes, refused -/

theorem exec_editChildren (type : String) (h : Handle) (f : Pool → Option Pool) (w : Work) :
    exec (editChildren type h f) w =
      match f w.store.pool with
      | some pool => (.ok (), { w with store := { w.store with pool } })
      | none => (.error (.store (.notFound type (w.store.pool.id h))), w) := by
  unfold editChildren editPool
  rw [exec_bind, exec_get]
  simp only
  cases f w.store.pool <;> rfl

/-- Adding an entity to the session, unless that tracks it. -/
theorem quiet_of_addUntracked_refused (hexplicit : w.store.repository.settings.autocommit = false)
    (hfind : w.session.caches.find? (w.store.pool.typeName h) = some d)
    (hrun : exec (addUntracked h) w = (.error (.store e), w')) : Quiet w w' := by
  unfold addUntracked at hrun
  rw [exec_bind, exec_get] at hrun
  simp only at hrun
  split at hrun
  next => exact Session.quiet_of_add_refused hexplicit hfind hrun
  next => cases hrun

/-- Removing an entity from the session is not refused if it need not be there. -/
theorem not_refused_removePresent (hexplicit : w.store.repository.settings.autocommit = false)
    (hfind : w.session.caches.find? (w.store.pool.typeName h) = some d) :
    (exec (removePresent h) w).1 ≠ .error (.store e) := by
  unfold removePresent
  rw [exec_tryCatch]
  rcases hremove : exec (Session.remove h) w with ⟨(e' | v) | _, w₁⟩
  · rw [(Session.of_remove_refused hexplicit hfind hremove).1]
    exact fun heq => nomatch heq
  · exact fun heq => nomatch heq
  · exact fun heq => nomatch heq

section

variable (hscope : c.scope = some r) (hfind : w.session.caches.find? c.type = some d)
  (htype : w.store.pool.typeName h = c.type)

include hscope hfind htype

/-- An addition is refused before the parent is touched. -/
theorem quiet_of_add_refused (hexplicit : w.store.repository.settings.autocommit = false)
    (hrun : exec (c.add h) w = (.error (.store e), w')) : Quiet w w' := by
  unfold add at hrun
  rw [hscope] at hrun
  simp only [exec_bind, exec_get, exec_ofExcept] at hrun
  cases hadmits : Relationship.admits w.store.pool h (r.children w.store.pool) with
  | error e' =>
    rw [hadmits] at hrun
    obtain ⟨-, rfl⟩ := Prod.mk.inj hrun
    exact .refl w
  | ok admitted =>
    cases admitted with
    | false =>
      rw [hadmits] at hrun
      cases hrun
    | true =>
      rw [hadmits] at hrun
      simp only [Except.mapError, if_true] at hrun
      rcases of_exec_bind_error hrun with hlocked | ⟨_, _, -, hattached⟩
      · rcases of_exec_locked_refused hlocked with ⟨-, rfl⟩ | hadd
        · exact .refl _
        · exact quiet_of_addUntracked_refused hexplicit (htype ▸ hfind) hadd
      · cases hattached

/-- A removal finds no such child, or takes it from the parent and does not get the lock. -/
theorem of_remove_refused (hexplicit : w.store.repository.settings.autocommit = false)
    (hrun : exec (c.remove h) w = (.error (.store e), w')) :
    r.detach? h w.store.pool = none ∧ w' = w ∨
      w.session.poisoned = true ∧ r.detach? h w.store.pool = some w'.store.pool := by
  unfold remove at hrun
  rw [hscope] at hrun
  simp only [exec_bind, exec_editChildren] at hrun
  cases hdetach : r.detach? h w.store.pool with
  | none =>
    rw [hdetach] at hrun
    exact .inl ⟨rfl, (Prod.mk.inj hrun).2.symm⟩
  | some pool =>
    rw [hdetach] at hrun
    rcases of_exec_locked_refused hrun with ⟨hpoisoned, rfl⟩ | hremove
    · exact .inr ⟨hpoisoned, rfl⟩
    · refine absurd (congrArg Prod.fst hremove) (not_refused_removePresent (d := d) hexplicit ?_)
      rw [Relationship.typeName_detach? hdetach, htype]
      exact hfind

/-- An update finds no such child, or is refused by the session when the parent has been changed. -/
theorem of_update_refused (hrun : exec (c.update h) w = (.error (.store e), w')) :
    r.replace? h w.store.pool = none ∧ w' = w ∨
      ∃ pool, r.replace? h w.store.pool = some pool ∧ w'.store.pool = pool ∧
        Quiet { w with store := { w.store with pool } } w' := by
  unfold update at hrun
  rw [hscope] at hrun
  simp only [exec_bind, exec_editChildren] at hrun
  cases hreplace : r.replace? h w.store.pool with
  | none =>
    rw [hreplace] at hrun
    exact .inl ⟨rfl, (Prod.mk.inj hrun).2.symm⟩
  | some pool =>
    rw [hreplace] at hrun
    refine .inr ⟨pool, rfl, ?_⟩
    rcases of_exec_locked_refused hrun with ⟨-, rfl⟩ | hrefused
    · exact ⟨rfl, .refl _⟩
    · obtain ⟨hquiet, hstore⟩ := quiet_of_replace_refused (c := d)
        (by rw [Relationship.typeName_replace? hreplace, htype]; exact hfind) hrefused
      exact ⟨congrArg Store.pool hstore, hquiet⟩

/-- A refused removal spares everything exactly if the parent has no such child. -/
theorem spares_of_remove_refused (hr : r.Lawful)
    (hexplicit : w.store.repository.settings.autocommit = false)
    (hspared : w' = w → Spares r c.type h w w')
    (hrun : exec (c.remove h) w = (.error (.store e), w')) :
    Spares r c.type h w w' ↔ ¬ r.Disturbs w.store.pool h .remove := by
  rcases of_remove_refused hscope hfind htype hexplicit hrun with ⟨hnone, hsame⟩ | ⟨-, hdetach⟩
  · refine iff_of_true (hspared hsame) ?_
    rintro ⟨gone, hgone⟩
    rw [Option.map_eq_none_iff.mp hnone] at hgone
    cases hgone
  · obtain ⟨gone, hgone, hchildren⟩ := hr.children_detach? hdetach
    refine iff_of_false (fun hspares => ?_) (not_not.mpr ⟨gone, hgone⟩)
    have hshorter := congrArg List.length (hchildren.symm.trans hspares.children)
    have hmem := Pool.mem_of_counterpart? hgone
    rw [List.length_erase_of_mem hmem] at hshorter
    have := List.length_pos_of_mem hmem
    omega

/-- A refused update spares everything exactly if there was no such child, or it stayed in its place
and referred back already. -/
theorem spares_of_update_refused (hr : r.Lawful) (hspared : Quiet w w' → Spares r c.type h w w')
    (hrun : exec (c.update h) w = (.error (.store e), w')) :
    Spares r c.type h w w' ↔ ¬ r.Disturbs w.store.pool h .update := by
  rcases of_update_refused hscope hfind htype hrun with
    ⟨hnone, rfl⟩ | ⟨pool, hreplace, hpool, hquiet⟩
  · refine iff_of_true (hspared (.refl _)) ?_
    rintro ⟨old, hold, -⟩
    rw [Option.map_eq_none_iff.mp hnone] at hold
    cases hold
  · obtain ⟨old, hold, hchildren, hback⟩ := hr.children_replace? hreplace
    by_cases hsame : old = h ∧ r.RefersBack w.store.pool h
    · refine iff_of_true (hspared ?_) ?_
      · rw [hr.replace?_self (hsame.1 ▸ hold) hsame.2] at hreplace
        rw [← Option.some.inj hreplace] at hquiet
        exact hquiet
      · rintro ⟨old', hold', hnot⟩
        rw [hold] at hold'
        exact hnot (Option.some.inj hold' ▸ hsame)
    · refine iff_of_false (fun hspares => hsame ⟨?_, ?_⟩) (not_not.mpr ⟨old, hold, hsame⟩)
      · -- another child would have made way for the entity, which was none of them
        have hkept := hspares.children
        rw [hpool, hchildren] at hkept
        have hmem : h ∈ r.children w.store.pool :=
          hkept ▸ mem_replace_self (Pool.mem_of_counterpart? hold) h
        exact Option.some.inj (hold.symm.trans (Pool.counterpart?_of_mem hmem))
      · intro back hsome
        rw [← hspares.back back hsome h List.mem_cons_self, hpool]
        exact hback back hsome

end

/-- **A refused change to the children of a parent**, where the type of these is checked out and
nothing commits by itself, leaves everything as it was exactly if there was nothing to change at the
parent before the session was asked. So an addition always does. Nothing listed, tracked or referred
to is taken to dangle. -/
theorem change_refused_iff {kind : ChangeKind} (hscope : c.scope = some r) (hr : r.Lawful)
    (hexplicit : w.store.repository.settings.autocommit = false)
    (hcheckedOut : w.session.caches.find? c.type ≠ none) (hliving : w.session.Living w.store.pool)
    (hclosed : w.store.pool.Closed) (hparent : r.parent < w.store.pool.next)
    (hh : h < w.store.pool.next) (htype : w.store.pool.typeName h = c.type)
    (hrun : exec (c.toCollection.change kind h) w = (.error (.store e), w')) :
    Spares r c.type h w w' ↔ ¬ r.Disturbs w.store.pool h kind := by
  obtain ⟨d, hfind⟩ := Option.ne_none_iff_exists'.mp hcheckedOut
  have hspared : Quiet w w' → Spares r c.type h w w' :=
    fun hquiet => spares_of_quiet hquiet hliving hclosed hparent hh c.type
  cases kind with
  | add =>
    exact iff_of_true (hspared (quiet_of_add_refused hscope hfind htype hexplicit hrun)) id
  | remove =>
    exact spares_of_remove_refused hscope hfind htype hr hexplicit
      (fun hsame => hspared (hsame ▸ .refl _)) hrun
  | update => exact spares_of_update_refused hscope hfind htype hr hspared hrun

open Samples

/-- An event of a title. -/
def eventTitled (id : EntityId) (title : String) : Entity :=
  (blank event).setId (some id) |>.set "title" (.value (.string title))

/-- The parts of the first event. -/
def partsOfParty : SessionCollection where
  type := "event"
  schema := .ofList Samples.all
  scope := some ⟨0, "parts", some "whole"⟩
  view := .all

/-- A party that has a dance for its part, a dinner beside it, and two more events that the session
does not know: one stands for the dance, and both are dinners. -/
def partyPlanned : Work :=
  (exec (do
    locked (Session.add 0)
    locked (Session.add 2)
    partsOfParty.add 1)
    ⟨redAndBlue [eventTitled 1 "party", eventTitled 2 "dance", eventTitled 3 "dinner",
      eventTitled 2 "dinner", eventTitled 4 "dinner"], .fresh⟩).2

theorem lawful_partsOfParty : Relationship.Lawful ⟨0, "parts", some "whole"⟩ :=
  ⟨by decide, by decide, by decide⟩

theorem living_partyPlanned : partyPlanned.session.Living partyPlanned.store.pool :=
  ⟨by decide +kernel, by decide +kernel⟩

theorem closed_partyPlanned : partyPlanned.store.pool.Closed := by
  have hall : ∀ h < partyPlanned.store.pool.next,
      (partyPlanned.store.pool.entity h).RefersBelow partyPlanned.store.pool.next := by
    decide +kernel
  exact hall

/-- A second dinner is not made a part of the party, which is left as it was. -/
theorem change_refused_iff_second_dinner :
    let w' := (exec (partsOfParty.add 4) partyPlanned).2
    (exec (partsOfParty.add 4) partyPlanned).1
        = .error (.store (.duplicateSlug "event" "ev-dinner")) ∧
      Spares ⟨0, "parts", some "whole"⟩ "event" 4 partyPlanned w' := by
  intro w'
  have hrefused : (exec (partsOfParty.add 4) partyPlanned).1
      = .error (.store (.duplicateSlug "event" "ev-dinner")) := by decide +kernel
  have hrun : exec (partsOfParty.toCollection.change .add 4) partyPlanned
      = (.error (.store (.duplicateSlug "event" "ev-dinner")), w') := Prod.ext hrefused rfl
  have hspares := change_refused_iff rfl lawful_partsOfParty (by decide +kernel)
    (by decide +kernel) living_partyPlanned closed_partyPlanned (by decide +kernel)
    (by decide +kernel) (by decide +kernel) hrun
  exact ⟨hrefused, hspares.mpr id⟩

/-- **An update that is refused for a slug stays at the parent.** The dance is to be replaced by a
dinner of its id; the session has a dinner already and goes on showing the dance, but the party now
has the dinner for its part. -/
theorem not_spares_of_taken_slug :
    partyPlanned.store.repository.settings.autocommit = false ∧
      partyPlanned.session.caches.find? "event" ≠ none ∧
      partyPlanned.session.Living partyPlanned.store.pool ∧ partyPlanned.store.pool.Closed ∧
      (exec (partsOfParty.update 3) partyPlanned).1
        = .error (.store (.duplicateSlug "event" "ev-dinner")) ∧
      (let w' := (exec (partsOfParty.update 3) partyPlanned).2
       ¬ Spares ⟨0, "parts", some "whole"⟩ "event" 3 partyPlanned w' ∧
         Relationship.children ⟨0, "parts", some "whole"⟩ partyPlanned.store.pool = [1] ∧
         Relationship.children ⟨0, "parts", some "whole"⟩ w'.store.pool = [3] ∧
         (partyPlanned.store.pool.entity 3).stored? "whole" = some (.one none) ∧
         (w'.store.pool.entity 3).stored? "whole" = some (.one (some 0)) ∧
         (exec (locked (all "event")) w').1 = .ok [0, 2, 1]) :=
  ⟨by decide +kernel, by decide +kernel, living_partyPlanned, closed_partyPlanned,
    by decide +kernel,
    fun hspares => absurd hspares.children (by decide +kernel), by decide +kernel⟩

end SessionCollection

end EntityStore
