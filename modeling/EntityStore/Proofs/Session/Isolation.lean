import EntityStore.Proofs.Session.Custody
import EntityStore.Proofs.Session.Effects

/-!
# Isolation

Several sessions work on one store, in any order, and every entity is used with one of them only.
What a session is to show of a type is set down as it goes along: what was committed when the session
first accessed the type, with the additions, removals and replacements that went through since, and
with the edits that were made through the entities it has handed out, until a commit or a rollback
lets go of everything. As long as no call of a session has violated the contract of its ledger the
session shows exactly that, whatever the others do; and what the repository hands out changes only
when a commit goes through.

This rests on two things. No two sessions have an entity in hand, and none has one of the repository:
what is handed over is copied every time. And no call changes an entity that has an id.

A call that violates the contract has changed the cache by then. A replacement that brings back what
has been removed leaves its entity in the list, though it did not go through.
-/

namespace EntityStore

/-- A session that has not been poisoned is coherent, and shows what it is to show. -/
def Session.Delivers (due : Showing) (w : Work) : Prop :=
  w.session.poisoned = false → Session.Coherent (fun _ => False) w ∧ Session.shown w = due

theorem Session.Delivers.goesOn {due : Showing} {w : Work} (hw : Session.Delivers due w) {s : Store}
    (hprogress : w.store.Progress s) : Session.Delivers due { w with store := s } := by
  intro hfree
  obtain ⟨hcoherent, hshows⟩ := hw hfree
  have hshown : Session.shown { w with store := s } = Session.shown w :=
    hcoherent.shown_grows hprogress.pool rfl
  exact ⟨hcoherent.progress hprogress, hshown.trans hshows⟩

/-- What a session lists of a type. -/
def Session.listed (σ : Session) (type : String) : List Handle :=
  ((σ.caches.find? type).map Cache.entities).getD []

/-- What a session may hand out: what it lists, and what it tracks. Once it is poisoned it hands out
nothing. -/
def Session.inHand (σ : Session) : List Handle :=
  if σ.poisoned then [] else σ.caches.types.flatMap σ.listed ++ σ.ledger.map LedgerEntry.entity

/-- A store and the sessions that work on it, with what is to be shown and with who uses what. Nothing
reads the latter; it is for the record. -/
structure Ensemble extends World where
  /-- What a session is to show. -/
  due : Nat → Showing
  /-- The entities that have been made outside. -/
  made : List Handle
  /-- The entities that a session has had in hand. -/
  given : Nat → List Handle
  /-- The session that an entity has been used with. -/
  user : Handle → Option Nat

/-- What happens to an ensemble. -/
inductive Ensemble.Event
  /-- A session is called, under its lock. -/
  | call (k : Nat) (c : Session.Call)
  /-- An entity is edited in place, by whoever works with a session. -/
  | edit (k : Nat) (h : Handle) (f : Entity → Entity)
  /-- Somebody makes an entity. -/
  | make (e : Entity)
  /-- Something is asked of the store without a session. -/
  | ask (r : Request)

namespace Ensemble

open Session

/-- A store that no session has worked on. What lives has been made outside. -/
def opening (s : Store) : Ensemble where
  toWorld := World.opening s
  due := fun _ _ => none
  made := List.range s.pool.next
  given := fun _ => []
  user := fun _ => none

def after (w : Ensemble) : Event → Ensemble
  | .call k c =>
    let v := w.toWorld.call k c.run
    { w with
      toWorld := v
      due := Function.update w.due k (c.effect w.store (exec (locked c.run) (w.work k)).1.isOk
        v.store.pool.id (w.due k))
      given := Function.update w.given k (w.given k ++ (v.session k).inHand)
      user := fun h => if c.entity? = some h then some k else w.user h }
  | .edit k h f =>
    { w with
      toWorld := w.toWorld.edit h f
      due := Function.update w.due k fun type => (w.due k type).map (Rows.edit h f)
      user := Function.update w.user h (some k) }
  | .make e => { w with toWorld := w.toWorld.make e, made := w.made ++ [w.store.pool.next] }
  | .ask r => { w with store := (exec r.run w.store).2 }

/-- Whoever works with a session may use an entity that has been made outside, or that the session
has had in hand, unless it has been used with another session. -/
def MayUse (w : Ensemble) (k : Nat) (h : Handle) : Prop :=
  (h ∈ w.made ∨ h ∈ w.given k) ∧ (w.user h = none ∨ w.user h = some k)

instance (w : Ensemble) (k : Nat) (h : Handle) : Decidable (w.MayUse k h) :=
  inferInstanceAs (Decidable ((h ∈ w.made ∨ h ∈ w.given k) ∧ (w.user h = none ∨ w.user h = some k)))

/-- Every entity is used with one session only, and what is edited keeps its type and its id. -/
def Allowed (w : Ensemble) : Event → Prop
  | .call k c => ∀ h ∈ c.entity?, w.MayUse k h
  | .edit k h f => w.MayUse k h ∧ (w.store.pool.entity h).SameKey (f (w.store.pool.entity h)) ∧
      (f (w.store.pool.entity h)).RefersBelow w.store.pool.next
  | .make e => e.RefersBelow w.store.pool.next
  | .ask r => r.Live w.store

instance (w : Ensemble) : (ev : Event) → Decidable (w.Allowed ev)
  | .call k c => inferInstanceAs (Decidable (∀ h ∈ c.entity?, w.MayUse k h))
  | .edit k h f => inferInstanceAs (Decidable (w.MayUse k h ∧
      ((f (w.store.pool.entity h)).id = (w.store.pool.entity h).id ∧
        (f (w.store.pool.entity h)).type.name = (w.store.pool.entity h).type.name) ∧
      (f (w.store.pool.entity h)).RefersBelow w.store.pool.next))
  | .make e => inferInstanceAs (Decidable (e.RefersBelow w.store.pool.next))
  | .ask r => inferInstanceAs (Decidable (r.Live w.store))

/-- A commit goes through. -/
def Commits (w : Ensemble) : Event → Prop
  | .call k c => c = .commit ∧ (exec (locked c.run) (w.work k)).1 = .ok ()
  | .ask r => r.Commits w.store
  | .edit .. | .make _ => False

/-- The session that an event comes from. -/
def Event.actor? : Event → Option Nat
  | .call k _ | .edit k _ _ => some k
  | .make _ | .ask _ => none

/-- The ensembles that come about, where the store commits when it is told to and not otherwise. -/
inductive Reachable : Ensemble → Prop
  | opening {s : Store} (h : s.Initial) (htyped : s.Untouched)
    (hmanual : s.repository.settings.autocommit = false) : Reachable (opening s)
  | step {w : Ensemble} (h : Reachable w) (ev : Event) (hallowed : w.Allowed ev) :
    Reachable (w.after ev)

/-- What a session is to answer when it is asked for a type: what it is to show, or what it would be
handed if it has not accessed the type. -/
def sight (w : Ensemble) (k : Nat) (type : String) : Option Rows :=
  (w.due k type).or (w.store.handsOut type)

variable {w w' : Ensemble} {k : Nat} {h : Handle} {c : Call} {ev : Event}

/-- Nobody else changes what a session is to show. -/
theorem due_after {j : Nat} (hj : ev.actor? ≠ some j) : (w.after ev).due j = w.due j := by
  cases ev with
  | call k c => exact Function.update_of_ne (fun heq => hj (congrArg some heq.symm)) _ _
  | edit k h f => exact Function.update_of_ne (fun heq => hj (congrArg some heq.symm)) _ _
  | make e => rfl
  | ask r => rfl

theorem work_after_call : (w.after (.call k c)).work k = (exec (locked c.run) (w.work k)).2 :=
  congrArg (Work.mk _) (Function.update_self k _ _)

theorem work_after_call_of_ne {j : Nat} (hj : j ≠ k) :
    (w.after (.call k c)).work j = { w.work j with store := (w.after (.call k c)).store } :=
  congrArg (Work.mk _) (World.session_call_of_ne hj _)

/-- Nothing happens when a session is called that has been poisoned. -/
theorem store_after_poisoned (hpoisoned : (w.session k).poisoned = true) :
    (w.after (.call k c)).store = w.store :=
  congrArg (fun r => r.2.store) (exec_locked_of_poisoned (m := c.run) (w := w.work k) hpoisoned)

theorem store_after_call (hfree : (w.session k).poisoned = false) :
    (w.after (.call k c)).store = (exec c.run (w.work k)).2.store :=
  store_exec_locked (w := w.work k) hfree

/-! ## Whose an entity is -/

/-- An invariant of ensembles: nobody outside has an entity of the repository, and no two sessions
have an entity that was not made outside. -/
structure Secluded (w : Ensemble) : Prop where
  made : ∀ h ∈ w.made, h < w.store.pool.next ∧ ¬ w.store.Owns h
  given : ∀ k, ∀ h ∈ w.given k, h < w.store.pool.next ∧ ¬ w.store.Owns h
  tracked : ∀ k, (w.session k).poisoned = false → ∀ h ∈ tracked (w.work k), h ∈ w.given k
  own : ∀ k, ∀ h ∈ w.given k,
    h ∈ w.made ∧ w.user h = some k ∨ h ∉ w.made ∧ ∀ j ≠ k, h ∉ w.given j

theorem Secluded.mayUse (hw : w.Secluded) (hmay : w.MayUse k h) :
    h < w.store.pool.next ∧ ¬ w.store.Owns h :=
  hmay.1.elim (hw.made h) (hw.given k h)

/-- What may be used with one session no other has. -/
theorem Secluded.not_mem_given (hw : w.Secluded) (hmay : w.MayUse k h) {j : Nat} (hj : j ≠ k) :
    h ∉ w.given j := by
  obtain ⟨hhas, huser⟩ := hmay
  intro hgiven
  rcases hw.own j h hgiven with ⟨-, hused⟩ | ⟨hnot, halone⟩
  · rw [hused] at huser
    rcases huser with hnone | hsome
    · cases hnone
    · exact hj (Option.some.inj hsome)
  · exact hhas.elim hnot (halone k hj.symm)

theorem secluded_opening {s : Store} (htyped : s.Untouched) : (opening s).Secluded where
  made := by
    refine fun h hh => ⟨List.mem_range.mp hh, ?_⟩
    rintro ⟨type, c, hfind, -⟩
    rw [show (opening s).store.repository.caches = [] from htyped.caches] at hfind
    cases hfind
  given := fun _ _ hh => absurd hh List.not_mem_nil
  tracked := fun _ _ _ hh => absurd hh List.not_mem_nil
  own := fun _ _ hh => absurd hh List.not_mem_nil

/-! ## What is shown -/

/-- An invariant of ensembles: the store is in order, and the sessions show what they are to show. -/
structure Faithful (w : Ensemble) : Prop where
  manual : w.store.Manual
  upkept : w.store.Upkept
  delivers : ∀ k, Delivers (w.due k) (w.work k)

theorem faithful_opening {s : Store} (h : s.Initial) (htyped : s.Untouched)
    (hmanual : s.repository.settings.autocommit = false) : (opening s).Faithful where
  manual := ⟨h.sound, h.inMemory, hmanual⟩
  upkept := htyped.upkept
  delivers := fun _ _ => ⟨coherent_nil htyped.upkept (.inl nofun) false, rfl⟩

theorem Faithful.ask (hw : w.Faithful) {r : Request} (hallowed : w.Allowed (.ask r)) :
    (w.after (.ask r)).Faithful := by
  obtain ⟨hready, hafter⟩ := hw.upkept.ask hallowed
  have hprogress := hready.trans hafter
  exact ⟨(hw.manual.ask hallowed).1, hw.upkept.progress hprogress,
    fun k => (hw.delivers k).goesOn hprogress⟩

/-- **Preserved by calls.** -/
theorem Faithful.call (hw : w.Faithful) (hsecluded : w.Secluded)
    (hallowed : w.Allowed (.call k c)) : (w.after (.call k c)).Faithful := by
  -- the store goes on for the others, whatever comes of the call
  suffices hcall : (w.after (.call k c)).store.Manual ∧
      w.store.Progress (w.after (.call k c)).store ∧
      Delivers ((w.after (.call k c)).due k) ((w.after (.call k c)).work k) by
    obtain ⟨hmanual, hprogress, hk⟩ := hcall
    refine ⟨hmanual, hw.upkept.progress hprogress, fun j => ?_⟩
    by_cases hj : j = k
    · rw [hj]
      exact hk
    · have hactor : (Event.call k c).actor? ≠ some j := fun heq => hj (Option.some.inj heq).symm
      rw [due_after hactor, work_after_call_of_ne hj]
      exact (hw.delivers j).goesOn hprogress
  have hdue : (w.after (.call k c)).due k = c.effect w.store
      (exec (locked c.run) (w.work k)).1.isOk (w.after (.call k c)).store.pool.id (w.due k) :=
    Function.update_self k _ _
  cases hpoisoned : (w.session k).poisoned with
  | true =>
    rw [store_after_poisoned hpoisoned, work_after_call,
      exec_locked_of_poisoned (w := w.work k) hpoisoned]
    refine ⟨hw.manual, .refl _, fun hfree => ?_⟩
    rw [show (w.work k).session.poisoned = true from hpoisoned] at hfree
    cases hfree
  | false =>
    obtain ⟨hk, hshows⟩ := hw.delivers k hpoisoned
    have hlive : ∀ h ∈ c.entity?, h < w.store.pool.next :=
      fun h hh => (hsecluded.mayUse (hallowed h hh)).1
    have hturns := c.turns hk hw.manual hlive
    have hconducts := c.conducts hk (Call.newcomer_live hlive)
    rw [hdue, work_after_call, store_after_call hpoisoned]
    refine ⟨hturns.manual, hconducts.progress, fun hfree => ?_⟩
    have hlawful := lawful_of_unpoisoned (w := w.work k) hpoisoned hfree
    rw [exec_locked_of_lawful (w := w.work k) hpoisoned hlawful, ← hshows]
    exact ⟨hconducts.coherent.resolve_left hlawful, hturns.shown.resolve_left hlawful⟩

/-- Others make entities and edit them. -/
theorem Faithful.outside (hw : w.Faithful) {pool : Pool} (hstore : w'.store = { w.store with pool })
    (hsession : w'.session = w.session) (hnext : w.store.pool.next ≤ pool.next)
    (howned : ∀ h, w.store.Owns h → pool.entity h = w.store.pool.entity h)
    (hkey : ∀ h < w.store.pool.next, (w.store.pool.entity h).SameKey (pool.entity h))
    (hclosed : pool.Closed)
    (hshows : ∀ k, (w.session k).poisoned = false → shown (w'.work k) = w'.due k) :
    w'.Faithful := by
  -- sessions only rely on ids and types, which stay; the repository on what it owns
  have hmeanwhile : w.store.Meanwhile Entity.SameKey { w.store with pool } :=
    ⟨hnext, fun h hh => howned h hh ▸ ⟨rfl, rfl⟩, rfl, rfl, hw.upkept.typed⟩
  have hupkept := hw.upkept.meanwhile hmeanwhile id
  refine ⟨?_, ?_, fun k hfree => ?_⟩
  · rw [hstore]
    exact (hw.manual.withPool hnext howned hclosed).1
  · rw [hstore]
    exact hupkept
  · have hfree : (w.session k).poisoned = false := hsession ▸ hfree
    have hk := (hw.delivers k hfree).1
    have hwork : w'.work k = { w.work k with store := { w.store with pool } } := by
      rw [World.work, hstore, hsession]
      rfl
    refine ⟨?_, hshows k hfree⟩
    rw [hwork]
    refine hk.congr hupkept (.inl fun _ => False.elim) hnext (fun e he => ?_) fun e he => ?_
    · exact (hkey e.entity (hk.ledger.live e he).1).1
    · exact (hkey e.entity (hk.ledger.live e he).1).2

theorem Faithful.make (hw : w.Faithful) {e : Entity} (hallowed : w.Allowed (.make e)) :
    (w.after (.make e)).Faithful := by
  have hextends := Pool.extends_alloc w.store.pool e
  refine hw.outside rfl rfl hextends.next_le ?_ ?_
    (hw.manual.sound.closed.alloc lasting_refersBelow hallowed) ?_
  · exact fun h hh => hextends.kept h (hw.upkept.alive h hh)
  · exact fun h hh => hextends.kept h hh ▸ ⟨rfl, rfl⟩
  · intro k hfree
    obtain ⟨hk, hdue⟩ := hw.delivers k hfree
    have hshown : Session.shown ((w.after (.make e)).work k) = Session.shown (w.work k) :=
      hk.shown_grows hextends.grows rfl
    exact hshown.trans hdue

/-- What is edited through one session no other lists, and the repository does not own. -/
theorem Faithful.edit (hw : w.Faithful) (hsecluded : w.Secluded) {f : Entity → Entity}
    (hallowed : w.Allowed (.edit k h f)) : (w.after (.edit k h f)).Faithful := by
  obtain ⟨hmay, hkey, hrefers⟩ := hallowed
  have hnot := (hsecluded.mayUse hmay).2
  refine hw.outside rfl rfl (Nat.le_refl _) ?_ (fun g _ => Pool.sameKey_edit hkey g)
    (Pool.Holds.edit hw.manual.sound.closed fun _ => hrefers) ?_
  · exact fun g hg => Pool.entity_edit_of_ne fun heq => hnot (heq ▸ hg)
  · intro j hfree
    obtain ⟨hj, hdue⟩ := hw.delivers j hfree
    funext type
    by_cases hjk : j = k
    · subst hjk
      show ((w.session j).caches.find? type).map (fun c => (w.store.pool.edit h f).rows c.entities)
        = Function.update w.due j (fun type => (w.due j type).map (Rows.edit h f)) j type
      rw [Function.update_self, ← hdue, shown, Option.map_map]
      exact Option.map_congr fun c _ => (Pool.rows_edit _ h f c.entities).symm
    · have hactor : (Event.edit k h f).actor? ≠ some j :=
        fun heq => hjk (Option.some.inj heq).symm
      rw [due_after hactor, ← hdue]
      refine Option.map_congr fun c hfind => ?_
      refine Pool.rows_congr fun g hg => Pool.entity_edit_of_ne fun heq => ?_
      -- what the other session lists it tracks, and so it has been given it
      obtain ⟨e, he, hentity, -⟩ := hj.shown hfind g hg
      refine hsecluded.not_mem_given hmay hjk (hsecluded.tracked j hfree h ?_)
      exact List.mem_map.mpr ⟨e, he, hentity.trans heq⟩

/-! ## Nothing is shared -/

theorem Secluded.ask (hw : w.Secluded) (r : Request) : (w.after (.ask r)).Secluded where
  made := fun h hh => (Store.acquires_ask w.store r).not_owns (hw.made h hh)
  given := fun k h hh => (Store.acquires_ask w.store r).not_owns (hw.given k h hh)
  tracked := hw.tracked
  own := hw.own

theorem Secluded.make (hw : w.Secluded) (halive : w.store.Alive) (e : Entity) :
    (w.after (.make e)).Secluded where
  made := by
    refine List.forall_mem_append.mpr ⟨fun h hh => ?_, List.forall_mem_singleton.mpr ?_⟩
    · exact ⟨Nat.lt_succ_of_lt (hw.made h hh).1, (hw.made h hh).2⟩
    · exact ⟨Nat.lt_succ_self _, fun howned => Nat.lt_irrefl _ (halive _ howned)⟩
  given := fun k h hh => ⟨Nat.lt_succ_of_lt (hw.given k h hh).1, (hw.given k h hh).2⟩
  tracked := hw.tracked
  own := by
    intro k h hh
    refine (hw.own k h hh).imp (fun ⟨hmade, huser⟩ => ⟨List.mem_append_left _ hmade, huser⟩) ?_
    rintro ⟨hnot, halone⟩
    refine ⟨fun hmade => ?_, halone⟩
    rcases List.mem_append.mp hmade with hmade | hnew
    · exact hnot hmade
    · exact Nat.lt_irrefl _ (List.mem_singleton.mp hnew ▸ (hw.given k h hh).1)

theorem Secluded.edit (hw : w.Secluded) (hmay : w.MayUse k h) (f : Entity → Entity) :
    (w.after (.edit k h f)).Secluded where
  made := hw.made
  given := hw.given
  tracked := hw.tracked
  own := by
    intro j g hg
    refine (hw.own j g hg).imp_left fun ⟨hmade, huser⟩ => ⟨hmade, ?_⟩
    by_cases hgh : g = h
    · have hj : j = k := by
        by_contra hj
        exact hw.not_mem_given hmay hj (hgh ▸ hg)
      rw [hgh, hj]
      exact Function.update_self h _ _
    · exact (Function.update_of_ne hgh _ _).trans huser

/-- What a session that shows what it is to show has in hand it tracks. -/
theorem Faithful.tracked_of_inHand (hw : w.Faithful) (hh : h ∈ (w.session k).inHand) :
    (w.session k).poisoned = false ∧ h ∈ tracked (w.work k) := by
  unfold inHand at hh
  split at hh
  · exact absurd hh List.not_mem_nil
  · next hnot =>
    have hfree : (w.session k).poisoned = false := eq_false_of_ne_true hnot
    refine ⟨hfree, ?_⟩
    rcases List.mem_append.mp hh with hlisted | htracked
    · obtain ⟨type, -, hh⟩ := List.mem_flatMap.mp hlisted
      unfold listed at hh
      cases hfind : (w.session k).caches.find? type with
      | none =>
        rw [hfind] at hh
        exact absurd hh List.not_mem_nil
      | some d =>
        rw [hfind] at hh
        obtain ⟨e, he, rfl, -⟩ := (hw.delivers k hfree).1.shown hfind h hh
        exact List.mem_map_of_mem he
    · exact htracked

/-- A session that has not been poisoned was not before the call. -/
theorem free_of_free_after (hfree : ((w.after (.call k c)).session k).poisoned = false) :
    (w.session k).poisoned = false := by
  cases hpoisoned : (w.session k).poisoned with
  | false => rfl
  | true =>
    have hwork := work_after_call (w := w) (k := k) (c := c)
    rw [exec_locked_of_poisoned (w := w.work k) hpoisoned] at hwork
    rw [← hfree, ← hpoisoned]
    exact congrArg (fun v : Work => v.session.poisoned) hwork.symm

theorem given_after_self :
    (w.after (.call k c)).given k = w.given k ++ ((w.after (.call k c)).session k).inHand :=
  Function.update_self k _ _

theorem given_after_of_ne {j : Nat} (hj : j ≠ k) : (w.after (.call k c)).given j = w.given j :=
  Function.update_of_ne hj _ _

/-- An entity stays with the session that it has been used with. -/
theorem user_after_call (hallowed : w.Allowed (.call k c)) {j : Nat} (hused : w.user h = some j) :
    (w.after (.call k c)).user h = some j := by
  by_cases hentity : c.entity? = some h
  · have hj : j = k := by
      rcases (hallowed h hentity).2 with hnone | hsome
      · rw [hused] at hnone
        cases hnone
      · exact Option.some.inj (hused.symm.trans hsome)
    rw [hj]
    exact if_pos hentity
  · exact (if_neg hentity).trans hused

/-- Where an entity comes from that a session has after a call: it had been given it, or it was called
about it, or the entity was made for it. -/
def CameBy (w : Ensemble) (k : Nat) (c : Call) (h : Handle) : Prop :=
  h ∈ w.given k ∨ c.newcomer? = some h ∨
    w.store.pool.next ≤ h ∧ h < (w.after (.call k c)).store.pool.next ∧
      ¬ (w.after (.call k c)).store.Owns h

theorem Secluded.cameBy (hw : w.Secluded) (halive : w.store.Alive)
    (hafter : (w.after (.call k c)).Faithful) (hh : h ∈ (w.after (.call k c)).given k) :
    w.CameBy k c h := by
  rw [given_after_self] at hh
  rcases List.mem_append.mp hh with hold | hinHand
  · exact .inl hold
  · obtain ⟨hfree, htracked⟩ := hafter.tracked_of_inHand hinHand
    have happart := c.separates.locked (w.work k) halive
    rw [← work_after_call] at happart
    exact (happart.tracked h htracked).imp_left (hw.tracked k (free_of_free_after hfree) h)

/-- What a session has after its own call it has alone, unless it was made outside. -/
theorem Secluded.own_self (hw : w.Secluded) (hallowed : w.Allowed (.call k c))
    (hcame : w.CameBy k c h) :
    h ∈ w.made ∧ (w.after (.call k c)).user h = some k ∨
      h ∉ w.made ∧ ∀ j ≠ k, h ∉ (w.after (.call k c)).given j := by
  have hold : h ∈ w.given k → h ∈ w.made ∧ (w.after (.call k c)).user h = some k ∨
      h ∉ w.made ∧ ∀ j ≠ k, h ∉ (w.after (.call k c)).given j := by
    intro hgiven
    rcases hw.own k h hgiven with ⟨hmade, hused⟩ | ⟨hnot, halone⟩
    · exact .inl ⟨hmade, user_after_call hallowed hused⟩
    · refine .inr ⟨hnot, fun j hj => ?_⟩
      rw [given_after_of_ne hj]
      exact halone j hj
  rcases hcame with hgiven | hnew | ⟨hle, -⟩
  · exact hold hgiven
  · have hentity := Call.entity?_of_newcomer? hnew
    rcases (hallowed h hentity).1 with hmade | hgiven
    · exact .inl ⟨hmade, if_pos hentity⟩
    · exact hold hgiven
  · -- it lies beyond all that there was before the call
    refine .inr ⟨fun hmade => Nat.not_lt.mpr hle (hw.made h hmade).1, fun j hj hgiven => ?_⟩
    rw [given_after_of_ne hj] at hgiven
    exact Nat.not_lt.mpr hle (hw.given j h hgiven).1

/-- What a session had alone it has alone after the call of another. -/
theorem Secluded.alone_after (hw : w.Secluded) (hallowed : w.Allowed (.call k c)) {j : Nat}
    (hj : j ≠ k) (hh : h ∈ w.given j) (halone : ∀ i ≠ j, h ∉ w.given i)
    (hcame : h ∈ (w.after (.call k c)).given k → w.CameBy k c h) :
    ∀ i ≠ j, h ∉ (w.after (.call k c)).given i := by
  intro i hi hgiven
  by_cases hik : i = k
  · rcases hcame (hik ▸ hgiven) with hold | hnew | ⟨hle, -⟩
    · exact halone k (hik ▸ hi) hold
    · exact hw.not_mem_given (hallowed h (Call.entity?_of_newcomer? hnew)) hj hh
    · exact Nat.not_lt.mpr hle (hw.given j h hh).1
  · rw [given_after_of_ne hik] at hgiven
    exact halone i hi hgiven

/-- **Preserved by calls.** -/
theorem Secluded.call (hw : w.Secluded) (halive : w.store.Alive)
    (hallowed : w.Allowed (.call k c)) (hafter : (w.after (.call k c)).Faithful) :
    (w.after (.call k c)).Secluded := by
  have hacquires : w.store.Acquires (w.after (.call k c)).store :=
    (c.separates.locked (w.work k) halive).store
  have hcame : ∀ h ∈ (w.after (.call k c)).given k, w.CameBy k c h :=
    fun h hh => hw.cameBy halive hafter hh
  refine ⟨fun h hh => hacquires.not_owns (hw.made h hh), fun j h hh => ?_, fun j hfree h hh => ?_,
    fun j h hh => ?_⟩
  · by_cases hj : j = k
    · rcases hcame h (hj ▸ hh) with hold | hnew | ⟨-, hfresh⟩
      · exact hacquires.not_owns (hw.given k h hold)
      · exact hacquires.not_owns (hw.mayUse (hallowed h (Call.entity?_of_newcomer? hnew)))
      · exact hfresh
    · rw [given_after_of_ne hj] at hh
      exact hacquires.not_owns (hw.given j h hh)
  · by_cases hj : j = k
    · rw [hj] at hfree hh ⊢
      rw [given_after_self, inHand, if_neg (ne_true_of_eq_false hfree)]
      exact List.mem_append_right _ (List.mem_append_right _ hh)
    · rw [work_after_call_of_ne hj] at hh
      rw [given_after_of_ne hj]
      exact hw.tracked j (World.session_call_of_ne hj c.run ▸ hfree) h hh
  · by_cases hj : j = k
    · subst hj
      exact hw.own_self hallowed (hcame h hh)
    · rw [given_after_of_ne hj] at hh
      rcases hw.own j h hh with ⟨hmade, hused⟩ | ⟨hnot, halone⟩
      · exact .inl ⟨hmade, user_after_call hallowed hused⟩
      · exact .inr ⟨hnot, hw.alone_after hallowed hj hh halone (hcame h)⟩

/-! ## Every ensemble that comes about -/

/-- **Preserved by every event.** -/
theorem Faithful.step (hw : w.Faithful) (hsecluded : w.Secluded) (hallowed : w.Allowed ev) :
    (w.after ev).Faithful ∧ (w.after ev).Secluded := by
  cases ev with
  | call k c =>
    have hafter := hw.call hsecluded hallowed
    exact ⟨hafter, hsecluded.call hw.upkept.alive hallowed hafter⟩
  | edit k h f => exact ⟨hw.edit hsecluded hallowed, hsecluded.edit hallowed.1 f⟩
  | make e => exact ⟨hw.make hallowed, hsecluded.make hw.upkept.alive e⟩
  | ask r => exact ⟨hw.ask hallowed, hsecluded.ask r⟩

theorem Reachable.faithful (hw : w.Reachable) : w.Faithful ∧ w.Secluded := by
  induction hw with
  | opening h htyped hmanual => exact ⟨faithful_opening h htyped hmanual, secluded_opening htyped⟩
  | step _ ev hallowed ih => exact ih.1.step ih.2 hallowed

/-- What is committed stands until a commit goes through. -/
theorem Faithful.roster? (hw : w.Faithful) (hsecluded : w.Secluded) (hallowed : w.Allowed ev)
    (hnot : ¬ w.Commits ev) (type : String) :
    (w.after ev).store.roster? type = w.store.roster? type := by
  cases ev with
  | call k c =>
    cases hpoisoned : (w.session k).poisoned with
    | true => rw [store_after_poisoned hpoisoned]
    | false =>
      have hlive : ∀ h ∈ c.entity?, h < w.store.pool.next :=
        fun h hh => (hsecluded.mayUse (hallowed h hh)).1
      have hturns := c.turns (hw.delivers k hpoisoned).1 hw.manual hlive
      rw [store_after_call hpoisoned]
      refine (hturns.upholds ?_).roster type
      -- a commit that goes through without the lock goes through under it
      rintro ⟨rfl, hok⟩
      have hlawful : ¬ Faults Call.commit.run (w.work k) := by
        rintro ⟨v, hv⟩
        rw [hok] at hv
        cases hv
      refine hnot ⟨rfl, ?_⟩
      rw [exec_locked_of_lawful (w := w.work k) hpoisoned hlawful]
      exact hok
  | edit k h f =>
    obtain ⟨hmay, -, hrefers⟩ := hallowed
    have howned : ∀ g, w.store.Owns g →
        (w.store.pool.edit h f).entity g = w.store.pool.entity g :=
      fun g hg => Pool.entity_edit_of_ne fun heq => (hsecluded.mayUse hmay).2 (heq ▸ hg)
    have hnext : w.store.pool.next ≤ (w.store.pool.edit h f).next := Nat.le_refl _
    exact (hw.manual.withPool hnext howned
      (Pool.Holds.edit hw.manual.sound.closed fun _ => hrefers)).2 type
  | make e =>
    have hgrows := (Pool.extends_alloc w.store.pool e).grows
    exact (hw.manual.upholds_pool hgrows
      (hw.manual.sound.closed.alloc lasting_refersBelow hallowed)).roster type
  | ask r => exact ((hw.manual.ask hallowed).2.2 hnot).roster type

/-- The entities of rows, without the handles. -/
abbrev entities (rows : Option Rows) : Option Roster := rows.map (List.map Prod.snd)

/-- **Sessions show what they are to show.** In every ensemble that comes about, each session that
has not been poisoned answers, when it is asked for all entities of a type, with what was committed
when it first accessed the type and with what it did itself since, and nothing else; the entities
that the repository hands out change only when a commit goes through; and what comes from others
does not change what a session is to show of a type it has accessed, nor of any other type before a
commit goes through. -/
theorem shows_due (hw : w.Reachable) :
    (∀ k, (w.session k).poisoned = false → ∀ type, answered (w.work k) type = w.sight k type) ∧
      ∀ ev, w.Allowed ev →
        (¬ w.Commits ev → ∀ type, (w.after ev).store.roster? type = w.store.roster? type) ∧
        ∀ j, ev.actor? ≠ some j → ∀ type, w.due j type ≠ none ∨ ¬ w.Commits ev →
          entities ((w.after ev).sight j type) = entities (w.sight j type) := by
  obtain ⟨hfaithful, hsecluded⟩ := hw.faithful
  refine ⟨fun k hfree type => ?_, fun ev hallowed => ⟨hfaithful.roster? hsecluded hallowed, ?_⟩⟩
  · obtain ⟨hk, hdue⟩ := hfaithful.delivers k hfree
    rw [sight, ← hdue]
    exact answered_eq hk hfaithful.manual hfree type
  · intro j hj type hstands
    rw [sight, sight, due_after hj]
    cases hrows : w.due j type with
    | some rows => rw [Option.some_or, Option.some_or]
    | none =>
      have hnot := hstands.resolve_left fun hopen => hopen hrows
      exact Store.entities_handsOut_congr (hfaithful.roster? hsecluded hallowed hnot type)

open Samples

theorem reachable_redAndBlue {made : List Entity} (hmade : ∀ e ∈ made, e.RefersBelow 0) :
    (opening (redAndBlue made)).Reachable :=
  .opening (Store.initial_redAndBlue hmade) (Run.untouched_redAndBlue made) rfl

/-- The ids and slugs of rows. -/
def keys (rows : Option Rows) : Option (List (Option EntityId × Option String)) :=
  rows.map (List.map fun r => (r.2.id, r.2.slug))

/-- One session has read the tags; another has made the red one crimson, removed the blue one and
added a green one. -/
def recolouring : Ensemble :=
  let w := (opening (redAndBlue [tagNamed none "green"])).after (.call 0 (.all "tag"))
  let w := (w.after (.call 1 (.getById "tag" 1))).after
    (.edit 1 5 fun e => e.set "name" (.value (.string "crimson")))
  (w.after (.call 1 (.remove 6))).after (.call 1 (.add 0))

theorem reachable_recolouring : recolouring.Reachable :=
  (((((reachable_redAndBlue (by decide)).step (.call 0 (.all "tag")) (by decide +kernel)).step
    (.call 1 (.getById "tag" 1)) (by decide +kernel)).step (.edit 1 5 _) (by decide +kernel)).step
    (.call 1 (.remove 6)) (by decide +kernel)).step (.call 1 (.add 0)) (by decide +kernel)

/-- Each of the two sessions shows what it has done, and the repository hands out what it did, also
after the one has re-indexed what it shows. -/
theorem shows_due_recolouring :
    recolouring.Reachable ∧
      keys (answered (recolouring.work 0) "tag") = some [(some 1, some "red"), (some 2, some "blue")] ∧
      keys (answered (recolouring.work 1) "tag")
        = some [(some 1, some "crimson"), (some 3, some "green")] ∧
      (recolouring.after (.call 1 .flush)).store.roster? "tag" = recolouring.store.roster? "tag" := by
  obtain ⟨hanswers, hstands⟩ := shows_due reachable_recolouring
  refine ⟨reachable_recolouring, ?_, ?_, ?_⟩
  · rw [hanswers 0 (by decide +kernel)]
    decide +kernel
  · rw [hanswers 1 (by decide +kernel)]
    decide +kernel
  · have hflush : ¬ recolouring.Commits (.call 1 .flush) := fun hcommits => by cases hcommits.1
    exact (hstands (.call 1 .flush) (by decide +kernel)).1 hflush "tag"

/-- A session has removed the red tag, added a crimson one of its id, and replaced that by the red one
again, which is a violation. -/
def broughtBack : Ensemble :=
  let w := (opening (redAndBlue [tagNamed (some 1) "crimson"])).after (.call 0 (.getById "tag" 1))
  ((w.after (.call 0 (.remove 3))).after (.call 0 (.add 0))).after (.call 0 (.replace 3))

/-- A replacement that did not go through shows. -/
theorem not_shows_due_of_brought_back :
    broughtBack.Reachable ∧
      keys (broughtBack.sight 0 "tag") = some [(some 2, some "blue"), (some 1, some "crimson")] ∧
      (exec (all "tag") (broughtBack.work 0)).1 = .ok [4, 3] ∧
      keys (some (broughtBack.store.pool.rows [4, 3]))
        = some [(some 2, some "blue"), (some 1, some "red")] := by
  have hreachable : broughtBack.Reachable :=
    ((((reachable_redAndBlue (by decide)).step (.call 0 (.getById "tag" 1)) (by decide +kernel)).step
      (.call 0 (.remove 3)) (by decide +kernel)).step (.call 0 (.add 0)) (by decide +kernel)).step
      (.call 0 (.replace 3)) (by decide +kernel)
  exact ⟨hreachable, by decide +kernel, by decide +kernel, by decide +kernel⟩

end Ensemble

end EntityStore
