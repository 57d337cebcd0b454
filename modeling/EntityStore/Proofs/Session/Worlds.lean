import EntityStore.Proofs.Repository.Sequences
import EntityStore.Proofs.Session.Entering
import EntityStore.Proofs.Session.Refusal

/-!
# Sessions over one store

A world is a store and the sessions that work on it, each under its lock, in any order. Others make
entities and edit them between the calls, though not those of the repository; and they load types,
draw ids and commit without a session. Every session that has not been poisoned is in order at any
time, whatever the others do.
-/

namespace EntityStore

namespace Store

variable {s s' : Store} {changes : Changeset} {type : String}

/-- A commit that fails changes no content. -/
theorem Orderly.carries_of_refused (hs : s.Orderly) (hlive : ∀ c ∈ changes, c.entity < s.pool.next)
    {e : StoreError} (hfail : exec (commit changes) s = (.error e, s')) : Carries s s' := by
  have hspec := commit_spec hs.sound hs.inMemory hlive
  rw [hfail] at hspec
  obtain ⟨hretains, hsound, -⟩ := hspec
  have hs' := hretains.toFrame.orderly hs hsound
  obtain ⟨hsame, hmoved⟩ := opened_of_refused hs.sound hs.inMemory hlive hfail
  refine ⟨hs', hretains.pool.grows, fun type id => ?_⟩
  by_cases htype : type ∈ (s.finished changes).types
  · obtain ⟨c, hc, rfl⟩ := List.mem_map.mp htype
    obtain ⟨r, last, hopened, hopened'⟩ := hmoved c hc
    rw [hs.content_eq, hs'.content_eq, hopened, hopened']
  · exact hs.content_congr hs' (hsame type htype) id

/-- Whatever comes of it, a commit leaves an orderly store, and all that has an id. -/
theorem Orderly.commit (hs : s.Orderly) (hlive : ∀ c ∈ changes, c.entity < s.pool.next) :
    (exec (commit changes) s).2.Orderly ∧ s.pool.Grows (exec (commit changes) s).2.pool := by
  have hspec := commit_spec hs.sound hs.inMemory hlive
  rcases hrun : exec (Store.commit changes) s with ⟨e | _, s'⟩
  · exact ⟨(hs.carries_of_refused hlive hrun).orderly, (hs.carries_of_refused hlive hrun).pool⟩
  · rw [hrun] at hspec
    exact ⟨hspec.toFrame.orderly hs hspec.sound, hspec.pool.grows⟩

end Store

namespace Session

variable {strays : Handle → Prop} {base : Base} {w v : Work} {α β : Type}

/-! ## Calls that may commit -/

/-- What remains of a call that began at `w` on a session in order: it leaves an orderly store, and
unless it violates the contract of the ledger it leaves the session in order. -/
def Behaves (base : Base) (w v : Work) (m : SessionM α) : Prop :=
  (exec m v).2.store.Orderly ∧ w.store.pool.Grows (exec m v).2.store.pool ∧
    ((∃ fault, (exec m v).1 = .error (.violation fault)) ∨
      ∃ strays, Tracks strays (rebase base w.session (exec m v).2.store (exec m v).2.session)
        (exec m v).2.store (exec m v).2.session)

theorem Resumes.behaves {m : SessionM α} (h : Resumes base w v m) : Behaves base w v m :=
  ⟨h.1.orderly, h.1.pool, h.2.imp_right Advances.tracks⟩

theorem Advances.refl (hs : w.store.Orderly) (hw : Tracks strays base w.store w.session) :
    Advances base w w := hw.advances (.refl hs) rfl Iff.rfl hw

theorem Advances.behaves_pure (h : Advances base w v) (a : α) :
    Behaves base w v (pure a : SessionM α) := h.resumes.behaves

theorem Proceeds.behaves_bind {m : SessionM α} {f : α → SessionM β} (hm : Proceeds base w m)
    (hf : ∀ a v, Advances base w v → Behaves base w v (f a)) : Behaves base w w (m >>= f) := by
  have hbehaves := hm.behaves
  obtain ⟨-, hout⟩ := hm
  unfold Behaves at hbehaves ⊢
  rw [exec_bind]
  rcases hrun : exec m w with ⟨e | a, v⟩
  · rw [hrun] at hbehaves
    refine ⟨hbehaves.1, hbehaves.2.1, hbehaves.2.2.imp_left ?_⟩
    intro ⟨fault, hfault⟩
    exact ⟨fault, congrArg Except.error (Except.error.inj hfault)⟩
  · rw [hrun] at hout
    refine hf a v (hout.resolve_left ?_)
    intro ⟨fault, hfault⟩
    cases hfault

/-- What a session hands over lives, and has ids. -/
theorem Tracks.handsOver (hw : Tracks strays base w.store w.session) :
    ∀ c ∈ changeset w, c.entity < w.store.pool.next ∧ w.store.pool.id c.entity ≠ none := by
  intro c hc
  obtain ⟨e, he, heq⟩ := entity_of_mem_changeset hc
  rw [heq]
  exact hw.ledger.live e he

/-- A commit that is refused leaves the session as it was, with its caches re-indexed. -/
theorem advances_of_refused (hs : w.store.Orderly) (hw : Tracks strays base w.store w.session)
    {e : StoreError} {s : Store} (hfail : exec (Store.commit (changeset w)) w.store = (.error e, s)) :
    Advances base w ⟨s, { w.session with caches := w.session.caches.rebuild w.store.pool }⟩ := by
  have hcarries := hs.carries_of_refused (fun c hc => (hw.handsOver c hc).1) hfail
  have hrelists := Caches.relists_rebuild hw.keyed
  exact hw.advances hcarries rfl hrelists.none
    ((hw.relist hrelists).grows hs hcarries.orderly hcarries.pool)

theorem Advances.behaves_commit (h : Advances base w v) : Behaves base w v commit := by
  obtain ⟨strays, hv⟩ := h.tracks
  have hs := h.carries.orderly
  have hcommit := hs.commit fun c hc => (hv.handsOver c hc).1
  unfold Behaves
  rw [exec_commit]
  rcases hrun : exec (Store.commit (changeset v)) v.store with ⟨e | _, s⟩
  · have hrefused := h.trans (advances_of_refused hs hv hrun)
    exact ⟨hrefused.carries.orderly, hrefused.carries.pool, .inr hrefused.tracks⟩
  · rw [hrun] at hcommit
    exact ⟨hcommit.1, h.carries.pool.trans hcommit.2, .inr ⟨_, tracks_nil s _⟩⟩

theorem Advances.behaves_autocommit (h : Advances base w v) : Behaves base w v autocommit := by
  have hauto : exec autocommit v
      = if v.store.repository.settings.autocommit then exec commit v else (.ok (), v) := by
    unfold autocommit
    rw [exec_bind, exec_get]
    simp only
    split <;> rfl
  unfold Behaves
  rw [hauto]
  split
  · exact h.behaves_commit
  · exact h.behaves_pure ()

theorem Advances.behaves_rollback (h : Advances base w v) : Behaves base w v rollback := by
  unfold Behaves
  rw [exec_rollback]
  exact ⟨h.carries.orderly, h.carries.pool, .inr ⟨_, tracks_nil v.store _⟩⟩

/-- The calls of a session. An addition and a removal may also have got no further than to the point
at which they commit, where the repository is set to. -/
inductive Call
  | add (h : Handle)
  | remove (h : Handle)
  | replace (h : Handle)
  | enter (h : Handle)
  | leave (h : Handle)
  | getById (type : String) (id : EntityId)
  | getBySlug (type slug : String)
  | all (type : String)
  | flush
  | commit
  | rollback

namespace Call

def run : Call → SessionM Unit
  | .add h => Session.add h
  | .remove h => Session.remove h
  | .replace h => Session.replace h
  | .enter h => do let _ ← Session.enter h
  | .leave h => Session.leave h
  | .getById type id => do let _ ← Session.getById type id
  | .getBySlug type slug => do let _ ← Session.getBySlug type slug
  | .all type => do let _ ← Session.all type
  | .flush => Session.flush
  | .commit => Session.commit
  | .rollback => Session.rollback

/-- The entity that a call is about. -/
def entity? : Call → Option Handle
  | .add h | .remove h | .replace h | .enter h | .leave h => some h
  | _ => none

/-- A call about an entity that lives. -/
theorem behaves (c : Call) (hs : w.store.Orderly) (hw : Tracks strays base w.store w.session)
    (hlive : ∀ h ∈ c.entity?, h < w.store.pool.next) : Behaves base w w c.run := by
  have hrefl := Advances.refl hs hw
  have hread : ∀ {α : Type} {m : SessionM α}, Lawful m → Behaves base w w (do let _ ← m) :=
    fun hm => (hm strays base w hs hw).behaves_bind fun _ v h => h.behaves_pure ()
  cases c with
  | add h =>
    rw [run, add_eq]
    refine (enter_proceeds hs hw (hlive h rfl)).behaves_bind fun any v hv => ?_
    split
    · exact hv.behaves_autocommit
    · exact hv.behaves_pure ()
  | remove h =>
    rw [run, remove_eq]
    exact (leave_proceeds hs hw).behaves_bind fun _ v hv => hv.behaves_autocommit
  | replace h => exact (replace_proceeds hs hw (hlive h rfl)).behaves
  | enter h => exact (enter_proceeds hs hw (hlive h rfl)).behaves_bind fun _ v hv => hv.behaves_pure ()
  | leave h => exact (leave_proceeds hs hw).behaves
  | getById type id => exact hread (lawful_getById type id)
  | getBySlug type slug => exact hread (lawful_getBySlug type slug)
  | all type => exact hread (lawful_all type)
  | flush => exact (lawful_flush strays base w hs hw).behaves
  | commit => exact hrefl.behaves_commit
  | rollback => exact hrefl.behaves_rollback

end Call

/-- An entity that a session tracks, but neither shows nor has removed: a copy that was made when a
type was checked out in vain, and that nobody has been handed. -/
def Astray (σ : Session) (p : Pool) (h : Handle) : Prop :=
  (∃ e ∈ σ.ledger, e.entity = h ∧ e.state ≠ .deleted) ∧
    ∀ c ∈ σ.caches.find? (p.typeName h), h ∉ c.entities

instance (σ : Session) (p : Pool) (h : Handle) : Decidable (σ.Astray p h) :=
  inferInstanceAs (Decidable ((∃ e ∈ σ.ledger, e.entity = h ∧ e.state ≠ .deleted) ∧
    ∀ c ∈ σ.caches.find? (p.typeName h), h ∉ c.entities))

theorem Tracks.astray {s : Store} {σ : Session} (h : Tracks strays base s σ) {k : Handle}
    (hstray : strays k) : σ.Astray s.pool k := by
  obtain ⟨e, he, rfl⟩ := h.ledger.tracked hstray
  refine ⟨⟨e, he, rfl, ?_⟩, ?_⟩
  · rw [(h.ledger.clean e he hstray).1]
    decide
  · intro c hfind hmem
    obtain ⟨-, d, -, -, -, hnot⟩ := h.entry hfind hmem
    exact hnot hstray

end Session

/-! ## Worlds -/

/-- A store, and the sessions that work on it. With each session goes its base: the content that the
types it has checked out had then. Nothing reads the bases; they are for the record. -/
structure World where
  store : Store
  session : Nat → Session
  base : Nat → Base

namespace World

open Session

/-- The world of a store that no session has worked on. -/
def opening (s : Store) : World := ⟨s, fun _ => .fresh, fun _ _ _ => none⟩

/-- A session and the store. -/
def work (w : World) (k : Nat) : Work := ⟨w.store, w.session k⟩

/-- A call of a session, under its lock. -/
def call (w : World) (k : Nat) (m : SessionM α) : World where
  store := (exec (locked m) (w.work k)).2.store
  session := Function.update w.session k (exec (locked m) (w.work k)).2.session
  base := Function.update w.base k (rebase (w.base k) (w.session k)
    (exec (locked m) (w.work k)).2.store (exec (locked m) (w.work k)).2.session)

theorem session_call_of_ne {w : World} {j k : Nat} (hj : j ≠ k) (m : SessionM α) :
    (w.call k m).session j = w.session j := Function.update_of_ne hj _ _

/-- The entities that nobody outside can edit: those of the repository, and those that only a
session knows of. -/
def Withheld (w : World) (h : Handle) : Prop :=
  w.store.Owns h ∨ ∃ k, (w.session k).poisoned = false ∧ (w.session k).Astray w.store.pool h

/-- The worlds that come about. -/
inductive Reachable : World → Prop
  | opening {s : Store} (h : s.Initial) (hplain : s.Plain) : Reachable (opening s)
  | call {w : World} (h : Reachable w) (k : Nat) (c : Call)
    (hlive : ∀ h ∈ c.entity?, h < w.store.pool.next) : Reachable (w.call k c.run)
  /-- Others make plain entities, and edit them; what lives keeps its type and its id. -/
  | outside {w : World} (h : Reachable w) {pool : Pool} (hnext : w.store.pool.next ≤ pool.next)
    (hwithheld : ∀ h, w.Withheld h → pool.entity h = w.store.pool.entity h)
    (htype : ∀ h < w.store.pool.next, pool.typeName h = w.store.pool.typeName h)
    (hid : ∀ h < w.store.pool.next, pool.id h = w.store.pool.id h)
    (hplain : pool.Holds fun _ e => e.Plain) :
    Reachable { w with store := { w.store with pool } }
  | load {w : World} (h : Reachable w) (type : String) :
    Reachable { w with store := (exec (Store.load type) w.store).2 }
  | newId {w : World} (h : Reachable w) (type : String) :
    Reachable { w with store := (exec (Store.newId type) w.store).2 }
  | commit {w : World} (h : Reachable w) {changes : Changeset}
    (hlive : ∀ c ∈ changes, c.entity < w.store.pool.next) :
    Reachable { w with store := (exec (Store.commit changes) w.store).2 }

/-- An invariant of worlds. -/
structure InOrder (w : World) : Prop where
  store : w.store.Orderly
  sessions : ∀ k, (w.session k).poisoned = false →
    ∃ strays, Tracks strays (w.base k) w.store (w.session k)

variable {w : World} {k : Nat}

theorem inOrder_opening {s : Store} (h : s.Initial) (hplain : s.Plain) : (opening s).InOrder where
  store := ⟨h.sound, hplain, h.inMemory⟩
  sessions := fun _ _ => ⟨_, tracks_nil s false⟩

/-- The store goes on, and every session stays as it is. -/
theorem InOrder.goesOn (hw : w.InOrder) {s : Store} (hs : s.Orderly)
    (hpool : w.store.pool.Grows s.pool) : InOrder { w with store := s } where
  store := hs
  sessions := by
    intro k hpoisoned
    obtain ⟨strays, h⟩ := hw.sessions k hpoisoned
    exact ⟨strays, h.grows hw.store hs hpool⟩

/-- A call goes through the lock, and poisons the session if it violates the ledger's contract. -/
theorem exec_locked_of_behaves {base : Base} {v : Work} {m : SessionM α}
    (hfree : v.session.poisoned = false) (hm : Behaves base v v m) :
    (exec (locked m) v).2.store.Orderly ∧ v.store.pool.Grows (exec (locked m) v).2.store.pool ∧
      ((exec (locked m) v).2.session.poisoned = false →
        ∃ strays, Tracks strays (rebase base v.session (exec (locked m) v).2.store
          (exec (locked m) v).2.session) (exec (locked m) v).2.store (exec (locked m) v).2.session) := by
  unfold Behaves at hm
  rw [exec_locked, hfree, if_neg Bool.false_ne_true, exec_run]
  rcases hrun : exec m v with ⟨(e | fault) | a, v'⟩
  · rw [hrun] at hm
    refine ⟨hm.1, hm.2.1, fun _ => hm.2.2.resolve_left ?_⟩
    intro ⟨fault, hfault⟩
    cases hfault
  · rw [hrun] at hm
    refine ⟨hm.1, hm.2.1, fun hpoisoned => ?_⟩
    cases hpoisoned
  · rw [hrun] at hm
    refine ⟨hm.1, hm.2.1, fun _ => hm.2.2.resolve_left ?_⟩
    intro ⟨fault, hfault⟩
    cases hfault

theorem InOrder.call (hw : w.InOrder) (c : Call) (hlive : ∀ h ∈ c.entity?, h < w.store.pool.next) :
    (w.call k c.run).InOrder := by
  cases hpoisoned : (w.session k).poisoned with
  | true =>
    -- nothing happens
    have hstays : exec (locked c.run) (w.work k)
        = (.error (.store (.lockPoisoned .session)), w.work k) := by
      rw [exec_locked, work, if_pos hpoisoned]
    refine ⟨?_, ?_⟩
    · rw [World.call, hstays]
      exact hw.store
    · intro j hfree
      have hsession : (w.call k c.run).session = w.session := by
        rw [World.call, hstays]
        exact Function.update_eq_self k w.session
      have hne : j ≠ k := by
        intro heq
        rw [hsession, heq, hpoisoned] at hfree
        cases hfree
      have hbase : (w.call k c.run).base j = w.base j := Function.update_of_ne hne _ _
      rw [hsession] at hfree ⊢
      rw [hbase, show (w.call k c.run).store = w.store by rw [World.call, hstays]; rfl]
      exact hw.sessions j hfree
  | false =>
    obtain ⟨strays, hk⟩ := hw.sessions k hpoisoned
    obtain ⟨hs, hpool, hsession⟩ :=
      exec_locked_of_behaves (v := w.work k) hpoisoned (c.behaves hw.store hk hlive)
    refine ⟨hs, fun j hfree => ?_⟩
    by_cases hj : j = k
    · subst hj
      have hself : (w.call j c.run).session j = (exec (locked c.run) (w.work j)).2.session :=
        Function.update_self j _ _
      have hbase : (w.call j c.run).base j = _ := Function.update_self j _ _
      rw [hself] at hfree ⊢
      rw [hbase]
      exact hsession hfree
    · have hbase : (w.call k c.run).base j = w.base j := Function.update_of_ne hj _ _
      rw [session_call_of_ne hj] at hfree ⊢
      rw [hbase]
      obtain ⟨strays, h⟩ := hw.sessions j hfree
      exact ⟨strays, h.grows hw.store hs hpool⟩

theorem InOrder.outside (hw : w.InOrder) {pool : Pool} (hnext : w.store.pool.next ≤ pool.next)
    (hwithheld : ∀ h, w.Withheld h → pool.entity h = w.store.pool.entity h)
    (htype : ∀ h < w.store.pool.next, pool.typeName h = w.store.pool.typeName h)
    (hid : ∀ h < w.store.pool.next, pool.id h = w.store.pool.id h)
    (hplain : pool.Holds fun _ e => e.Plain) : InOrder { w with store := { w.store with pool } } := by
  have hs : Store.Orderly { w.store with pool } :=
    hw.store.withPool hnext (fun hfind h hh => hwithheld h (.inl ⟨_, _, hfind, hh⟩))
      (fun h hh => (hplain h hh).refersBelow _) hplain
  refine ⟨hs, fun k hfree => ?_⟩
  obtain ⟨strays, h⟩ := hw.sessions k hfree
  have hlive := fun e he => (h.ledger.live e he).1
  refine ⟨strays, h.congr hnext ?_ ?_ ?_⟩
  · exact fun e he => hid e.entity (hlive e he)
  · exact fun e he => htype e.entity (hlive e he)
  · intro e he hstray
    have hsame := hwithheld e.entity (.inr ⟨k, hfree, h.astray hstray⟩)
    rw [hw.store.capture (hlive e he), hs.capture (Nat.lt_of_lt_of_le (hlive e he) hnext), hsame]

/-- Every world that comes about is in order. -/
theorem Reachable.inOrder (h : w.Reachable) : w.InOrder := by
  induction h with
  | opening h hplain => exact inOrder_opening h hplain
  | call _ k c hlive ih => exact ih.call c hlive
  | outside _ hnext hwithheld htype hid hplain ih => exact ih.outside hnext hwithheld htype hid hplain
  | load _ type ih =>
    have hcarries := ih.store.carries_checkout type
    rw [Store.exec_load]
    exact ih.goesOn hcarries.orderly hcarries.pool
  | newId _ type ih =>
    have hcarries := ih.store.carries_newId type
    exact ih.goesOn hcarries.orderly hcarries.pool
  | commit _ hlive ih =>
    obtain ⟨hs, hpool⟩ := ih.store.commit hlive
    exact ih.goesOn hs hpool

/-! ## Making and editing -/

/-- Somebody makes an entity. -/
def make (w : World) (e : Entity) : World :=
  { w with store := { w.store with pool := (w.store.pool.alloc e).2 } }

/-- Somebody edits an entity in place. -/
def edit (w : World) (h : Handle) (f : Entity → Entity) : World :=
  { w with store := { w.store with pool := w.store.pool.edit h f } }

theorem Withheld.lt (hw : w.Reachable) {h : Handle} (hh : w.Withheld h) : h < w.store.pool.next := by
  rcases hh with ⟨type, c, hfind, hmem⟩ | ⟨k, hfree, ⟨e, he, rfl, -⟩, -⟩
  · exact (hw.inOrder.store.sound.committed hfind).live h hmem
  · obtain ⟨strays, hk⟩ := hw.inOrder.sessions k hfree
    exact (hk.ledger.live e he).1

theorem not_withheld {h : Handle} (howned : ∀ c ∈ w.store.repository.caches, h ∉ c.entities)
    (hknown : ∀ k, ¬ (w.session k).Astray w.store.pool h) : ¬ w.Withheld h := by
  intro hh
  rcases hh with ⟨type, c, hfind, hmem⟩ | ⟨k, -, hastray⟩
  · exact howned c (Caches.mem_of_find? hfind) hmem
  · exact hknown k hastray

theorem Reachable.make (hw : w.Reachable) {e : Entity} (he : e.Plain) : (w.make e).Reachable := by
  have hextends := Pool.extends_alloc w.store.pool e
  refine hw.outside hextends.next_le ?_ ?_ ?_ (hw.inOrder.store.plain.pool.alloc lasting_plain he)
  · exact fun h hh => hextends.kept h (hh.lt hw)
  · exact fun h hh => hextends.typeName hh
  · exact fun h hh => hextends.id hh

theorem Reachable.edit (hw : w.Reachable) {h : Handle} {f : Entity → Entity}
    (hfree : ¬ w.Withheld h) (htype : (f (w.store.pool.entity h)).type = (w.store.pool.entity h).type)
    (hid : (f (w.store.pool.entity h)).id = (w.store.pool.entity h).id)
    (hplain : (f (w.store.pool.entity h)).Plain) : (w.edit h f).Reachable := by
  refine hw.outside (Nat.le_refl _) ?_ ?_ ?_
    (hw.inOrder.store.plain.pool.edit fun _ => hplain)
  · intro k hk
    refine Pool.entity_edit_of_ne fun heq => ?_
    exact hfree (heq ▸ hk)
  · intro k _
    by_cases hk : k = h
    · rw [hk, Pool.typeName, Pool.entity_edit_self, htype]
      rfl
    · rw [Pool.typeName, Pool.entity_edit_of_ne hk]
      rfl
  · intro k _
    by_cases hk : k = h
    · rw [hk, Pool.id, Pool.entity_edit_self, hid]
      rfl
    · rw [Pool.id, Pool.entity_edit_of_ne hk]
      rfl

end World

end EntityStore
