import EntityStore.Proofs.Session.Conduct

/-!
# Runs of a session

A session is called in any order, about any entities. Between its calls others ask things of the
store, make entities and edit them; what the session tracks they edit, too, but they leave its ids
alone. In every state that comes about in this way ledger and caches are coherent. From this follows
when a call violates the contract of the ledger, and, for stores that stay tidy, that the caches list
exactly what is tracked and has not been removed.
-/

namespace EntityStore

/-- What happens to a session and to the store it works on. To what degree others edit the entities
of the repository, and what holds of the store whenever they have, depends on what is to be shown. -/
inductive Work.Step (May : Entity → Entity → Prop) (P : Store → Prop) : Work → Work → Prop
  /-- The session is called about an entity that lives, and the call does not violate the contract. -/
  | call {w : Work} (c : Session.Call) (hlive : ∀ h ∈ c.entity?, h < w.store.pool.next)
    (hlawful : ¬ Session.Faults c.run w) : Step May P w (exec c.run w).2
  /-- Others ask something of the store. -/
  | ask {w : Work} (r : Request) (hlive : r.Live w.store) :
    Step May P w { w with store := (exec r.run w.store).2 }
  /-- Others make entities and edit them. -/
  | meanwhile {w : Work} {s : Store} (h : w.store.Meanwhile May s)
    (hid : ∀ e ∈ w.session.ledger, s.pool.id e.entity = w.store.pool.id e.entity)
    (htype : ∀ e ∈ w.session.ledger, s.pool.typeName e.entity = w.store.pool.typeName e.entity)
    (hP : P s) : Step May P w { w with store := s }

/-- The states that come about. -/
inductive Work.Reachable (May : Entity → Entity → Prop) (P : Store → Prop) : Work → Prop
  | fresh {s : Store} (h : s.Untouched) (hP : P s) : Reachable May P ⟨s, .fresh⟩
  | step {w w' : Work} (h : Reachable May P w) (hstep : w.Step May P w') : Reachable May P w'

namespace Session

variable {May : Entity → Entity → Prop} {P : Store → Prop} {known : Handle → Prop} {w w' : Work}

theorem Call.newcomer_live {c : Call} {n : Handle} (hlive : ∀ h ∈ c.entity?, h < n) :
    ∀ h ∈ c.newcomer?, h < n := by
  cases c <;> first | exact hlive | exact nofun

/-- **Preserved by every step**, if what others do leaves the store calm. -/
theorem Coherent.step (hw : Coherent known w) (hMay : ∀ {e e'}, May e e' → e.SameKey e')
    (hcalm : ∀ {s s' : Store}, s.Calm known → s.Meanwhile May s' → P s' → s'.Calm known)
    (h : w.Step May P w') : Coherent known w' := by
  cases h with
  | call c hlive hlawful =>
    exact (c.conducts hw (Call.newcomer_live hlive)).coherent.resolve_left hlawful
  | ask r hlive =>
    obtain ⟨hready, hafter⟩ := hw.store.ask hlive
    exact hw.progress (hready.trans hafter)
  | meanwhile h hid htype hP =>
    exact hw.congr (hw.store.meanwhile h hMay) (hcalm hw.calm h hP) h.next_le hid htype

/-- Every state that comes about is coherent. -/
theorem coherent_of_reachable (hw : w.Reachable May P) (hMay : ∀ {e e'}, May e e' → e.SameKey e')
    (hstart : ∀ {s : Store}, s.Untouched → P s → s.Calm known)
    (hcalm : ∀ {s s' : Store}, s.Calm known → s.Meanwhile May s' → P s' → s'.Calm known) :
    Coherent known w := by
  induction hw with
  | fresh h hP => exact coherent_nil h.upkept (hstart h hP) false
  | step _ hstep ih => exact ih.step hMay hcalm hstep

/-! ## Violations -/

/-- Whatever others do, as long as they leave ids and types alone. -/
theorem coherent_to_nobody (hw : w.Reachable Entity.SameKey fun _ => True) :
    Coherent (fun _ => False) w :=
  coherent_of_reachable hw id (fun _ _ => .inl nofun) fun _ _ _ => .inl nofun

/-- Where no slug depends on an id and nobody else edits the entities of the repository, the store
stays tidy: no copies are left behind, and all handles may be known. -/
theorem coherent_to_everybody (hw : w.Reachable Eq Store.SlugFixed) : Coherent (fun _ => True) w :=
  coherent_of_reachable hw (fun heq => heq ▸ ⟨rfl, rfl⟩) (fun h hP => .inr (h.tidy hP))
    fun hs h hP => .inr ((hs.resolve_left fun hlive => Nat.lt_irrefl _ (hlive _ trivial)).meanwhile h hP)

/-- What lives and is not astray may be known. -/
theorem Coherent.widen (hw : Coherent (fun _ => False) w) :
    Coherent (fun h => h < w.store.pool.next ∧ ¬ w.session.Astray w.store.pool h) w where
  store := hw.store
  calm := .inl fun _ hknown => hknown.1
  ledger := hw.ledger
  keyed := hw.keyed
  shown := hw.shown
  listed := by
    intro e he hknown hstate
    by_contra hnone
    -- tracked, not removed and not listed: that is to be astray
    exact hknown.2 ⟨⟨e, he, rfl, hstate⟩, fun c hfind hmem => hnone ⟨c, hfind, hmem⟩⟩
  gone := hw.gone

/-- Nobody knows of what is astray. -/
theorem Coherent.not_known_of_astray (hw : Coherent known w) {h : Handle}
    (hastray : w.session.Astray w.store.pool h) : ¬ known h := by
  intro hknown
  obtain ⟨⟨e, he, rfl, hstate⟩, hnot⟩ := hastray
  obtain ⟨c, hfind, hmem⟩ := hw.listed e he hknown hstate
  exact hnot c hfind hmem

/-- **When a call violates the contract of the ledger**: exactly when it replaces an entity by one
that the session has removed, and that is not astray. No entity that somebody has goes astray by a
call that does not violate the contract. -/
theorem faults_iff_bringsBack (hw : w.Reachable Entity.SameKey fun _ => True) (c : Call)
    (hlive : ∀ h ∈ c.entity?, h < w.store.pool.next)
    (hknown : ∀ h ∈ c.newcomer?, ¬ w.session.Astray w.store.pool h) :
    (Faults c.run w ↔ ∃ h, c = .replace h ∧ BringsBack w h) ∧
      (¬ Faults c.run w → ∀ h < w.store.pool.next,
        (exec c.run w).2.session.Astray (exec c.run w).2.store.pool h →
          w.session.Astray w.store.pool h) := by
  -- what lives now and is not astray stays known while the call goes on, so an entity that went
  -- astray by the call would be known and yet not listed
  have hcoherent := (coherent_to_nobody hw).widen
  have hnewcomer := Call.newcomer_live hlive
  have hconducts := c.conducts hcoherent hnewcomer
  refine ⟨⟨fun hfault => ?_, ?_⟩, fun hlawful h hh hastray => ?_⟩
  · refine (hconducts.fault hfault).resolve_left ?_
    rintro ⟨h, hh, hunknown⟩
    exact hunknown ⟨hnewcomer h hh, hknown h hh⟩
  · rintro ⟨h, rfl, hback⟩
    exact hcoherent.faults_of_bringsBack hback
  · have hafter := hconducts.coherent.resolve_left hlawful
    by_contra hnot
    exact hafter.not_known_of_astray hastray ⟨hh, hnot⟩

instance (m : SessionM α) (w : Work) : Decidable (Faults m w) :=
  match h : (exec m w).1 with
  | .error (.violation v) => .isTrue ⟨v, h⟩
  | .error (.store e) => .isFalse fun ⟨_, hv⟩ => by rw [h] at hv; cases hv
  | .ok a => .isFalse fun ⟨_, hv⟩ => by rw [h] at hv; cases hv

open Samples

/-- What a call leaves. -/
def after (w : Work) (c : Call) : Work := (exec c.run w).2

/-- Somebody edits an entity in place. -/
def edited (w : Work) (h : Handle) (f : Entity → Entity) : Work :=
  { w with store := { w.store with pool := w.store.pool.edit h f } }

theorem reachable_redAndBlue (made : List Entity) :
    Work.Reachable Entity.SameKey (fun _ => True) ⟨redAndBlue made, .fresh⟩ :=
  .fresh (Run.untouched_redAndBlue made) trivial

theorem reachable_edited (hw : w.Reachable Entity.SameKey fun _ => True) {h : Handle}
    {f : Entity → Entity} (hf : ∀ e, Entity.SameKey e (f e)) :
    (edited w h f).Reachable Entity.SameKey fun _ => True := by
  have hkey := Pool.sameKey_edit (hf (w.store.pool.entity h))
  exact hw.step (.meanwhile
    ⟨Nat.le_refl _, fun k _ => hkey k, rfl, rfl, (coherent_to_nobody hw).store.typed⟩
    (fun e _ => (hkey e.entity).1) (fun e _ => (hkey e.entity).2) trivial)

/-- A session that has removed the red tag and added a crimson one of its id. -/
def recoloured : Work :=
  after (after (after ⟨redAndBlue [tagNamed (some 1) "crimson"], .fresh⟩ (.getById "tag" 1))
    (.remove 3)) (.add 0)

theorem reachable_recoloured : recoloured.Reachable Entity.SameKey fun _ => True :=
  (((reachable_redAndBlue _).step (.call (.getById "tag" 1) nofun (by decide +kernel))).step
    (.call (.remove 3) (by decide +kernel) (by decide +kernel))).step
    (.call (.add 0) (by decide +kernel) (by decide +kernel))

/-- The red tag cannot replace the crimson one without a violation; that it cannot be added beside
it is none. -/
theorem faults_iff_bringsBack_recoloured :
    recoloured.Reachable Entity.SameKey (fun _ => True) ∧ Faults (Call.replace 3).run recoloured ∧
      ¬ Faults (Call.add 3).run recoloured := by
  have hback : BringsBack recoloured 3 := by
    obtain ⟨c, hfind, htaken⟩ := Option.map_eq_some_iff.mp
      (show ((recoloured.session.caches.find? (recoloured.store.pool.typeName 3)).map fun c =>
        (c.replace recoloured.store.pool 3).1) = some (.ok 0) by decide +kernel)
    exact ⟨by decide +kernel, c, hfind, 0, htaken⟩
  obtain ⟨hreplace, -⟩ := faults_iff_bringsBack reachable_recoloured (.replace 3) (by decide +kernel)
    (by decide +kernel)
  obtain ⟨hadd, -⟩ := faults_iff_bringsBack reachable_recoloured (.add 3) (by decide +kernel)
    (by decide +kernel)
  refine ⟨reachable_recoloured, hreplace.mpr ⟨3, rfl, hback⟩, fun hfault => ?_⟩
  obtain ⟨h, hh, -⟩ := hadd.mp hfault
  cases hh

/-- While the blue tag of the repository is named red no copies of the tags can be shown; some are
left behind. When it is blue again the tags are checked out, and the red one is removed. -/
def forsaken : Work :=
  let w : Work := ⟨(exec (Request.load "tag").run (redAndBlue [])).2, .fresh⟩
  let named (name : String) (e : Entity) : Entity := e.set "name" (.value (.string name))
  after (after (edited (after (edited w 1 (named "red")) (.all "tag")) 1 (named "blue"))
    (.getById "tag" 1)) (.remove 4)

theorem reachable_forsaken : forsaken.Reachable Entity.SameKey fun _ => True := by
  have hloaded : Work.Reachable Entity.SameKey (fun _ => True)
      ⟨(exec (Request.load "tag").run (redAndBlue [])).2, .fresh⟩ :=
    (reachable_redAndBlue []).step (.ask (.load "tag") trivial)
  have hfailed := (reachable_edited (h := 1) (f := fun e => e.set "name" (.value (.string "red")))
    hloaded fun e => ⟨rfl, rfl⟩).step (.call (.all "tag") nofun (by decide +kernel))
  have hshown := (reachable_edited (h := 1) (f := fun e => e.set "name" (.value (.string "blue")))
    hfailed fun e => ⟨rfl, rfl⟩).step (.call (.getById "tag" 1) nofun (by decide +kernel))
  exact hshown.step (.call (.remove 4) (by decide +kernel) (by decide +kernel))

/-- Sessions do violate the contract of the ledger: when a removed entity is to replace one that was
added under its id, and when a copy that was left behind is added. -/
theorem faults_of_removed_or_left_behind :
    recoloured.Reachable Entity.SameKey (fun _ => True) ∧
      ¬ recoloured.session.Astray recoloured.store.pool 3 ∧
      (exec (replace 3) recoloured).1 = .error (.violation (.alreadyRegistered "tag")) ∧
      forsaken.Reachable Entity.SameKey (fun _ => True) ∧
      (exec (add 2) forsaken).1 = .error (.violation (.alreadyRegistered "tag")) :=
  ⟨reachable_recoloured, by decide +kernel, by decide +kernel, reachable_forsaken, by decide +kernel⟩

/-! ## What the caches list -/

/-- What is tracked reads as deleted exactly when it has been removed. -/
theorem Coherent.state?_iff (hw : Coherent known w) {h : Handle} :
    state? h w ≠ none ∧ state? h w ≠ some .deleted ↔
      ∃ e ∈ w.session.ledger, e.entity = h ∧ e.state ≠ .deleted := by
  constructor
  · rintro ⟨htracked, hshown⟩
    obtain ⟨e, he, rfl⟩ := exists_of_state?_ne_none htracked
    exact ⟨e, he, rfl, fun hdeleted => hshown (state?_of_deleted hw he hdeleted)⟩
  · rintro ⟨e, he, rfl, hstate⟩
    refine ⟨?_, fun hdeleted => ?_⟩
    · rw [state?, Ledger.state?, hw.ledger.find?_eq he]
      exact Option.some_ne_none _
    · obtain ⟨d, hd, heq, hdeleted⟩ := exists_of_state?_eq_deleted hdeleted
      rw [hw.ledger.eq_of_entity_eq hd he heq] at hdeleted
      exact hstate hdeleted

/-- **The caches list what is tracked and has not been removed.** Where no slug depends on an id and
nobody else edits the entities of the repository, the cache of every type that is checked out lists
no entity twice, and exactly those that the session tracks and that do not read as deleted; and
nothing is tracked of a type that is not checked out. -/
theorem listed_iff_tracked (hw : w.Reachable Eq Store.SlugFixed) :
    (∀ type c, w.session.caches.find? type = some c → c.entities.Nodup ∧
      ∀ h, h ∈ c.entities ↔ w.store.pool.typeName h = type ∧
        state? h w ≠ none ∧ state? h w ≠ some .deleted) ∧
      ∀ h, state? h w ≠ none → w.session.caches.find? (w.store.pool.typeName h) ≠ none := by
  have hcoherent := coherent_to_everybody hw
  refine ⟨fun type c hfind => ⟨(hcoherent.keyed hfind).nodup, fun h => ?_⟩, fun h htracked => ?_⟩
  · rw [hcoherent.state?_iff]
    constructor
    · exact fun hmem => ⟨hcoherent.typeName hfind hmem, hcoherent.shown hfind h hmem⟩
    · rintro ⟨rfl, e, he, rfl, hstate⟩
      obtain ⟨d, hd, hmem⟩ := hcoherent.listed e he trivial hstate
      obtain rfl : c = d := Option.some.inj (hfind.symm.trans hd)
      exact hmem
  · obtain ⟨e, he, rfl⟩ := exists_of_state?_ne_none htracked
    by_cases hdeleted : e.state = .deleted
    · exact hcoherent.gone e he hdeleted
    · obtain ⟨c, hfind, -⟩ := hcoherent.listed e he trivial hdeleted
      rw [hfind]
      exact Option.some_ne_none c

/-- The blue tag is removed and a green one is added: the red and the green one are listed, and
nothing else that is a tag is tracked without having been removed. -/
theorem listed_iff_tracked_redAndGreen :
    let w := after (after (after ⟨redAndBlue [tagNamed none "green"], .fresh⟩ (.getById "tag" 1))
      (.remove 4)) (.add 0)
    state? 4 w = some .deleted ∧ ∃ c, w.session.caches.find? "tag" = some c ∧ c.entities = [3, 0] ∧
      ∀ h, w.store.pool.typeName h = "tag" ∧ state? h w ≠ none ∧ state? h w ≠ some .deleted ↔
        h = 3 ∨ h = 0 := by
  intro w
  have hstart : Work.Reachable Eq Store.SlugFixed ⟨redAndBlue [tagNamed none "green"], .fresh⟩ :=
    .fresh (Run.untouched_redAndBlue _)
      (Run.slugFixed_redAndBlue (List.forall_mem_singleton.mpr Run.slugFixed_tag))
  have hw : w.Reachable Eq Store.SlugFixed :=
    ((hstart.step (.call (.getById "tag" 1) nofun (by decide +kernel))).step
      (.call (.remove 4) (by decide +kernel) (by decide +kernel))).step
      (.call (.add 0) (by decide +kernel) (by decide +kernel))
  obtain ⟨c, hfind, hlist⟩ : ∃ c, w.session.caches.find? "tag" = some c ∧ c.entities = [3, 0] :=
    Option.map_eq_some_iff.mp (by decide +kernel)
  obtain ⟨hlisted, -⟩ := listed_iff_tracked hw
  refine ⟨by decide +kernel, c, hfind, hlist, fun h => ?_⟩
  rw [← (hlisted "tag" c hfind).2 h, hlist]
  simp

end Session

end EntityStore
