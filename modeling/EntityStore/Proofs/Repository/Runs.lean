import EntityStore.Proofs.Repository.Requests

/-!
# Runs of a store

A run is a sequence of requests. Between two of them others may do as they like with entities of
their own, and to a degree that depends on what is to be shown also with those of the repository;
and loaders may yield something else every time.

Each request is recorded as a *moment*: what was asked, and of which store. The ids that become known
at a moment are those that entities of loaded types hold and those that are handed out. The sequence
of a type has reached every id of it that is known, and what is handed out later lies beyond.
-/

namespace EntityStore

/-- A request, and the store it was made of. -/
structure Moment where
  store : Store
  request : Request

namespace Moment

/-- The store when the request has been prepared. -/
def ready (m : Moment) : Store := m.request.prepare m.store

/-- The store that the request leaves. -/
def after (m : Moment) : Store := (exec m.request.run m.store).2

/-- The ids of a type that are handed out: one that is drawn, or those that a commit gives to
entities without one. -/
def given (m : Moment) (type : String) : List EntityId :=
  match m.request with
  | .newId t => if t = type then (exec (Store.newId t) m.store).1.toOption.toList else []
  | .commit changes => m.store.committedIds changes type
  | _ => []

/-- The ids of a type that are known: those of its entities, when they have been loaded and when the
request is done, and those that are handed out. -/
def known (m : Moment) (type : String) : List EntityId :=
  m.ready.heldIds type ++ m.given type ++ m.after.heldIds type

/-- What is handed out lies beyond some ids; and where nothing lies beyond them, the request fails
for that reason. -/
structure Beyond (m : Moment) (ids : String → List EntityId) : Prop where
  given : ∀ {type}, ∀ id ∈ m.given type, ∀ old ∈ ids type, old.toInt < id.toInt
  /-- No id is drawn after the last one there is. -/
  exhausted : ∀ {type}, m.request = .newId type → EntityId.last ∈ ids type →
    (exec (Store.newId type) m.store).1 = .error (.idsExhausted type)
  /-- Where a type would need more ids than there are beyond those and its own, a commit fails. -/
  short : ∀ {changes staged s}, m.request = .commit changes →
    exec (changes.foldlM Store.stage []) m.store = (.ok staged, s) →
    (∀ c ∈ staged, (s.pool.roster c.entities).UniqueKeys) →
    ∀ c ∈ staged, ∀ id, id ∈ ids c.type ∨ id ∈ (s.pool.roster c.entities).ids →
      EntityId.last.toInt < id.toInt + (s.pool.roster c.entities).unnumbered →
      ∃ type, (exec (Store.commit changes) m.store).1 = .error (.idsExhausted type)

variable {m : Moment} {ids : String → List EntityId} {type : String} {id : EntityId}

theorem mem_given_of_newId (h : m.request = .newId type) {t : String} :
    id ∈ m.given t ↔ type = t ∧ (exec (Store.newId type) m.store).1 = .ok id := by
  rw [given, h]
  simp only
  split
  · next heq =>
    cases (exec (Store.newId type) m.store).1 with
    | error e => simp [Except.toOption]
    | ok id' => simp [Except.toOption, heq, eq_comm]
  · next hne => simp [hne]

/-- What the sequences had reached when the request was prepared is left behind. -/
theorem beyond_of_reached (hs : m.store.Upkept) (hlive : m.request.Live m.store)
    (hids : ∀ {type}, ∀ id ∈ ids type, m.ready.Reached type id) : m.Beyond ids := by
  obtain ⟨s, r⟩ := m
  refine ⟨?_, ?_, ?_⟩
  · intro type id hid old hold
    have hreached := (hids old hold).2
    cases r with
    | load t => exact absurd hid List.not_mem_nil
    | rollback changes => exact absurd hid List.not_mem_nil
    | newId t =>
      obtain ⟨rfl, hok⟩ := (mem_given_of_newId rfl).mp hid
      exact Int.lt_of_le_of_lt hreached (Store.lt_of_newId hok)
    | commit changes =>
      exact Int.lt_of_le_of_lt hreached ((hs.numbers hlive type).beyond id hid)
  · rintro type rfl hlast
    exact Store.newId_of_reached_last (hids _ hlast)
  -- the numbering of a cache begins at the largest of what its sequence has reached and its own ids,
  -- so no more ids are left than lie beyond any of these
  · rintro changes staged s₁ rfl hstaged hunique c hc id hid hshort
    refine hs.commit_of_short hlive hstaged hunique hc fun hroomy => ?_
    have hle : id.toInt ≤ ((s₁.pool.roster c.entities).latest (s₁.repository.lastId c.type)).toInt := by
      rcases hid with hknown | hheld
      · have hreached := (hids id hknown).2
        rw [ready, Request.prepare, hstaged] at hreached
        exact Int.le_trans hreached (Roster.le_latest _ _)
      · exact Roster.id_le_latest _ hheld
    unfold Roster.Roomy at hroomy
    omega

/-- Drawing an id adds no entity, so what is held afterwards was held before. -/
theorem heldIds_after_newId (s : Store) (t : String) :
    (after ⟨s, .newId t⟩).heldIds = (ready ⟨s, .newId t⟩).heldIds := by
  rw [after, Store.snd_run_newId, ready, Request.prepare, Store.exec_newId]
  rcases exec (Store.checkout t) s with ⟨e | c, s'⟩
  · rfl
  · simp only
    cases (Store.advance t ((s'.pool.roster c.entities).latest (s'.repository.lastId t))).1 <;> rfl

/-- What is handed out at one moment ascends, and lies beyond whatever else is held then. -/
theorem ascending (hs : m.store.Upkept) (hlive : m.request.Live m.store) (type : String) :
    (m.given type).Pairwise (fun a b => a.toInt < b.toInt) ∧
      ∀ id ∈ m.given type, ∀ held ∈ m.after.heldIds type,
        held ∈ m.given type ∨ held.toInt < id.toInt := by
  have hready := hs.progress (hs.ask hlive).1
  have hbeyond : m.Beyond m.ready.heldIds :=
    beyond_of_reached hs hlive fun id hid => hready.reached_of_held hid
  obtain ⟨s, r⟩ := m
  cases r with
  | load t => exact ⟨.nil, fun id hid => absurd hid List.not_mem_nil⟩
  | rollback changes => exact ⟨.nil, fun id hid => absurd hid List.not_mem_nil⟩
  | newId t =>
    refine ⟨?_, fun id hid held hheld => .inr ?_⟩
    · unfold given
      simp only
      split
      · cases (exec (Store.newId t) s).1 with
        | error e => exact .nil
        | ok id => exact List.pairwise_singleton _ id
      · exact .nil
    · rw [heldIds_after_newId] at hheld
      exact hbeyond.given id hid held hheld
  | commit changes =>
    have hnumbers := hs.numbers hlive type
    exact ⟨hnumbers.ascending, hnumbers.others⟩

/-- What becomes known at a moment has been reached after it. -/
theorem reached_of_known (hs : m.store.Upkept) (hlive : m.request.Live m.store)
    (hid : id ∈ m.known type) : m.after.Reached type id := by
  obtain ⟨hready, hafter⟩ := hs.ask hlive
  rcases List.mem_append.mp hid with hid | hheld
  · rcases List.mem_append.mp hid with hheld | hgiven
    · exact ((hs.progress hready).reached_of_held hheld).progress hafter
    · obtain ⟨s, r⟩ := m
      cases r with
      | load t => exact absurd hgiven List.not_mem_nil
      | rollback changes => exact absurd hgiven List.not_mem_nil
      | newId t =>
        obtain ⟨rfl, hok⟩ := (mem_given_of_newId rfl).mp hgiven
        rw [show after ⟨s, .newId t⟩ = (exec (Store.newId t) s).2 from Store.snd_run_newId s t]
        exact hs.reached_of_newId hok
      | commit changes => exact (hs.numbers hlive type).reached id hgiven
  · exact ((hs.progress hready).progress hafter).reached_of_held hheld

end Moment

/-- Entities of one id and one type. -/
def Entity.SameKey (e e' : Entity) : Prop := e'.id = e.id ∧ e'.type.name = e.type.name

/-- Editing that leaves the id and the type of an entity alone. -/
theorem Pool.sameKey_edit {p : Pool} {h : Handle} {f : Entity → Entity}
    (hf : (p.entity h).SameKey (f (p.entity h))) (k : Handle) :
    (p.entity k).SameKey ((p.edit h f).entity k) := by
  by_cases hk : k = h
  · rw [hk, entity_edit_self]
    exact hf
  · rw [entity_edit_of_ne hk]
    exact ⟨rfl, rfl⟩

namespace Store

/-- A store that nothing has been asked of. -/
structure Untouched (s : Store) : Prop where
  caches : s.repository.caches = []
  /-- Loaders yield entities of their type. -/
  typed : s.Supplies fun type e => e.type.name = type

/-- Others make entities and edit them, those of the repository as far as they may; files and what
loaders yield change. -/
structure Meanwhile (May : Entity → Entity → Prop) (s s' : Store) : Prop where
  next_le : s.pool.next ≤ s'.pool.next
  owned : ∀ h, s.Owns h → May (s.pool.entity h) (s'.pool.entity h)
  caches : s'.repository.caches = s.repository.caches
  lastId : s'.repository.lastId = s.repository.lastId
  typed : s'.Supplies fun type e => e.type.name = type

variable {s s' : Store} {May : Entity → Entity → Prop}

theorem Untouched.upkept (h : s.Untouched) : s.Upkept where
  keyed := fun hfind => by rw [h.caches] at hfind; cases hfind
  numbered := fun hfind => by rw [h.caches] at hfind; cases hfind
  reached := fun hfind => by rw [h.caches] at hfind; cases hfind
  typed := h.typed

/-- A store is kept up as long as others leave the ids and the types of its entities alone. -/
theorem Upkept.meanwhile (hs : s.Upkept) (h : s.Meanwhile May s')
    (hMay : ∀ {e e'}, May e e' → e.SameKey e') : s'.Upkept := by
  have hkey : ∀ {type c}, s.repository.caches.find? type = some c → ∀ k ∈ c.entities,
      s'.pool.id k = s.pool.id k ∧ s'.pool.typeName k = s.pool.typeName k :=
    fun hfind k hk => hMay (h.owned k ⟨_, _, hfind, hk⟩)
  refine ⟨?_, ?_, ?_, h.typed⟩
  · intro type c hfind
    rw [h.caches] at hfind
    exact (hs.keyed hfind).congr_keys h.next_le (fun k hk => (hkey hfind k hk).1)
      fun k hk => (hkey hfind k hk).2
  · intro type c hfind k hk
    rw [h.caches] at hfind
    rw [(hkey hfind k hk).1]
    exact hs.numbered hfind k hk
  · intro type c hfind id hid
    rw [h.caches] at hfind
    rw [h.lastId]
    obtain ⟨k, hk, hkid⟩ := Pool.mem_ids_roster.mp hid
    rw [(hkey hfind k hk).1] at hkid
    exact hs.reached hfind id (Pool.mem_ids_roster.mpr ⟨k, hk, hkid⟩)

end Store

/-- The moments of a run, and the store after it. -/
inductive Run (May : Entity → Entity → Prop) : List Moment → Store → Prop
  | start {s : Store} (h : s.Untouched) : Run May [] s
  | ask {ms : List Moment} {s : Store} (h : Run May ms s) (r : Request) (hlive : r.Live s) :
    Run May (ms ++ [⟨s, r⟩]) (Moment.after ⟨s, r⟩)
  | meanwhile {ms : List Moment} {s s' : Store} (h : Run May ms s) (h' : s.Meanwhile May s') :
    Run May ms s'

namespace Run

variable {ms : List Moment} {s : Store} {May : Entity → Entity → Prop}

/-- The store after a run is kept up, and its sequences have reached all that is known. -/
theorem upkept (h : Run May ms s) (hMay : ∀ {e e'}, May e e' → e.SameKey e') :
    s.Upkept ∧ ∀ m ∈ ms, ∀ {type}, ∀ id ∈ m.known type, s.Reached type id := by
  -- what was reached at one moment stays reached: no step moves a sequence of a loaded type back
  induction h with
  | start h => exact ⟨h.upkept, fun m hm => absurd hm List.not_mem_nil⟩
  | @ask ms s _ r hlive ih =>
    obtain ⟨hs, hreached⟩ := ih
    have hprogress : Store.Progress s (Moment.after ⟨s, r⟩) := (hs.ask hlive).1.trans (hs.ask hlive).2
    refine ⟨hs.progress hprogress, fun m hm type id hid => ?_⟩
    rcases List.mem_append.mp hm with hm | hm
    · exact (hreached m hm id hid).progress hprogress
    · obtain rfl := List.mem_singleton.mp hm
      exact Moment.reached_of_known hs hlive hid
  | meanwhile _ h' ih =>
    refine ⟨ih.1.meanwhile h' hMay, fun m hm type id hid => ?_⟩
    obtain ⟨hloaded, hle⟩ := ih.2 m hm id hid
    exact ⟨h'.caches ▸ hloaded, h'.lastId ▸ hle⟩

/-- Every request was made of a store that is kept up. -/
theorem moments (h : Run May ms s) (hMay : ∀ {e e'}, May e e' → e.SameKey e') :
    ∀ m ∈ ms, m.store.Upkept ∧ m.request.Live m.store := by
  induction h with
  | start _ => exact fun m hm => absurd hm List.not_mem_nil
  | ask h r hlive ih =>
    intro m hm
    rcases List.mem_append.mp hm with hm | hm
    · exact ih m hm
    · obtain rfl := List.mem_singleton.mp hm
      exact ⟨(h.upkept hMay).1, hlive⟩
  | meanwhile _ _ ih => exact ih

theorem progress (h : Run May ms s) (hMay : ∀ {e e'}, May e e' → e.SameKey e') {m : Moment}
    (hm : m ∈ ms) : Store.Progress m.store m.after := by
  obtain ⟨hs, hlive⟩ := h.moments hMay m hm
  exact (hs.ask hlive).1.trans (hs.ask hlive).2

/-- What is handed out lies beyond all that was known at any moment before. -/
theorem pairwise_beyond (h : Run May ms s) (hMay : ∀ {e e'}, May e e' → e.SameKey e') :
    ms.Pairwise fun earlier m => m.Beyond earlier.known := by
  induction h with
  | start _ => exact .nil
  | ask h r hlive ih =>
    obtain ⟨hs, hreached⟩ := h.upkept hMay
    refine List.pairwise_append.mpr ⟨ih, List.pairwise_singleton _ _, fun earlier hearlier m hm => ?_⟩
    obtain rfl := List.mem_singleton.mp hm
    exact Moment.beyond_of_reached hs hlive fun id hid =>
      (hreached earlier hearlier id hid).progress (hs.ask hlive).1
  | meanwhile _ _ ih => exact ih

/-- **Ids are handed out in ascending order and never twice.** In a run in which others leave the
ids and types of committed entities alone, every id that is drawn, or given by a commit to an entity
without one, is greater than all ids of the type that were known at any moment before, and than all
that its entities hold once they have been loaded. Those that one commit gives ascend, and are
greater than the other ids it commits. Where there is no such id the request fails with the id
sequence exhausted. -/
theorem given_beyond_known (h : Run Entity.SameKey ms s) :
    ms.Pairwise (fun earlier m => m.Beyond earlier.known) ∧
      ∀ m ∈ ms, m.Beyond m.ready.heldIds ∧ ∀ type,
        (m.given type).Pairwise (fun a b => a.toInt < b.toInt) ∧
          ∀ id ∈ m.given type, ∀ held ∈ m.after.heldIds type,
            held ∈ m.given type ∨ held.toInt < id.toInt := by
  refine ⟨h.pairwise_beyond id, fun m hm => ?_⟩
  obtain ⟨hs, hlive⟩ := h.moments id m hm
  have hready := hs.progress (hs.ask hlive).1
  have hbeyond := Moment.beyond_of_reached hs hlive fun id hid => hready.reached_of_held hid
  refine ⟨hbeyond, fun type => ?_⟩
  exact m.ascending hs hlive type

open Samples

theorem supplies_redAndBlue {made : List Entity} {P : String → Entity → Prop}
    (hP : ∀ e ∈ [tagNamed (some 1) "red", tagNamed (some 2) "blue"], P "tag" e) :
    (redAndBlue made).Supplies P := by
  intro type loader directory es hloader hes
  have hfind : (if type = "tag" then
      some (Loader.ofEntities [tagNamed (some 1) "red", tagNamed (some 2) "blue"]) else none)
      = some loader := hloader
  split at hfind
  · next htype =>
    obtain rfl := Option.some.inj hfind
    obtain rfl := Except.ok.inj hes
    exact htype ▸ hP
  · cases hfind

theorem untouched_redAndBlue (made : List Entity) : (redAndBlue made).Untouched where
  caches := rfl
  typed := supplies_redAndBlue (P := fun type e => e.type.name = type) (by decide)

/-- An id is drawn, a tag without one is committed and then one with the last id there is: after
that no id can be drawn. -/
theorem given_beyond_known_redAndBlue :
    let s := redAndBlue [tagNamed none "green", tagNamed (some EntityId.last) "grey"]
    let m₁ : Moment := ⟨s, .newId "tag"⟩
    let m₂ : Moment := ⟨m₁.after, .commit [⟨.add, 0⟩]⟩
    let m₃ : Moment := ⟨m₂.after, .commit [⟨.add, 1⟩]⟩
    let m₄ : Moment := ⟨m₃.after, .newId "tag"⟩
    Run Entity.SameKey [m₁, m₂, m₃, m₄] m₄.after ∧ m₁.given "tag" = [3] ∧ m₂.given "tag" = [4] ∧
      (exec (Store.newId "tag") m₄.store).1 = .error (.idsExhausted "tag") := by
  intro s m₁ m₂ m₃ m₄
  have hrun : Run Entity.SameKey [m₁, m₂, m₃, m₄] m₄.after :=
    (((Run.start (untouched_redAndBlue _)).ask m₁.request trivial).ask m₂.request
      (by decide +kernel) |>.ask m₃.request (by decide +kernel)).ask m₄.request trivial
  refine ⟨hrun, by decide +kernel, by decide +kernel, ?_⟩
  obtain ⟨hpairwise, -⟩ := hrun.given_beyond_known
  have hbeyond : m₄.Beyond m₃.known := by
    simp only [List.pairwise_cons] at hpairwise
    exact hpairwise.2.2.1 m₄ List.mem_cons_self
  exact hbeyond.exhausted rfl (by decide +kernel)

end Run

end EntityStore
