import EntityStore.Proofs.Cache.Numbering

/-!
# Ids in the order in which they are drawn

Numbering a list draws one id after the other from a sequence. Each one is beyond all that were
drawn before it, and so beyond whatever the sequence had reached; an id that cannot be drawn ends
the numbering with the failure that says so.
-/

namespace EntityStore

/-- The ids of those entities of a list that had none before. -/
def Pool.given (p q : Pool) (hs : List Handle) : List EntityId :=
  (hs.filter fun h => (p.id h).isNone).filterMap q.id

/-- Ids that were drawn one after the other from a sequence. -/
structure Drawn (ids : List EntityId) (last last' : EntityId) : Prop where
  ascending : ids.Pairwise fun a b => a.toInt < b.toInt
  /-- They are beyond where the sequence stood, and not beyond where it stands. -/
  beyond : ∀ id ∈ ids, last.toInt < id.toInt ∧ id.toInt ≤ last'.toInt

theorem Drawn.mono {ids : List EntityId} {last last' last'' : EntityId} (h : Drawn ids last last')
    (hle : last'.toInt ≤ last''.toInt) : Drawn ids last last'' :=
  ⟨h.ascending, fun id hid => ⟨(h.beyond id hid).1, Int.le_trans (h.beyond id hid).2 hle⟩⟩

namespace Pool

variable {p p' q q' : Pool} {h : Handle} {hs : List Handle}

theorem given_cons_of_id {id : EntityId} (hid : p.id h = some id) :
    p.given q (h :: hs) = p.given q hs := by
  rw [given, given, List.filter_cons_of_neg]
  rw [hid]
  exact Bool.false_ne_true

theorem given_cons_of_none (hid : p.id h = none) {id : EntityId} (hqid : q.id h = some id) :
    p.given q (h :: hs) = id :: p.given q hs := by
  rw [given, given, List.filter_cons_of_pos, List.filterMap_cons_some hqid]
  rw [hid]
  rfl

/-- What a list was given depends on the ids of its entities. -/
theorem given_congr (hp : ∀ h ∈ hs, p'.id h = p.id h) (hq : ∀ h ∈ hs, q'.id h = q.id h) :
    p'.given q' hs = p.given q hs := by
  have hfilter : hs.filter (fun h => (p'.id h).isNone) = hs.filter fun h => (p.id h).isNone :=
    List.filter_congr fun h hh => by rw [hp h hh]
  rw [given, given, hfilter]
  exact List.filterMap_congr fun h hh => hq h (List.mem_of_mem_filter hh)

theorem mem_given {id : EntityId} :
    id ∈ p.given q hs ↔ ∃ h ∈ hs, p.id h = none ∧ q.id h = some id := by
  simp [given, List.mem_filterMap, and_assoc]

end Pool

namespace Store

/-- A sequence moves on with every id. -/
theorem lt_of_advance {type : String} {last id : EntityId} (h : (advance type last).1 = .ok id) :
    last.toInt < id.toInt := by
  cases hnext : last.next? with
  | none =>
    rw [Cache.advance_of_none hnext] at h
    cases h
  | some next =>
    rw [Cache.advance_of_some hnext] at h
    obtain rfl := Except.ok.inj h
    have hsucc := EntityId.toInt_of_next? hnext
    omega

end Store

namespace Cache

open Store (advance)

/-- No id of a cache is larger than the largest. -/
theorem id_le_getD_maxId? (pool : Pool) (c : Cache) {id : EntityId}
    (hid : id ∈ (pool.roster c.entities).ids) : id.toInt ≤ ((c.maxId? pool).getD 0).toInt := by
  have hmax := maxId?_spec pool c
  cases hmaxId : c.maxId? pool with
  | none =>
    rw [hmaxId] at hmax
    rw [hmax] at hid
    exact absurd hid List.not_mem_nil
  | some m =>
    rw [hmaxId] at hmax
    exact hmax.2 id hid

/-- Numbering a list draws the ids it gives, in the order of the list. -/
theorem assignIds_drawn (type : String) {hs : List Handle} (hnodup : hs.Nodup) {p q : Pool}
    {last last' : EntityId} {n : Nat}
    (hrun : assignIds (advance type) hs p last = (.ok n, q, last')) :
    Drawn (p.given q hs) last last' := by
  induction hs generalizing p last n with
  | nil => exact ⟨.nil, fun id hid => absurd hid List.not_mem_nil⟩
  | cons h rest ih =>
    obtain ⟨hh, hrest⟩ := List.nodup_cons.mp hnodup
    cases hid : p.id h with
    | some id =>
      rw [assignIds_cons_of_id hid] at hrun
      rw [Pool.given_cons_of_id hid]
      exact ih hrest hrun
    | none =>
      cases hnext : last.next? with
      | none =>
        rw [assignIds_cons_of_error hid (advance_of_none hnext)] at hrun
        cases hrun
      | some id =>
        obtain ⟨p', hp'⟩ : ∃ p', p' = p.edit h fun e => e.setId (some id) := ⟨_, rfl⟩
        rw [assignIds_cons_of_next hid (advance_of_some hnext), ← hp'] at hrun
        have hframe := (assignIds_frame (advance type) rest p' id).kept h (.inl hh)
        rcases hrest' : assignIds (advance type) rest p' id with ⟨e | n', q', last''⟩
        · rw [hrest'] at hrun
          cases hrun
        · rw [hrest'] at hrun hframe
          obtain ⟨-, rfl, rfl⟩ : n' + 1 = n ∧ q' = q ∧ last'' = last' := by
            simpa [Except.map] using hrun
          -- the rest is numbered from the id that `h` was given, so all its ids lie beyond that one
          obtain ⟨hascending, hbeyond⟩ := ih hrest hrest'
          have hqid : q'.id h = some id := by
            rw [Pool.id, hframe, hp', Pool.entity_edit_self]
            rfl
          have hsame : p'.given q' rest = p.given q' rest := by
            refine Pool.given_congr (fun k hk => ?_) fun _ _ => rfl
            have hne : k ≠ h := by
              rintro rfl
              exact hh hk
            rw [Pool.id, hp', Pool.entity_edit_of_ne hne, Pool.id]
          rw [hsame] at hascending hbeyond
          have hsucc := EntityId.toInt_of_next? hnext
          have hreached := assignIds_advance type hrest p' id
          rw [hrest'] at hreached
          have hadvanced := hreached.2.advanced
          rw [Pool.given_cons_of_none hid hqid]
          refine ⟨List.pairwise_cons.mpr ⟨fun x hx => (hbeyond x hx).1, hascending⟩, ?_⟩
          refine List.forall_mem_cons.mpr ⟨⟨by omega, by omega⟩, fun x hx => ⟨?_, (hbeyond x hx).2⟩⟩
          have hlt := (hbeyond x hx).1
          omega

end Cache

end EntityStore
