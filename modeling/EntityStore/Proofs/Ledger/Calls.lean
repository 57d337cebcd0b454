import EntityStore.Ledger
import EntityStore.Proofs.Entity.Pool
import EntityStore.Proofs.Repository.Steps

/-!
# The calls of a ledger

A ledger is kept through calls that register entities, mark them and let go of them. A call that
registers or marks moves one entity to one state. It goes through just when the table allows the
move from the state the entity is stored with or from the one it reads as; otherwise the contract
is broken and nothing has changed.
-/

namespace EntityStore

/-- A ledger together with the entities it is about. -/
structure Books where
  pool : Pool
  ledger : Ledger

namespace Books

/-- The state that an entity is stored with, none when it is not tracked. -/
def stored? (b : Books) (h : Handle) : Option LifeState := (b.ledger.find? h).map (·.state)

/-- The state that an entity reads as. -/
def reads? (b : Books) (h : Handle) : Option LifeState := b.ledger.state? b.pool h

/-- The table allows the move, from what is stored or from what is read. -/
def Permits (b : Books) (h : Handle) (target : LifeState) : Prop :=
  ∃ source, (source = b.stored? h ∨ source = b.reads? h) ∧ LifeState.allows source target

/-- What is tracked lives. -/
def Alive (b : Books) : Prop := ∀ e ∈ b.ledger, e.entity < b.pool.next

/-- How a move leaves the books: one entity is in the state it was moved to, the others have kept
their entries, and an entity that was not tracked before comes last. -/
structure Moved (h : Handle) (target : LifeState) (b b' : Books) : Prop where
  stored : b'.stored? h = some target
  others : ∀ k, k ≠ h → b'.ledger.find? k = b.ledger.find? k
  order : b'.ledger.map LedgerEntry.entity =
    if b.ledger.contains h then b.ledger.map LedgerEntry.entity
    else b.ledger.map LedgerEntry.entity ++ [h]
  pool : b.pool.Extends b'.pool

end Books

namespace Ledger

/-! ## Entries -/

section Entries

variable {l : Ledger} {h k : Handle} {pool : Pool}

theorem entity_of_find? {e : LedgerEntry} (hfind : l.find? h = some e) : e.entity = h := by
  simpa using List.find?_some hfind

theorem find?_eq_none : l.find? h = none ↔ h ∉ l.map LedgerEntry.entity := by
  simp [find?]

theorem contains_iff : l.contains h = true ↔ h ∈ l.map LedgerEntry.entity := by
  rw [← not_iff_not, ← find?_eq_none, contains, Option.not_isSome_iff_eq_none]

theorem find?_append (l l' : Ledger) (h : Handle) :
    find? (l ++ l') h = (l.find? h).or (find? l' h) := List.find?_append

@[simp] theorem find?_singleton_self (state origin : LifeState) (snapshot : Snapshot) :
    find? [⟨h, state, origin, snapshot⟩] h = some ⟨h, state, origin, snapshot⟩ := by
  simp [find?]

theorem find?_singleton_of_ne {e : LedgerEntry} (hne : e.entity ≠ h) : find? [e] h = none := by
  simp [find?, hne]

/-- An update that leaves the entities of the entries alone. -/
theorem find?_update {f : LedgerEntry → LedgerEntry} (hf : ∀ e, (f e).entity = e.entity)
    (l : Ledger) (h k : Handle) :
    (l.update h f).find? k = (l.find? k).map fun e => if e.entity = h then f e else e := by
  induction l with
  | nil => rfl
  | cons e rest ih =>
    have hentity : (if e.entity = h then f e else e).entity = e.entity := by
      split
      · exact hf e
      · rfl
    show find? ((if e.entity = h then f e else e) :: update h f rest) k = _
    rw [find?, find?, List.find?_cons, List.find?_cons, hentity]
    cases e.entity == k with
    | true => rfl
    | false => exact ih

theorem update_update {f g : LedgerEntry → LedgerEntry} (hf : ∀ e, (f e).entity = e.entity)
    (l : Ledger) (h : Handle) : update h g (update h f l) = update h (fun e => g (f e)) l := by
  rw [update, update, update, List.map_map]
  refine List.map_congr_left fun e _ => ?_
  show (if (if e.entity = h then f e else e).entity = h then g (if e.entity = h then f e else e)
    else if e.entity = h then f e else e) = _
  by_cases heq : e.entity = h
  · rw [if_pos heq, if_pos heq, if_pos ((hf e).trans heq)]
  · rw [if_neg heq, if_neg heq, if_neg heq]

theorem map_entity_update {f : LedgerEntry → LedgerEntry} (hf : ∀ e, (f e).entity = e.entity)
    (l : Ledger) (h : Handle) :
    (l.update h f).map LedgerEntry.entity = l.map LedgerEntry.entity := by
  rw [update, List.map_map]
  refine List.map_congr_left fun e _ => ?_
  show (if e.entity = h then f e else e).entity = e.entity
  split
  · exact hf e
  · rfl

theorem find?_release_of_ne (hne : k ≠ h) : (l.release h).2.find? k = l.find? k := by
  rw [release, find?, find?, List.find?_filter]
  congr 1
  funext e
  by_cases hk : e.entity = k
  · simp [hk, hne]
  · simp [hk]

theorem map_entity_release (l : Ledger) (h : Handle) :
    (l.release h).2.map LedgerEntry.entity =
      (l.map LedgerEntry.entity).filter fun k => k != h := by
  rw [release, List.filter_map]
  rfl

theorem map_entity_changeset_sublist (pool : Pool) (l : Ledger) :
    ((l.changeset pool).map Change.entity).Sublist (l.map LedgerEntry.entity) := by
  induction l with
  | nil => exact .slnil
  | cons e rest ih =>
    have hentity : ∀ c ∈ changeOf pool e, c.entity = e.entity := by
      intro c hc
      unfold changeOf at hc
      split at hc <;> cases hc <;> rfl
    rw [changeset, List.filterMap_cons]
    cases hchange : changeOf pool e with
    | none => exact ih.cons _
    | some c =>
      rw [List.map_cons, List.map_cons, hentity c hchange]
      exact ih.cons_cons _

end Entries

/-! ## Calls -/

/-- What is asked of a ledger. -/
inductive Call
  | registerNew (h : Handle)
  | registerClean (h : Handle)
  | markClean (h : Handle)
  | markDirty (h : Handle)
  | markDeleted (h : Handle)
  | unregister (h : Handle)
  | reset

/-- Change the ledger, unless that breaks its contract. -/
def keep (f : Pool → Ledger → Except Violation Ledger) : ExceptT Violation (StateM Books) Unit := do
  let b ← get
  let l ← ofExcept (f b.pool b.ledger)
  set { b with ledger := l }

def Call.run : Call → ExceptT Violation (StateM Books) Unit
  | .registerNew h => keep fun pool l => l.registerNew pool h
  | .registerClean h =>
    modify fun b =>
      let (_, pool, ledger) := b.ledger.registerClean b.pool h
      ⟨pool, ledger⟩
  | .markClean h => keep fun pool l => l.markClean pool h
  | .markDirty h => keep fun pool l => l.mark pool h .dirty
  | .markDeleted h => keep fun pool l => l.mark pool h .deleted
  | .unregister h => keep fun pool l => l.unregister pool h
  | .reset => modify fun b => { b with ledger := [] }

/-- The entity that a call is handed. -/
def Call.entity? : Call → Option Handle
  | .registerNew h | .registerClean h | .markClean h | .markDirty h | .markDeleted h
  | .unregister h => some h
  | .reset => none

/-- The move that a call is to make: which entity to which state. What is registered as clean is
the copy that the call makes. -/
def Call.move? (b : Books) : Call → Option (Handle × LifeState)
  | .registerNew h => some (h, .new)
  | .registerClean _ => some (b.pool.next, .clean)
  | .markClean h => some (h, .clean)
  | .markDirty h => some (h, .dirty)
  | .markDeleted h => some (h, .deleted)
  | .unregister _ | .reset => none

/-- Whether a call is to track an entity that was not tracked before; other calls that move one
expect it to be tracked. -/
def Call.registers : Call → Bool
  | .registerNew _ | .registerClean _ => true
  | .markClean _ | .markDirty _ | .markDeleted _ | .unregister _ | .reset => false

section Moves

variable {b : Books} {h : Handle} {target : LifeState}

theorem exec_keep (f : Pool → Ledger → Except Violation Ledger) (b : Books) :
    exec (keep f) b =
      match f b.pool b.ledger with
      | .ok l => (.ok (), { b with ledger := l })
      | .error v => (.error v, b) := by
  cases hf : f b.pool b.ledger <;> simp [keep, hf]

theorem permits_untracked (hnone : b.ledger.find? h = none) :
    b.Permits h target ↔ LifeState.allows none target = true := by
  simp [Books.Permits, Books.stored?, Books.reads?, state?, hnone]

theorem permits_tracked {e : LedgerEntry} (hfind : b.ledger.find? h = some e) :
    b.Permits h target ↔
      (LifeState.allows (some e.state) target || LifeState.allows (some (e.current b.pool)) target)
        = true := by
  simp [Books.Permits, Books.stored?, Books.reads?, state?, hfind, or_and_right, exists_or]

/-- What tracking an entity under a new entry leaves behind. -/
theorem moved_append (hnone : b.ledger.find? h = none) (origin : LifeState) (snapshot : Snapshot)
    {pool : Pool} (hpool : b.pool.Extends pool) :
    b.Moved h target ⟨pool, b.ledger ++ [⟨h, target, origin, snapshot⟩]⟩ where
  stored := by
    rw [Books.stored?, find?_append, hnone, Option.none_or, find?_singleton_self]
    rfl
  others := fun k hne => by
    rw [find?_append, find?_singleton_of_ne fun heq => hne heq.symm, Option.or_none]
  order := by
    rw [contains, hnone, List.map_append]
    rfl
  pool := hpool

/-- What changing the entry of a tracked entity leaves behind. -/
theorem moved_update {e : LedgerEntry} (hfind : b.ledger.find? h = some e)
    {f : LedgerEntry → LedgerEntry} (hentity : ∀ e, (f e).entity = e.entity)
    (hstate : ∀ e, (f e).state = target) :
    b.Moved h target { b with ledger := b.ledger.update h f } where
  stored := by
    rw [Books.stored?, find?_update hentity, hfind, Option.map_some,
      if_pos (entity_of_find? hfind), Option.map_some, hstate]
  others := fun k hne => by
    rw [find?_update hentity]
    cases hk : b.ledger.find? k with
    | none => rfl
    | some d => rw [Option.map_some, if_neg (entity_of_find? hk ▸ hne)]
  order := by
    rw [map_entity_update hentity, contains, hfind]
    rfl
  pool := .refl b.pool

/-- What marking leaves, if it goes through. -/
theorem mark_eq_map (pool : Pool) (h : Handle) (target : LifeState) (l : Ledger) :
    l.mark pool h target =
      (l.mark pool h target).map fun _ => l.update h fun e => { e with state := target } := by
  unfold mark
  cases l.find? h with
  | none => rfl
  | some e =>
    dsimp only
    split <;> rfl

theorem markClean_eq_map (pool : Pool) (h : Handle) (l : Ledger) :
    l.markClean pool h = (l.mark pool h .clean).map fun _ => l.update h fun e =>
      { e with state := .clean, snapshot := Snapshot.capture pool h } := by
  rw [markClean, mark_eq_map]
  cases l.mark pool h .clean with
  | error v => rfl
  | ok l' =>
    have htwice := update_update (f := fun e => { e with state := .clean })
      (g := fun e => { e with snapshot := Snapshot.capture pool h }) (fun _ => rfl) l h
    exact congrArg Except.ok htwice

/-- Marking goes through just when the entity is tracked and the table allows the move. -/
theorem mark_cases (b : Books) (h : Handle) (target : LifeState) :
    (∃ l, b.ledger.mark b.pool h target = .ok l) ∧ b.Permits h target ∧
        b.ledger.contains h = true ∨
      (∃ v, b.ledger.mark b.pool h target = .error v) ∧
        (b.Permits h target → b.ledger.contains h = false) := by
  unfold mark contains
  cases hfind : b.ledger.find? h with
  | none => exact .inr ⟨⟨_, rfl⟩, fun _ => rfl⟩
  | some e =>
    dsimp only
    rw [permits_tracked hfind]
    split
    · next hallowed => exact .inl ⟨⟨_, rfl⟩, hallowed, rfl⟩
    · next hrefused => exact .inr ⟨⟨_, rfl⟩, fun hallowed => absurd hallowed hrefused⟩

/-- How a call that is to move an entity comes out: the move is made, which the table allows, or
nothing has changed. The latter is so where the table does not allow the move, and where the entity
was to be registered and is tracked, or to be marked and is not. -/
inductive Call.Outcome (c : Call) (h : Handle) (target : LifeState) (b : Books) : Prop
  | moves (b' : Books) (hrun : exec c.run b = (.ok (), b')) (hpermits : b.Permits h target)
      (hfits : c.registers = !b.ledger.contains h) (hmoved : b.Moved h target b')
  | fails (v : Violation) (hrun : exec c.run b = (.error v, b))
      (hrefused : b.Permits h target → c.registers = b.ledger.contains h)

theorem registerNew_outcome (b : Books) (h : Handle) :
    (Call.registerNew h).Outcome h .new b := by
  have hrun : exec (Call.registerNew h).run b = _ :=
    exec_keep (fun pool l => l.registerNew pool h) b
  rw [registerNew, register] at hrun
  cases htracked : b.ledger.contains h with
  | false =>
    rw [htracked] at hrun
    have hnone : b.ledger.find? h = none := by simpa [contains] using htracked
    exact .moves _ hrun ((permits_untracked hnone).mpr rfl) (htracked ▸ rfl)
      (moved_append hnone .new (Snapshot.capture b.pool h) (.refl b.pool))
  | true =>
    rw [htracked] at hrun
    exact .fails _ hrun fun _ => htracked ▸ rfl

theorem registerClean_outcome (halive : b.Alive) (h : Handle) :
    (Call.registerClean h).Outcome b.pool.next .clean b := by
  have hnone : b.ledger.find? b.pool.next = none := by
    rw [find?_eq_none, List.mem_map]
    rintro ⟨e, he, hnext⟩
    exact absurd (halive e he) (hnext ▸ Nat.lt_irrefl _)
  have hfits : true = !b.ledger.contains b.pool.next := by rw [contains, hnone]; rfl
  exact .moves _ (exec_modify b _) ((permits_untracked hnone).mpr rfl) hfits
    (moved_append hnone .clean (Snapshot.capture b.pool h) (Pool.extends_alloc b.pool _))

/-- A call that marks, whatever else it changes about the entry. -/
theorem mark_outcome {c : Call} (attempt : Pool → Ledger → Except Violation Ledger)
    (hc : c.run = keep attempt) (hregisters : c.registers = false)
    {f : LedgerEntry → LedgerEntry}
    (hattempt : attempt b.pool b.ledger =
      (b.ledger.mark b.pool h target).map fun _ => b.ledger.update h f)
    (hentity : ∀ e, (f e).entity = e.entity) (hstate : ∀ e, (f e).state = target) :
    c.Outcome h target b := by
  have hrun : exec c.run b = _ := hc ▸ exec_keep attempt b
  rw [hattempt] at hrun
  rcases mark_cases b h target with ⟨⟨l, hmark⟩, hpermits, htracked⟩ | ⟨⟨v, hmark⟩, hrefused⟩
  · rw [hmark] at hrun
    obtain ⟨e, hfind⟩ := Option.isSome_iff_exists.mp htracked
    exact .moves _ hrun hpermits (by rw [hregisters, htracked]; rfl)
      (moved_update hfind hentity hstate)
  · rw [hmark] at hrun
    exact .fails v hrun fun hpermits => by rw [hregisters, hrefused hpermits]

/-- Every call that is to move an entity does so, or leaves the books as they are. -/
theorem Call.outcome (halive : b.Alive) {c : Call} (hmove : c.move? b = some (h, target)) :
    c.Outcome h target b := by
  cases c with
  | registerNew k =>
    cases hmove
    exact registerNew_outcome b h
  | registerClean k =>
    cases hmove
    exact registerClean_outcome halive k
  | markClean k =>
    cases hmove
    exact mark_outcome (fun pool l => l.markClean pool h) rfl rfl
      (markClean_eq_map b.pool h b.ledger) (fun _ => rfl) fun _ => rfl
  | markDirty k =>
    cases hmove
    exact mark_outcome (fun pool l => l.mark pool h .dirty) rfl rfl
      (mark_eq_map b.pool h .dirty b.ledger) (fun _ => rfl) fun _ => rfl
  | markDeleted k =>
    cases hmove
    exact mark_outcome (fun pool l => l.mark pool h .deleted) rfl rfl
      (mark_eq_map b.pool h .deleted b.ledger) (fun _ => rfl) fun _ => rfl
  | unregister k => cases hmove
  | reset => cases hmove

/-- Letting go of an entity: it is tracked no more, and the others have kept their entries. -/
theorem exec_unregister (b : Books) (h : Handle) :
    exec (Call.unregister h).run b =
      if b.ledger.contains h then (.ok (), { b with ledger := (b.ledger.release h).2 })
      else (.error (.unregisterUntracked (b.pool.typeName h)), b) := by
  have hrun : exec (Call.unregister h).run b = _ :=
    exec_keep (fun pool l => l.unregister pool h) b
  rw [hrun, unregister, release, contains]
  cases b.ledger.find? h <;> rfl

end Moves

end Ledger

end EntityStore
