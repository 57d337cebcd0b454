import EntityStore.Proofs.Entity.Alike
import EntityStore.Proofs.Ledger.Histories

/-!
# Edited entities

An entity that is registered as clean, or marked so, is captured as it is then. As long as no call
moves it, it reads as clean while every declared attribute shows what was captured, up to the
equality of values, and as dirty otherwise. That equality is not identity: an entity that holds a
NaN reads as dirty though nobody has touched it, and a zero that changes its sign, or a timestamp
that changes its offset, goes unnoticed.
-/

namespace EntityStore

open Snapshot

/-- The calls that capture an entity as clean: which entity is captured, and which one is tracked. -/
def Ledger.Call.captures? (b : Books) : Ledger.Call → Option (Handle × Handle)
  | .registerClean h => some (h, b.pool.next)
  | .markClean h => some (h, h)
  | .registerNew _ | .markDirty _ | .markDeleted _ | .unregister _ | .reset => none

namespace Books

/-- One step of a history that leaves the entry of a tracked entity alone: an edit, or a call that
does not move it nor let go of it. -/
inductive Spares (h : Handle) (b : Books) : Books → Prop
  | call {b' : Books} {c : Ledger.Call} {outcome : Except Violation Unit}
      (hrun : exec c.run b = (outcome, b')) (hlive : ∀ k ∈ c.entity?, k < b.pool.next)
      (hother : ∀ target, c.move? b ≠ some (h, target))
      (htracked : b'.ledger.contains h = true) : Spares h b b'
  | edit {pool : Pool} (hnext : b.pool.next ≤ pool.next) : Spares h b { b with pool }

/-- Histories in whose course nothing moves an entity. -/
abbrev Aside (h : Handle) : Books → Books → Prop := Relation.ReflTransGen (Spares h)

variable {b b' b₁ : Books} {c : Ledger.Call} {h source : Handle} {log : List Handle}

theorem Spares.step (hspares : b.Spares h b') : ∃ entered, Step b entered b' := by
  cases hspares with
  | call hrun hlive => exact ⟨_, .call hlive hrun⟩
  | edit hnext => exact ⟨[], .edit hnext⟩

theorem Spares.find? (halive : b.Alive) (hspares : b.Spares h b') :
    b'.ledger.find? h = b.ledger.find? h := by
  cases hspares with
  | edit => rfl
  | @call _ c outcome hrun hlive hother htracked =>
    cases hmove : c.move? b with
    | none => exact find?_of_release hmove hrun htracked
    | some move =>
      obtain ⟨k, target⟩ := move
      have hne : h ≠ k := fun heq => hother target (heq ▸ hmove)
      rcases c.outcome halive hmove with ⟨b₁, hmade, -, -, hmoved⟩ | ⟨v, hfailed, -⟩
      · obtain ⟨-, rfl⟩ := Prod.mk.inj (hrun.symm.trans hmade)
        exact hmoved.others h hne
      · obtain ⟨-, rfl⟩ := Prod.mk.inj (hrun.symm.trans hfailed)
        rfl

theorem Aside.find? (halive : b.Alive) (haside : b.Aside h b') :
    b'.Alive ∧ b'.ledger.find? h = b.ledger.find? h := by
  induction haside with
  | refl => exact ⟨halive, rfl⟩
  | tail _ hlast ih =>
    obtain ⟨entered, hstep⟩ := hlast.step
    exact ⟨hstep.alive ih.1, (hlast.find? ih.1).trans ih.2⟩

/-- A copy shows what its original shows. -/
theorem capture_detach {p : Pool} (hrefers : (p.entity source).RefersBelow p.next) :
    capture (p.detach source).2 p.next = capture p source := by
  have hcopy : (p.detach source).2.entity p.next = p.entity source := Pool.entity_alloc_self p _
  rw [capture_eq, capture_eq, hcopy]
  refine List.filterMap_congr fun a _ => ?_
  rw [shown?, shown?, hcopy]
  congr 1
  refine captureField?_congr fun f hf r hr => Pool.idValue_congr ?_
  exact (Pool.extends_alloc p _).kept r (hrefers.field? hf r hr)

/-- A call that captures an entity leaves an entry that is clean and shows it as it is. -/
theorem find?_of_captures (halive : b.Alive) (hcaptures : c.captures? b = some (source, h))
    (hrefers : (b.pool.entity source).RefersBelow b.pool.next)
    (hrun : exec c.run b = (.ok (), b₁)) :
    ∃ origin, b₁.ledger.find? h = some ⟨h, .clean, origin, capture b₁.pool h⟩ := by
  cases c with
  | registerClean k =>
    cases hcaptures
    obtain ⟨-, rfl⟩ := Prod.mk.inj hrun
    have hnone : b.ledger.find? b.pool.next = none := by
      rw [Ledger.find?_eq_none, List.mem_map]
      intro ⟨e, he, hnext⟩
      exact absurd (halive e he) (hnext ▸ Nat.lt_irrefl _)
    refine ⟨.clean, ?_⟩
    show Ledger.find? (b.ledger ++ [⟨b.pool.next, .clean, .clean, capture b.pool source⟩]) _ = _
    rw [Ledger.find?_append, hnone, Option.none_or, Ledger.find?_singleton_self,
      ← capture_detach hrefers]
    rfl
  | markClean k =>
    cases hcaptures
    have hkeep : exec (Ledger.Call.markClean h).run b = _ :=
      Ledger.exec_keep (fun pool l => l.markClean pool h) b
    rw [Ledger.markClean_eq_map] at hkeep
    rcases Ledger.mark_cases b h .clean with ⟨⟨l, hmark⟩, -, htracked⟩ | ⟨⟨v, hmark⟩, -⟩
    · rw [hmark] at hkeep
      obtain ⟨-, rfl⟩ := Prod.mk.inj (hrun.symm.trans hkeep)
      obtain ⟨e, hfind⟩ := Option.isSome_iff_exists.mp htracked
      have hupdated := Ledger.find?_update
        (f := fun e => { e with state := .clean, snapshot := capture b.pool h })
        (fun _ => rfl) b.ledger h h
      rw [hfind, Option.map_some, if_pos (Ledger.entity_of_find? hfind),
        Ledger.entity_of_find? hfind] at hupdated
      exact ⟨e.origin, hupdated⟩
    · rw [hmark] at hkeep
      cases (hrun.symm.trans hkeep)
  | registerNew | markDirty | markDeleted | unregister | reset => cases hcaptures

/-- An entry that is stored clean reads as what the comparison with its snapshot gives. -/
theorem reads?_of_clean {origin : LifeState} {snapshot : Snapshot}
    (hfind : b.ledger.find? h = some ⟨h, .clean, origin, snapshot⟩) :
    b.reads? h = some (if (capture b.pool h).same snapshot then .clean else .dirty) := by
  rw [reads?, Ledger.state?, hfind, Option.map_some, LedgerEntry.current]
  cases (capture b.pool h).same snapshot <;> rfl

/-- What is captured stays captured as long as nothing moves the entity. -/
theorem Aside.reads? (halive : b.Alive) (hcaptures : c.captures? b = some (source, h))
    (hrefers : (b.pool.entity source).RefersBelow b.pool.next)
    (hrun : exec c.run b = (.ok (), b₁)) (halive₁ : b₁.Alive) (haside : b₁.Aside h b') :
    b'.reads? h =
      some (if (capture b'.pool h).same (capture b₁.pool h) then .clean else .dirty) := by
  obtain ⟨origin, hfind⟩ := find?_of_captures halive hcaptures hrefers hrun
  exact reads?_of_clean ((haside.find? halive₁).2.trans hfind)

/-- **What an entity reads as once it has been captured.** Whatever is edited after an entity was
registered as clean or marked so, and whatever is asked about others: it reads as clean or dirty,
and as clean just when every declared attribute shows what it showed then, up to the equality of
values. So as long as nothing it shows has changed, or all is back to what it was, it reads as
clean if it shows no NaN, and only then; and it reads as dirty as soon as a terminal attribute
holds another value, unless that is another zero or another spelling of the same instant. -/
theorem reads_after_capture (hkept : Kept log b) (hcaptures : c.captures? b = some (source, h))
    (hlive : ∀ k ∈ c.entity?, k < b.pool.next)
    (hrefers : (b.pool.entity source).RefersBelow b.pool.next)
    (hrun : exec c.run b = (.ok (), b₁)) (haside : b₁.Aside h b')
    (htype : (b'.pool.entity h).type = (b₁.pool.entity h).type) :
    (b'.reads? h = some .clean ∨ b'.reads? h = some .dirty) ∧
      (b'.reads? h = some .clean ↔ ∀ a ∈ (b₁.pool.entity h).type.attributes,
        Option.Rel Captured.Alike (shown? b'.pool h a) (shown? b₁.pool h a)) ∧
      ((∀ a ∈ (b₁.pool.entity h).type.attributes, shown? b'.pool h a = shown? b₁.pool h a) →
        (b'.reads? h = some .clean ↔ ∀ a ∈ (b₁.pool.entity h).type.attributes,
          ∀ c ∈ shown? b₁.pool h a, c.holdsNaN = false)) ∧
      ∀ a ∈ (b₁.pool.entity h).type.attributes, ∀ v w : Value,
        shown? b₁.pool h a = some (.scalar v) → shown? b'.pool h a = some (.scalar w) →
        w ≠ v → ¬ w.Twins v → b'.reads? h = some .dirty := by
  have hb := hkept.upholds.alive
  have hreads := haside.reads? hb hcaptures hrefers hrun (Step.alive hb (.call hlive hrun))
  have hclean : b'.reads? h = some .clean ↔ ∀ a ∈ (b₁.pool.entity h).type.attributes,
      Option.Rel Captured.Alike (shown? b'.pool h a) (shown? b₁.pool h a) := by
    rw [hreads, ← same_capture_iff htype]
    cases (capture b'.pool h).same (capture b₁.pool h) <;> simp
  have heither : b'.reads? h = some .clean ∨ b'.reads? h = some .dirty := by
    rw [hreads]
    cases (capture b'.pool h).same (capture b₁.pool h)
    · exact .inr rfl
    · exact .inl rfl
  refine ⟨heither, hclean, ?_, ?_⟩
  · intro hsame
    rw [hclean]
    refine forall₂_congr fun a ha => ?_
    rw [hsame a ha]
    exact Captured.rel_self
  · intro a ha v w hv hw hne hnot
    refine heither.resolve_left fun hread => ?_
    have halike := hclean.mp hread a ha
    rw [hv, hw] at halike
    cases halike with
    | some halike =>
      cases halike with
      | scalar h => exact h.elim (fun heq => hne heq.1) hnot

open Samples

/-- A tag that has been marked clean reads as dirty once it is made blue. -/
theorem reads_after_capture_blueTag :
    exec (Ledger.Call.markClean 0).run newTag = (.ok (), cleanTag) ∧ cleanTag.Aside 0 blueTag ∧
      blueTag.reads? 0 = some .dirty := by
  have hmarked : exec (Ledger.Call.markClean 0).run newTag = (.ok (), cleanTag) := rfl
  have haside : cleanTag.Aside 0 blueTag := .single (.edit (Nat.le_refl _))
  obtain ⟨-, -, -, hdirty⟩ := reads_after_capture (c := .markClean 0) kept_newTag rfl (by decide)
    (by decide) hmarked haside rfl
  refine ⟨hmarked, haside, hdirty (terminal "name" .string) (by decide) (.string "red")
    (.string "blue") (by decide +kernel) (by decide +kernel) (by decide) fun htwins => ?_⟩
  cases htwins

/-- An entity that has been registered as new and then marked clean. -/
def marked (e : Entity) : Books :=
  (exec (Ledger.Call.markClean 0).run
    (exec (Ledger.Call.registerNew 0).run ⟨(Pool.empty.alloc e).2, []⟩).2).2

/-- The same after an edit of one field. -/
def markedThenSet (e : Entity) (name : String) (v : Value) : Books :=
  { marked e with pool := (marked e).pool.edit 0 fun e => e.set name (.value v) }

def holding (type : EntityType) (name : String) (v : Value) : Entity :=
  (blank type).set name (.value v)

/-- Six minutes past five in the morning, and the same instant an hour further east. -/
def fiveOhSix : Timestamp := ⟨18690, 18367, 0, 0⟩

@[inherit_doc fiveOhSix]
def sixOhSix : Timestamp := { fiveOhSix with offset := 60 }

/-- A tag whose weight is a NaN reads as dirty though nobody has touched it; a tag whose weight
changes from zero to minus zero, and an event whose time is written with another offset, read as
clean. -/
theorem not_reads_identity_of_nan_or_twins :
    (marked (holding tag "weight" (.float .nan))).reads? 0 = some .dirty ∧
      (marked (holding tag "weight" (.float .zero))).reads? 0 = some .clean ∧
      (markedThenSet (holding tag "weight" (.float .zero)) "weight" (.float (.negate .zero))).reads? 0
        = some .clean ∧
      Value.float (.negate .zero) ≠ .float .zero ∧
      (markedThenSet (holding event "at" (.timestamp fiveOhSix)) "at" (.timestamp sixOhSix)).reads? 0
        = some .clean ∧
      Value.timestamp sixOhSix ≠ .timestamp fiveOhSix := by
  decide +kernel

end Books

end EntityStore
