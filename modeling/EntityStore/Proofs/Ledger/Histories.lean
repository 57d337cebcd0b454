import EntityStore.Proofs.Ledger.Calls
import EntityStore.Samples.Stores
import Mathlib.Data.List.Dedup
import Mathlib.Logic.Relation

/-!
# Histories of a ledger

A ledger starts empty and is kept through calls, while the entities it is about are edited in
between by whoever holds them. What an entity reads as follows from what it is stored with: an
entry that is stored clean may read as dirty, every other one reads as stored. So it is enough to
follow the stored state from step to step, and what is read follows the table with it.
-/

namespace EntityStore

namespace LifeState

/-- The table allows one state after the other. -/
def Leads (s t : LifeState) : Prop := allows (some s) t = true

/-- A path of the table. -/
abbrev Path : LifeState → LifeState → Prop := Relation.ReflTransGen Leads

theorem not_leads_new (s : LifeState) : ¬ Leads s .new := by
  cases s <;> exact Bool.false_ne_true

theorem not_deleted_leads (t : LifeState) : ¬ Leads .deleted t := by
  cases t <;> exact Bool.false_ne_true

/-- Nothing leads back to where an entity was new. -/
theorem Path.eq_new {s t : LifeState} (hpath : Path s t) (ht : t = .new) : s = .new := by
  cases hpath with
  | refl => exact ht
  | tail _ hlast => exact absurd (ht ▸ hlast) (not_leads_new _)

/-- What is deleted stays deleted. -/
theorem Path.eq_deleted {s t : LifeState} (hpath : Path s t) (hs : s = .deleted) :
    t = .deleted := by
  induction hpath with
  | refl => exact hs
  | tail _ hlast ih => exact absurd (ih ▸ hlast) (not_deleted_leads _)

/-- An entry of the one stored state may read as the other. -/
def Shows (stored shown : LifeState) : Prop :=
  shown = stored ∨ stored = .clean ∧ shown = .dirty

theorem Shows.path {s r : LifeState} (h : Shows s r) : Path s r := by
  rcases h with rfl | ⟨rfl, rfl⟩
  · exact .refl
  · exact .single rfl

/-- If the table allows a move from what is read, it allows it from what is stored, unless the
entity is stored so already. -/
theorem Shows.leads {s r t : LifeState} (h : Shows s r) (hleads : Leads r t) :
    t = s ∨ Leads s t := by
  rcases h with rfl | ⟨rfl, rfl⟩
  · exact .inr hleads
  · cases t with
    | new => exact absurd hleads (not_leads_new _)
    | clean => exact .inl rfl
    | dirty => exact .inr rfl
    | deleted => exact .inr rfl

/-- What is read leads to what is read one step later. -/
theorem Shows.path_of_step {s s' r r' : LifeState} (h : Shows s r) (h' : Shows s' r')
    (hstep : s' = s ∨ Leads s s') : Path r r' := by
  refine .trans ?_ h'.path
  rcases h with rfl | ⟨rfl, rfl⟩
  · rcases hstep with rfl | hleads
    · exact .refl
    · exact .single hleads
  · cases s' with
    | new => exact hstep.elim (nomatch ·) fun hleads => absurd hleads (not_leads_new _)
    | clean => exact .single rfl
    | dirty => exact .refl
    | deleted => exact .single rfl

end LifeState

open LifeState

namespace Books

/-- What is tracked, in order. -/
abbrev roll (b : Books) : List Handle := b.ledger.map LedgerEntry.entity

/-- The entities that a call has registered, given how it came out. -/
def enters (b : Books) (c : Ledger.Call) : Except Violation Unit → List Handle
  | .ok () => if c.registers then ((c.move? b).map Prod.fst).toList else []
  | .error _ => []

/-- One step of a history, with what it registers: a call about an entity there is, or an edit of
the entities, which may change them in any way and make new ones. -/
inductive Step : Books → List Handle → Books → Prop
  | call {b b' : Books} {c : Ledger.Call} {outcome : Except Violation Unit}
      (hlive : ∀ h ∈ c.entity?, h < b.pool.next) (hrun : exec c.run b = (outcome, b')) :
      Step b (b.enters c outcome) b'
  | edit {b : Books} {pool : Pool} (hnext : b.pool.next ≤ pool.next) :
      Step b [] { b with pool }

/-- The histories of a ledger: how the books stand after them, and what was registered in their
course, in order. -/
inductive Kept : List Handle → Books → Prop
  | start (pool : Pool) : Kept [] ⟨pool, []⟩
  | step {log entered : List Handle} {b b' : Books} (hkept : Kept log b)
      (hstep : Step b entered b') : Kept (log ++ entered) b'

/-- The one books come from the other, and an entity stays tracked all the while. -/
def Keeping (h : Handle) : Books → Books → Prop :=
  Relation.ReflTransGen fun b b' => (∃ entered, Step b entered b') ∧ b'.ledger.contains h = true

variable {b b' : Books} {h : Handle} {s : LifeState} {log entered : List Handle}

/-! ## What is tracked -/

/-- What a call moves lives. -/
theorem lt_of_move {c : Ledger.Call} {target : LifeState} {outcome : Except Violation Unit}
    (hlive : ∀ h ∈ c.entity?, h < b.pool.next) (hmove : c.move? b = some (h, target))
    (hrun : exec c.run b = (outcome, b')) (hnext : b.pool.next ≤ b'.pool.next) :
    h < b'.pool.next := by
  cases c with
  | registerClean k =>
    cases hmove
    obtain ⟨-, rfl⟩ := Prod.mk.inj hrun
    exact Nat.lt_succ_self _
  | registerNew | markClean | markDirty | markDeleted =>
    cases hmove
    exact Nat.lt_of_lt_of_le (hlive h rfl) hnext
  | unregister | reset => cases hmove

/-- A call that moves nothing only lets go. -/
theorem roll_of_release {c : Ledger.Call} {outcome : Except Violation Unit}
    (hmove : c.move? b = none) (hrun : exec c.run b = (outcome, b')) :
    b'.pool = b.pool ∧ b.enters c outcome = [] ∧
      ∃ p : Handle → Bool, b'.roll = b.roll.filter p := by
  have henters : b.enters c outcome = [] := by
    cases outcome with
    | error v => rfl
    | ok u => simp [enters, hmove]
  cases c with
  | unregister k =>
    rw [Ledger.exec_unregister] at hrun
    split at hrun
    · obtain ⟨-, rfl⟩ := Prod.mk.inj hrun
      exact ⟨rfl, henters, _, Ledger.map_entity_release b.ledger k⟩
    · obtain ⟨-, rfl⟩ := Prod.mk.inj hrun
      exact ⟨rfl, henters, fun _ => true, by simp⟩
  | reset =>
    obtain ⟨-, rfl⟩ := Prod.mk.inj hrun
    exact ⟨rfl, henters, fun _ => false, by simp⟩
  | registerNew | registerClean | markClean | markDirty | markDeleted => cases hmove

/-- A call registers one more entity, or lets go of some. -/
theorem roll_of_call (halive : b.Alive) {c : Ledger.Call} {outcome : Except Violation Unit}
    (hlive : ∀ h ∈ c.entity?, h < b.pool.next) (hrun : exec c.run b = (outcome, b')) :
    b.pool.next ≤ b'.pool.next ∧
      ((∃ p : Handle → Bool, b.enters c outcome = [] ∧ b'.roll = b.roll.filter p) ∨
        ∃ h, b.enters c outcome = [h] ∧ h ∉ b.roll ∧ h < b'.pool.next ∧
          b'.roll = b.roll ++ [h]) := by
  have hsame : b.roll = b.roll.filter fun _ => true := by simp
  cases hmove : c.move? b with
  | some move =>
    obtain ⟨h, target⟩ := move
    rcases Ledger.Call.outcome halive hmove with ⟨b₁, hmade, -, hfits, hmoved⟩ | ⟨v, hfailed, -⟩
    · obtain ⟨rfl, rfl⟩ := Prod.mk.inj (hrun.symm.trans hmade)
      have horder := hmoved.order
      refine ⟨hmoved.pool.next_le, ?_⟩
      cases htracked : b.ledger.contains h with
      | true =>
        rw [htracked] at hfits horder
        exact .inl ⟨fun _ => true, by simp [enters, hfits], horder.trans hsame⟩
      | false =>
        rw [htracked] at hfits horder
        have hnot : h ∉ b.roll := by
          rw [← Ledger.contains_iff, htracked]
          exact Bool.false_ne_true
        exact .inr ⟨h, by simp [enters, hfits, hmove], hnot, lt_of_move hlive hmove hrun hmoved.pool.next_le,
          horder⟩
    · obtain ⟨rfl, rfl⟩ := Prod.mk.inj (hrun.symm.trans hfailed)
      exact ⟨Nat.le_refl _, .inl ⟨fun _ => true, rfl, hsame⟩⟩
  | none =>
    obtain ⟨hpool, henters, p, hroll⟩ := roll_of_release hmove hrun
    exact ⟨Nat.le_of_eq (hpool ▸ rfl), .inl ⟨p, henters, hroll⟩⟩

/-- A step registers one more entity, or lets go of some. -/
theorem Step.roll (halive : b.Alive) (hstep : Step b entered b') :
    b.pool.next ≤ b'.pool.next ∧
      ((∃ p : Handle → Bool, entered = [] ∧ b'.roll = b.roll.filter p) ∨
        ∃ h, entered = [h] ∧ h ∉ b.roll ∧ h < b'.pool.next ∧ b'.roll = b.roll ++ [h]) := by
  cases hstep with
  | call hlive hrun => exact roll_of_call halive hlive hrun
  | edit hnext => exact ⟨hnext, .inl ⟨fun _ => true, rfl, by simp⟩⟩

theorem Step.alive (halive : b.Alive) (hstep : Step b entered b') : b'.Alive := by
  obtain ⟨hnext, hroll⟩ := hstep.roll halive
  intro e he
  have hmem : e.entity ∈ b'.roll := List.mem_map_of_mem he
  have hold : ∀ k ∈ b.roll, k < b'.pool.next := by
    intro k hk
    obtain ⟨d, hd, rfl⟩ := List.mem_map.mp hk
    exact Nat.lt_of_lt_of_le (halive d hd) hnext
  rcases hroll with ⟨p, -, hfilter⟩ | ⟨h, -, -, hlt, happend⟩
  · rw [hfilter] at hmem
    exact hold _ (List.mem_of_mem_filter hmem)
  · rw [happend, List.mem_append, List.mem_singleton] at hmem
    rcases hmem with hmem | heq
    · exact hold _ hmem
    · exact heq ▸ hlt

/-- Registering once more moves an entity to the end. -/
theorem dedup_append_singleton (log : List Handle) (h : Handle) :
    (log ++ [h]).dedup = log.dedup.filter (fun k => k != h) ++ [h] := by
  induction log with
  | nil => rfl
  | cons k rest ih =>
    rw [List.cons_append]
    by_cases hk : k ∈ rest
    · rw [List.dedup_cons_of_mem hk, List.dedup_cons_of_mem (List.mem_append_left _ hk), ih]
    · rw [List.dedup_cons_of_notMem hk]
      by_cases heq : k = h
      · subst heq
        have hlast : k ∈ rest ++ [k] := List.mem_append_right _ (List.mem_singleton_self k)
        rw [List.dedup_cons_of_mem hlast, ih, List.filter_cons_of_neg (by simp)]
      · have hnot : k ∉ rest ++ [h] := by simp [hk, heq]
        rw [List.dedup_cons_of_notMem hnot, ih, List.filter_cons_of_pos (by simpa using heq)]
        rfl

/-- What the histories of a ledger uphold: what is tracked lives, is tracked once, and is listed in
the order in which it was last registered. -/
structure Kept.Upholds (log : List Handle) (b : Books) : Prop where
  alive : b.Alive
  nodup : b.roll.Nodup
  order : ∃ p : Handle → Bool, b.roll = log.dedup.filter p

theorem Kept.Upholds.step (hb : Kept.Upholds log b) (hstep : Step b entered b') :
    Kept.Upholds (log ++ entered) b' := by
  obtain ⟨q, horder⟩ := hb.order
  rcases (hstep.roll hb.alive).2 with ⟨p, rfl, hroll⟩ | ⟨h, rfl, hnot, -, hroll⟩
  · refine ⟨hstep.alive hb.alive, ?_, ⟨fun k => p k && q k, ?_⟩⟩
    · rw [hroll]
      exact hb.nodup.filter p
    · rw [hroll, horder, List.filter_filter, List.append_nil]
  · refine ⟨hstep.alive hb.alive, ?_, ⟨fun k => k == h || q k, ?_⟩⟩
    · rw [hroll, (List.perm_append_singleton h b.roll).nodup_iff]
      exact List.nodup_cons.mpr ⟨hnot, hb.nodup⟩
    · rw [hroll, dedup_append_singleton, List.filter_append, List.filter_filter, horder]
      rw [horder] at hnot
      have hsame : ∀ k ∈ log.dedup, ((k == h || q k) && k != h) = q k := by
        intro k hk
        by_cases heq : k = h
        · subst heq
          have hq : q k = false := by simpa [hk] using hnot
          rw [hq, bne_self_eq_false, Bool.and_false]
        · rw [bne, beq_false_of_ne heq, Bool.false_or, Bool.not_false, Bool.and_true]
      have hself : [h].filter (fun k => k == h || q k) = [h] := by simp
      rw [List.filter_congr hsame, hself]

/-- **What is tracked.** -/
theorem Kept.upholds (hkept : Kept log b) : Kept.Upholds log b := by
  induction hkept with
  | start pool =>
    exact ⟨fun _ he => absurd he List.not_mem_nil, List.nodup_nil, fun _ => true, rfl⟩
  | step _ hstep ih => exact ih.step hstep

/-- What is tracked is listed as it was last registered. -/
theorem Kept.Upholds.roll_eq (hb : Kept.Upholds log b) :
    b.roll = log.dedup.filter fun h => h ∈ b.roll := by
  obtain ⟨p, hp⟩ := hb.order
  conv_lhs => rw [hp]
  refine List.filter_congr fun h hh => ?_
  rw [hp]
  simp [hh]

/-! ## What is read -/

theorem reads?_of_stored? {s : LifeState} (hstored : b.stored? h = some s) :
    ∃ r, b.reads? h = some r ∧ Shows s r := by
  obtain ⟨e, hfind, rfl⟩ := Option.map_eq_some_iff.mp hstored
  refine ⟨e.current b.pool, by rw [reads?, Ledger.state?, hfind]; rfl, ?_⟩
  unfold LedgerEntry.current
  split
  · next hedited => exact .inr ⟨by simp at hedited; exact hedited.1, rfl⟩
  · exact .inl rfl

theorem contains_of_reads? {r : LifeState} (hr : b.reads? h = some r) :
    b.ledger.contains h = true := by
  obtain ⟨e, hfind, -⟩ := Option.map_eq_some_iff.mp hr
  rw [Ledger.contains, hfind]
  rfl

theorem shows_of_stored? {r : LifeState} (hstored : b.stored? h = some s)
    (hr : b.reads? h = some r) : Shows s r := by
  obtain ⟨r', hr', hshows⟩ := reads?_of_stored? hstored
  obtain rfl := Option.some.inj (hr.symm.trans hr')
  exact hshows

theorem stored?_of_contains (htracked : b.ledger.contains h = true) : ∃ s, b.stored? h = some s := by
  obtain ⟨e, hfind⟩ := Option.isSome_iff_exists.mp htracked
  exact ⟨e.state, by rw [stored?, hfind]; rfl⟩

/-- Letting go of others leaves an entity its entry. -/
theorem find?_of_release {c : Ledger.Call} {outcome : Except Violation Unit}
    (hmove : c.move? b = none) (hrun : exec c.run b = (outcome, b'))
    (htracked : b'.ledger.contains h = true) : b'.ledger.find? h = b.ledger.find? h := by
  cases c with
  | unregister k =>
    rw [Ledger.exec_unregister] at hrun
    split at hrun
    · obtain ⟨-, rfl⟩ := Prod.mk.inj hrun
      have hmem := Ledger.contains_iff.mp htracked
      rw [Ledger.map_entity_release, List.mem_filter] at hmem
      exact Ledger.find?_release_of_ne (by simpa using hmem.2)
    · obtain ⟨-, rfl⟩ := Prod.mk.inj hrun
      rfl
  | reset =>
    obtain ⟨-, rfl⟩ := Prod.mk.inj hrun
    cases htracked
  | registerNew | registerClean | markClean | markDirty | markDeleted => cases hmove

/-- What is permitted leads on from what is stored, unless the entity is stored so already. -/
theorem leads_of_permits {target : LifeState} (hstored : b.stored? h = some s)
    (hpermits : b.Permits h target) : target = s ∨ Leads s target := by
  obtain ⟨r, hreads, hshows⟩ := reads?_of_stored? hstored
  obtain ⟨source, hsource | hsource, hallows⟩ := hpermits
  · rw [hstored] at hsource
    subst hsource
    exact .inr hallows
  · rw [hreads] at hsource
    subst hsource
    exact hshows.leads hallows

/-- While an entity stays tracked, a step leaves its stored state alone or is a call that moves it. -/
theorem Step.stored (halive : b.Alive) (hstep : Step b entered b')
    (htracked : b'.ledger.contains h = true) (hstored : b.stored? h = some s) :
    b'.stored? h = some s ∨
      ∃ (c : Ledger.Call) (target : LifeState), c.move? b = some (h, target) ∧
        exec c.run b = (.ok (), b') ∧ b'.stored? h = some target ∧
        (target = s ∨ Leads s target) := by
  cases hstep with
  | edit => exact .inl hstored
  | @call _ c outcome hlive hrun =>
    cases hmove : c.move? b with
    | some move =>
      obtain ⟨k, target⟩ := move
      rcases Ledger.Call.outcome halive hmove with
        ⟨b₁, hmade, hpermits, -, hmoved⟩ | ⟨v, hfailed, -⟩
      · obtain ⟨-, rfl⟩ := Prod.mk.inj (hrun.symm.trans hmade)
        by_cases hk : h = k
        · subst hk
          exact .inr ⟨c, target, hmove, hmade, hmoved.stored, leads_of_permits hstored hpermits⟩
        · exact .inl (by rw [stored?, hmoved.others h hk]; exact hstored)
      · obtain ⟨-, rfl⟩ := Prod.mk.inj (hrun.symm.trans hfailed)
        exact .inl hstored
    | none =>
      left
      rw [stored?, find?_of_release hmove hrun htracked]
      exact hstored

/-- While an entity stays tracked, what is read follows the table from step to step. -/
theorem Step.reads (halive : b.Alive) (hstep : Step b entered b')
    (htracked : b'.ledger.contains h = true) {r r' : LifeState} (hr : b.reads? h = some r)
    (hr' : b'.reads? h = some r') : Path r r' := by
  obtain ⟨s, hs⟩ := stored?_of_contains (contains_of_reads? hr)
  obtain ⟨s', hs'⟩ := stored?_of_contains htracked
  have hstep : s' = s ∨ Leads s s' := by
    rcases hstep.stored halive htracked hs with hsame | ⟨c, target, -, -, hmoved, hleads⟩
    · exact .inl (Option.some.inj (hs'.symm.trans hsame))
    · obtain rfl := Option.some.inj (hs'.symm.trans hmoved)
      exact hleads
  exact (shows_of_stored? hs hr).path_of_step (shows_of_stored? hs' hr') hstep

/-! ## Whole histories -/

theorem Keeping.alive (halive : b.Alive) (hrun : b.Keeping h b') : b'.Alive := by
  induction hrun with
  | refl => exact halive
  | tail _ hlast ih =>
    obtain ⟨⟨entered, hstep⟩, -⟩ := hlast
    exact hstep.alive ih

theorem Keeping.tracked (htracked : b.ledger.contains h = true) (hrun : b.Keeping h b') :
    b'.ledger.contains h = true := by
  cases hrun with
  | refl => exact htracked
  | tail _ hlast => exact hlast.2

/-- What is read while an entity stays tracked follows the table. -/
theorem Keeping.reads (halive : b.Alive) (hrun : b.Keeping h b') {r r' : LifeState}
    (hr : b.reads? h = some r) (hr' : b'.reads? h = some r') : Path r r' := by
  induction hrun generalizing r' with
  | refl =>
    obtain rfl := Option.some.inj (hr.symm.trans hr')
    exact .refl
  | tail hfirst hlast ih =>
    obtain ⟨⟨entered, hstep⟩, htracked⟩ := hlast
    obtain ⟨s, hs⟩ := stored?_of_contains (Keeping.tracked (contains_of_reads? hr) hfirst)
    obtain ⟨r₁, hr₁, -⟩ := reads?_of_stored? hs
    exact (ih hr₁).trans (hstep.reads (Keeping.alive halive hfirst) htracked hr₁ hr')

/-- The call that takes a tracked entity from new to clean marks it clean. -/
theorem eq_markClean {c : Ledger.Call} (halive : b.Alive) (htracked : b.ledger.contains h = true)
    (hmove : c.move? b = some (h, .clean)) : c = .markClean h := by
  cases c with
  | markClean k =>
    cases hmove
    rfl
  | registerClean k =>
    cases hmove
    obtain ⟨e, he, hnext⟩ := List.mem_map.mp (Ledger.contains_iff.mp htracked)
    exact absurd (halive e he) (hnext ▸ Nat.lt_irrefl _)
  | registerNew | markDirty | markDeleted | unregister | reset => cases hmove

/-- An entity that was new and is so no more, nor deleted, has been marked clean in between. -/
theorem Keeping.markedClean (halive : b.Alive) (hrun : b.Keeping h b')
    (hnew : b.stored? h = some .new) :
    b'.stored? h = some .new ∨ b'.stored? h = some .deleted ∨
      ∃ b₁ b₂, b.Keeping h b₁ ∧ exec (Ledger.Call.markClean h).run b₁ = (.ok (), b₂) ∧
        b₂.Keeping h b' := by
  induction hrun with
  | refl => exact .inl hnew
  | @tail b₁ b₂ hfirst hlast ih =>
    obtain ⟨⟨entered, hstep⟩, htracked⟩ := hlast
    have halive₁ := Keeping.alive halive hfirst
    rcases ih with hnew₁ | hdeleted | ⟨c₁, c₂, hbefore, hmade, hafter⟩
    · rcases hstep.stored halive₁ htracked hnew₁ with hsame | ⟨c, target, hmove, hmade, hmoved, hleads⟩
      · exact .inl hsame
      · cases target with
        | new => exact .inl hmoved
        | deleted => exact .inr (.inl hmoved)
        | dirty => exact hleads.elim (nomatch ·) (nomatch ·)
        | clean =>
          obtain ⟨e, hfind, -⟩ := Option.map_eq_some_iff.mp hnew₁
          have htracked₁ : b₁.ledger.contains h = true := by
            rw [Ledger.contains, hfind]
            rfl
          obtain rfl := eq_markClean halive₁ htracked₁ hmove
          exact .inr (.inr ⟨b₁, b₂, hfirst, hmade, .refl⟩)
    · refine .inr (.inl ?_)
      rcases hstep.stored halive₁ htracked hdeleted with hsame | ⟨c, target, -, -, hmoved, hleads⟩
      · exact hsame
      · rcases hleads with rfl | hleads
        · exact hmoved
        · exact absurd hleads (not_deleted_leads target)
    · exact .inr (.inr ⟨c₁, c₂, hbefore, hmade, hafter.tail ⟨⟨entered, hstep⟩, htracked⟩⟩)

/-- **The ledger keeps to its table.** However a ledger has been kept: every call that is to move an
entity makes the move, which the table allows from what is stored or from what is read, or leaves
everything as it was; while an entity stays tracked, what is read of it follows paths of the table,
so that it is not new again and not brought back from being deleted, and if it was new and is dirty
it has been marked clean in between; and nothing is tracked twice, and what is tracked, and with it
what a commit would do, is listed in the order in which it was last registered. -/
theorem Kept.lawful (hkept : Kept log b) :
    (∀ (c : Ledger.Call) h target, c.move? b = some (h, target) → c.Outcome h target b) ∧
      (∀ h b' r r', b.Keeping h b' → b.reads? h = some r → b'.reads? h = some r' →
        Path r r' ∧ (r' = .new → r = .new) ∧ (r = .deleted → r' = .deleted) ∧
          (r = .new → r' = .dirty → ∃ b₁ b₂, b.Keeping h b₁ ∧
            exec (Ledger.Call.markClean h).run b₁ = (.ok (), b₂) ∧ b₂.Keeping h b')) ∧
      b.roll.Nodup ∧ b.roll = (log.dedup.filter fun h => h ∈ b.roll) ∧
      ((b.ledger.changeset b.pool).map Change.entity).Sublist b.roll := by
  have hb := hkept.upholds
  refine ⟨fun c h target => c.outcome hb.alive, ?_, hb.nodup, hb.roll_eq,
    Ledger.map_entity_changeset_sublist b.pool b.ledger⟩
  intro h b' r r' hrun hr hr'
  have hpath := hrun.reads hb.alive hr hr'
  refine ⟨hpath, hpath.eq_new, hpath.eq_deleted, ?_⟩
  intro hnew hdirty
  obtain ⟨s, hs⟩ := stored?_of_contains (contains_of_reads? hr)
  obtain ⟨s', hs'⟩ := stored?_of_contains (hrun.tracked (contains_of_reads? hr))
  have hstart : s = .new := (shows_of_stored? hs hr).path.eq_new hnew
  have hend := shows_of_stored? hs' hr'
  rcases hrun.markedClean hb.alive (hstart ▸ hs) with hstill | hdeleted | hmarked
  · obtain rfl := Option.some.inj (hs'.symm.trans hstill)
    rcases hend with rfl | ⟨hclean, -⟩
    · cases hdirty
    · cases hclean
  · obtain rfl := Option.some.inj (hs'.symm.trans hdeleted)
    cases (hend.path.eq_deleted rfl).symm.trans hdirty
  · exact hmarked

open Samples

/-- A red tag that nobody tracks yet. It is registered as new, marked clean, and made blue. -/
def freshTag : Books := ⟨(Pool.empty.alloc (tagNamed none "red")).2, []⟩

def newTag : Books := (exec (Ledger.Call.registerNew 0).run freshTag).2

def cleanTag : Books := (exec (Ledger.Call.markClean 0).run newTag).2

def blueTag : Books :=
  { cleanTag with pool := cleanTag.pool.edit 0 fun e => e.set "name" (.value (.string "blue")) }

theorem kept_newTag : Kept [0] newTag :=
  .step (.start freshTag.pool) (.call (c := .registerNew 0) (by decide) rfl)

theorem keeping_blueTag : newTag.Keeping 0 blueTag := by
  have hmarked : Step newTag [] cleanTag := .call (c := .markClean 0) (by decide) rfl
  have hedited : Step cleanTag [] blueTag := .edit (Nat.le_refl _)
  exact .tail (.single ⟨⟨[], hmarked⟩, rfl⟩) ⟨⟨[], hedited⟩, rfl⟩

/-- The tag reads as new and, later on, as dirty: it has been marked clean in between. -/
theorem lawful_newTag :
    Kept [0] newTag ∧ newTag.reads? 0 = some .new ∧ blueTag.reads? 0 = some .dirty ∧
      Path .new .dirty ∧
      (∃ b₁ b₂, newTag.Keeping 0 b₁ ∧ exec (Ledger.Call.markClean 0).run b₁ = (.ok (), b₂) ∧
        b₂.Keeping 0 blueTag) ∧ newTag.roll = [0] := by
  have hnew : newTag.reads? 0 = some .new := by decide +kernel
  have hdirty : blueTag.reads? 0 = some .dirty := by decide +kernel
  obtain ⟨-, hfollows, -, horder, -⟩ := Kept.lawful kept_newTag
  obtain ⟨hpath, -, -, hmarked⟩ := hfollows 0 blueTag .new .dirty keeping_blueTag hnew hdirty
  exact ⟨kept_newTag, hnew, hdirty, hpath, hmarked rfl rfl, horder⟩

end Books

end EntityStore
