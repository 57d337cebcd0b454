import EntityStore.Proofs.Entity.Plain
import EntityStore.Session
import Mathlib.Data.List.Nodup
import Mathlib.Data.List.Pairwise
import Mathlib.Logic.Function.Basic

/-!
# Ledgers that are in order

A ledger is read against a *base*: the content that the types had when the session checked them
out. It is in order when the entries that came from loading are those of the base, one for each id,
with the state data that the base has as their snapshots. Entries are moved about as entities are
removed, added again and put in each other's place, but an entry that came from loading is never
behind one of the same id that is still there; so the changes of an id come with the removal first.

A checkout that fails leaves copies behind that nobody has been handed. These *strays* are clean
and stay clean.
-/

namespace EntityStore

/-- The content of types as it was at some time. -/
abbrev Base := String → EntityId → Option Snapshot

/-- Two entities of one type and one id. -/
def Pool.SameKey (p : Pool) (g h : Handle) : Prop := p.typeName g = p.typeName h ∧ p.id g = p.id h

/-- What an entry of a ledger means for a later one: if that came from loading, an earlier one of
the same key was added by the session, and is gone. -/
def LedgerEntry.Before (p : Pool) (strays : Handle → Prop) (a b : LedgerEntry) : Prop :=
  ¬ strays a.entity → ¬ strays b.entity → p.SameKey a.entity b.entity → b.origin = .clean →
    a.origin = .new ∧ a.state = .deleted

/-- A ledger as it may come about, whatever it is read against. -/
structure Ledger.Formed (p : Pool) (l : Ledger) : Prop where
  /-- Nothing is tracked twice. -/
  nodup : (l.map LedgerEntry.entity).Nodup
  /-- What is tracked lives, and has an id. -/
  live : ∀ e ∈ l, e.entity < p.next ∧ p.id e.entity ≠ none
  /-- An entry is in the state it was registered in, or deleted. -/
  states : ∀ e ∈ l, (e.origin = .new ∨ e.origin = .clean) ∧ (e.state = e.origin ∨ e.state = .deleted)

/-- An invariant of ledgers. -/
structure Ledger.Sound (strays : Handle → Prop) (base : Base) (p : Pool) (l : Ledger) : Prop where
  /-- Nothing is tracked twice. -/
  nodup : (l.map LedgerEntry.entity).Nodup
  /-- What is tracked lives, and has an id. -/
  live : ∀ e ∈ l, e.entity < p.next ∧ p.id e.entity ≠ none
  /-- An entry is in the state it was registered in, or deleted. -/
  states : ∀ e ∈ l, (e.origin = .new ∨ e.origin = .clean) ∧ (e.state = e.origin ∨ e.state = .deleted)
  /-- Strays are clean. -/
  clean : ∀ e ∈ l, strays e.entity →
    e.state = .clean ∧ e.origin = .clean ∧ e.snapshot = Snapshot.capture p e.entity
  /-- Strays are tracked. -/
  tracked : ∀ {h}, strays h → ∃ e ∈ l, e.entity = h
  /-- What came from loading has the state data of the base as its snapshot. -/
  origins : ∀ e ∈ l, ¬ strays e.entity → e.origin = .clean →
    ∃ id, p.id e.entity = some id ∧ base (p.typeName e.entity) id = some e.snapshot
  /-- All that was loaded is tracked. -/
  covered : ∀ {t id x}, base t id = some x → ∃ e ∈ l, ¬ strays e.entity ∧ e.origin = .clean ∧
    p.typeName e.entity = t ∧ p.id e.entity = some id
  order : l.Pairwise (LedgerEntry.Before p strays)

namespace Ledger

variable {strays : Handle → Prop} {base : Base} {p q : Pool} {l : Ledger} {e : LedgerEntry}
  {h old : Handle}

theorem sound_nil : Sound (fun _ => False) (fun _ _ => none) p [] where
  nodup := List.nodup_nil
  live := fun _ he => absurd he List.not_mem_nil
  states := fun _ he => absurd he List.not_mem_nil
  clean := fun _ he => absurd he List.not_mem_nil
  tracked := fun h => h.elim
  origins := fun _ he => absurd he List.not_mem_nil
  covered := fun h => by cases h
  order := .nil

/-! ## Entries -/

/-- An entity has one entry. -/
theorem Formed.eq_of_entity_eq (hl : l.Formed p) {d : LedgerEntry} (he : e ∈ l) (hd : d ∈ l)
    (heq : e.entity = d.entity) : e = d := List.inj_on_of_nodup_map hl.nodup he hd heq

theorem Formed.find?_eq (hl : l.Formed p) (he : e ∈ l) : l.find? e.entity = some e := by
  cases hfind : l.find? e.entity with
  | none =>
    have hno := List.find?_eq_none.mp hfind e he
    exact absurd (beq_self_eq_true _) hno
  | some d =>
    have hd : d.entity = e.entity := by simpa using List.find?_some hfind
    rw [hl.eq_of_entity_eq (List.mem_of_find?_eq_some hfind) he hd]

theorem Sound.formed (hl : l.Sound strays base p) : l.Formed p := ⟨hl.nodup, hl.live, hl.states⟩

theorem Sound.eq_of_entity_eq (hl : l.Sound strays base p) {d : LedgerEntry} (he : e ∈ l) (hd : d ∈ l)
    (heq : e.entity = d.entity) : e = d := hl.formed.eq_of_entity_eq he hd heq

theorem Sound.find?_eq (hl : l.Sound strays base p) (he : e ∈ l) : l.find? e.entity = some e :=
  hl.formed.find?_eq he

/-- What no stray's entry is about is not astray. -/
theorem Sound.not_strays (hl : l.Sound strays base p)
    (hother : ∀ e ∈ l, strays e.entity → e.entity ≠ h) : ¬ strays h := by
  intro hstray
  obtain ⟨e, he, rfl⟩ := hl.tracked hstray
  exact hother e he hstray rfl

/-- Of two entries one is before the other. -/
theorem Sound.before_or_before (hl : l.Sound strays base p) {a b : LedgerEntry} (ha : a ∈ l)
    (hb : b ∈ l) (hne : a ≠ b) : a.Before p strays b ∨ b.Before p strays a := by
  have hpair : l.Pairwise fun a b => a.Before p strays b ∨ b.Before p strays a :=
    hl.order.imp fun h => .inl h
  have hsymm : Std.Symm fun a b : LedgerEntry => a.Before p strays b ∨ b.Before p strays a :=
    ⟨fun _ _ h => h.symm⟩
  exact hpair.forall ha hb hne

theorem Formed.congr (hl : l.Formed p) (hnext : p.next ≤ q.next)
    (hid : ∀ e ∈ l, q.id e.entity = p.id e.entity) : l.Formed q where
  nodup := hl.nodup
  live := fun e he => by
    rw [hid e he]
    exact ⟨Nat.lt_of_lt_of_le (hl.live e he).1 hnext, (hl.live e he).2⟩
  states := hl.states

/-- A ledger stays in order while what it tracks keeps its types and ids, and strays their state. -/
theorem Sound.congr (hl : l.Sound strays base p) (hnext : p.next ≤ q.next)
    (hid : ∀ e ∈ l, q.id e.entity = p.id e.entity)
    (htype : ∀ e ∈ l, q.typeName e.entity = p.typeName e.entity)
    (hstrays : ∀ e ∈ l, strays e.entity →
      Snapshot.capture q e.entity = Snapshot.capture p e.entity) : l.Sound strays base q where
  nodup := hl.nodup
  live := (hl.formed.congr hnext hid).live
  states := hl.states
  clean := fun e he hstray => by
    rw [hstrays e he hstray]
    exact hl.clean e he hstray
  tracked := hl.tracked
  origins := fun e he hstray horigin => by
    rw [hid e he, htype e he]
    exact hl.origins e he hstray horigin
  covered := fun hbase => by
    obtain ⟨e, he, hstray, horigin, ht, hi⟩ := hl.covered hbase
    exact ⟨e, he, hstray, horigin, (htype e he).trans ht, (hid e he).trans hi⟩
  order := by
    refine hl.order.imp_of_mem fun {a b} ha hb hbefore => ?_
    intro hstrayA hstrayB hkey
    refine hbefore hstrayA hstrayB ⟨?_, ?_⟩
    · rw [← htype a ha, ← htype b hb]
      exact hkey.1
    · rw [← hid a ha, ← hid b hb]
      exact hkey.2

/-! ## Marking -/

/-- An entry as it is once the entity `h` has been marked deleted. -/
def deleting (h : Handle) (e : LedgerEntry) : LedgerEntry :=
  if e.entity = h then { e with state := .deleted } else e

@[simp] theorem entity_deleting (h : Handle) (e : LedgerEntry) : (deleting h e).entity = e.entity := by
  unfold deleting
  split <;> rfl

@[simp] theorem origin_deleting (h : Handle) (e : LedgerEntry) : (deleting h e).origin = e.origin := by
  unfold deleting
  split <;> rfl

@[simp] theorem snapshot_deleting (h : Handle) (e : LedgerEntry) :
    (deleting h e).snapshot = e.snapshot := by
  unfold deleting
  split <;> rfl

theorem state_deleting (h : Handle) (e : LedgerEntry) :
    (deleting h e).state = if e.entity = h then .deleted else e.state := by
  unfold deleting
  split <;> rfl

theorem Formed.delete (hl : l.Formed p) (h : Handle) : Formed p (l.map (deleting h)) where
  nodup := by
    rw [List.map_map]
    refine (List.map_congr_left fun e _ => ?_ : _ = l.map LedgerEntry.entity) ▸ hl.nodup
    exact entity_deleting h e
  live := List.forall_mem_map.mpr fun e he => by
    rw [entity_deleting]
    exact hl.live e he
  states := List.forall_mem_map.mpr fun e he => by
    rw [origin_deleting, state_deleting]
    refine ⟨(hl.states e he).1, ?_⟩
    split
    · exact .inr rfl
    · exact (hl.states e he).2

/-- An entity that goes is marked, wherever it stands. -/
theorem Sound.delete (hl : l.Sound strays base p) (hh : ¬ strays h) :
    Sound strays base p (l.map (deleting h)) where
  nodup := (hl.formed.delete h).nodup
  live := (hl.formed.delete h).live
  states := (hl.formed.delete h).states
  clean := List.forall_mem_map.mpr fun e he hstray => by
    rw [entity_deleting] at hstray
    have hne : e.entity ≠ h := by
      intro heq
      rw [heq] at hstray
      exact hh hstray
    rw [deleting, if_neg hne]
    exact hl.clean e he hstray
  tracked := fun hstray => by
    obtain ⟨e, he, heq⟩ := hl.tracked hstray
    exact ⟨_, List.mem_map_of_mem he, (entity_deleting h e).trans heq⟩
  origins := List.forall_mem_map.mpr fun e he => by
    rw [entity_deleting, origin_deleting, snapshot_deleting]
    exact hl.origins e he
  covered := fun hbase => by
    obtain ⟨e, he, hentry⟩ := hl.covered hbase
    refine ⟨_, List.mem_map_of_mem he, ?_⟩
    rw [entity_deleting, origin_deleting]
    exact hentry
  order := by
    refine List.pairwise_map.mpr (hl.order.imp fun {a b} hbefore => ?_)
    unfold LedgerEntry.Before
    simp only [entity_deleting, origin_deleting, state_deleting]
    intro hstrayA hstrayB hkey horigin
    obtain ⟨hnew, hdeleted⟩ := hbefore hstrayA hstrayB hkey horigin
    refine ⟨hnew, ?_⟩
    split
    · rfl
    · exact hdeleted

/-! ## Entering -/

theorem mem_filter_ne :
    e ∈ List.filter (fun e : LedgerEntry => e.entity != old) l ↔ e ∈ l ∧ e.entity ≠ old := by
  rw [List.mem_filter, bne_iff_ne]

theorem Formed.append {entries : Ledger} (hl : l.Formed p) (hentries : entries.Formed p)
    (hfresh : ∀ e ∈ entries, ∀ d ∈ l, d.entity ≠ e.entity) : Formed p (l ++ entries) where
  nodup := by
    rw [List.map_append, List.nodup_append]
    refine ⟨hl.nodup, hentries.nodup, ?_⟩
    intro k hk k' hk' heq
    obtain ⟨d, hd, rfl⟩ := List.mem_map.mp hk
    obtain ⟨e, he, rfl⟩ := List.mem_map.mp hk'
    exact hfresh e he d hd heq
  live := List.forall_mem_append.mpr ⟨hl.live, hentries.live⟩
  states := List.forall_mem_append.mpr ⟨hl.states, hentries.states⟩

/-- An entity comes in, at the end of the ledger, and takes the place of another or its own. -/
theorem Formed.enter (hl : l.Formed p) {entry : LedgerEntry}
    (hother : ∀ e ∈ l, e.entity ≠ old → e.entity ≠ entry.entity) (hlive : entry.entity < p.next)
    (hid : p.id entry.entity ≠ none) (hstate : entry.state = entry.origin)
    (horigin : entry.origin = .new ∨ entry.origin = .clean) :
    Formed p (List.filter (fun e => e.entity != old) l ++ [entry]) := by
  have hrest : Formed p (List.filter (fun e => e.entity != old) l) :=
    ⟨hl.nodup.sublist (List.filter_sublist.map _), fun e he => hl.live e (mem_filter_ne.mp he).1,
      fun e he => hl.states e (mem_filter_ne.mp he).1⟩
  have hentry : Formed p [entry] :=
    ⟨List.nodup_singleton _, List.forall_mem_singleton.mpr ⟨hlive, hid⟩,
      List.forall_mem_singleton.mpr ⟨horigin, .inl hstate⟩⟩
  refine hrest.append hentry (List.forall_mem_singleton.mpr fun e he => ?_)
  exact hother e (mem_filter_ne.mp he).1 (mem_filter_ne.mp he).2

/-- Where an entry for an entity comes from that takes the place of `old`: the entity is new, and
so was what it takes the place of, or it takes over what that was loaded as. -/
inductive Inherits (p : Pool) (l : Ledger) (old : Handle) (entry : LedgerEntry) : Prop
  | new (horigin : entry.origin = .new) (hold : ∀ e ∈ l, e.entity = old → e.origin = .new)
  | loaded {e : LedgerEntry} (he : e ∈ l) (hold : e.entity = old) (hclean : e.origin = .clean)
    (hkey : p.SameKey old entry.entity) (horigin : entry.origin = .clean)
    (hsnapshot : entry.snapshot = e.snapshot)

theorem Inherits.origin {entry : LedgerEntry} (h : Inherits p l old entry) :
    entry.origin = .new ∨ entry.origin = .clean := by
  cases h with
  | new horigin _ => exact .inl horigin
  | loaded _ _ _ _ horigin _ => exact .inr horigin

/-- What is tracked already and is none of the strays leaves what comes in for it none. -/
theorem Sound.not_strays_entry (hl : l.Sound strays base p) {entry : LedgerEntry}
    (hold : ¬ strays old) (hother : ∀ e ∈ l, e.entity ≠ old → e.entity ≠ entry.entity) :
    ¬ strays entry.entity :=
  hl.not_strays fun e he hstray => hother e he fun heq => hold (heq ▸ hstray)

/-- What takes over what was loaded has it for its snapshot. -/
theorem Sound.origin_entry (hl : l.Sound strays base p) {entry : LedgerEntry} (hold : ¬ strays old)
    (hinherits : Inherits p l old entry) (hclean : entry.origin = .clean) :
    ∃ id, p.id entry.entity = some id ∧ base (p.typeName entry.entity) id = some entry.snapshot := by
  cases hinherits with
  | new horigin _ =>
    rw [horigin] at hclean
    cases hclean
  | @loaded e he heo hec hkey _ hsnapshot =>
    rw [hsnapshot, ← hkey.1, ← hkey.2, ← heo]
    exact hl.origins e he (heo ▸ hold) hec

/-- Of the entries of a key that was loaded, only the one that was loaded came from loading. -/
theorem Sound.added_of_sameKey (hl : l.Sound strays base p) {a : LedgerEntry} (ha : a ∈ l) (he : e ∈ l)
    (hne : a ≠ e) (hstrayA : ¬ strays a.entity) (hstrayE : ¬ strays e.entity)
    (hkey : p.SameKey a.entity e.entity) (hclean : e.origin = .clean) : a.origin = .new := by
  rcases hl.before_or_before ha he hne with hbefore | hafter
  · exact (hbefore hstrayA hstrayE hkey hclean).1
  · rcases (hl.states a ha).1 with hnew | hclean'
    · exact hnew
    · have hnew := (hafter hstrayE hstrayA ⟨hkey.1.symm, hkey.2.symm⟩ hclean').1
      rw [hclean] at hnew
      cases hnew

/-- What takes over what was loaded comes behind entries of its key that were added. -/
theorem Sound.added_of_inherits (hl : l.Sound strays base p) {a entry : LedgerEntry}
    (hold : ¬ strays old) (hinherits : Inherits p l old entry) (hclean : entry.origin = .clean)
    (ha : a ∈ l) (hao : a.entity ≠ old) (hstray : ¬ strays a.entity)
    (hkey : p.SameKey a.entity entry.entity) : a.origin = .new := by
  cases hinherits with
  | new horigin _ =>
    rw [horigin] at hclean
    cases hclean
  | @loaded e he heo hec hkey' _ _ =>
    refine hl.added_of_sameKey ha he (fun heq => hao (heq ▸ heo)) hstray (heo ▸ hold) ?_ hec
    rw [heo]
    exact ⟨hkey.1.trans hkey'.1.symm, hkey.2.trans hkey'.2.symm⟩

/-- An entity comes in, at the end of the ledger, and takes the place of another or its own. All
others of its key must have gone. -/
theorem Sound.enter (hl : l.Sound strays base p) {entry : LedgerEntry} (hold : ¬ strays old)
    (hother : ∀ e ∈ l, e.entity ≠ old → e.entity ≠ entry.entity) (hlive : entry.entity < p.next)
    (hid : p.id entry.entity ≠ none) (hstate : entry.state = entry.origin)
    (hinherits : Inherits p l old entry)
    (hgone : ∀ e ∈ l, ¬ strays e.entity → e.entity ≠ old → p.SameKey e.entity entry.entity →
      e.state = .deleted) :
    Sound strays base p (List.filter (fun e => e.entity != old) l ++ [entry]) := by
  have hmem : ∀ {e : LedgerEntry}, e ∈ List.filter (fun e : LedgerEntry => e.entity != old) l ↔
      e ∈ l ∧ e.entity ≠ old := mem_filter_ne
  have hnot := hl.not_strays_entry hold hother
  have hformed := hl.formed.enter hother hlive hid hstate hinherits.origin
  refine ⟨hformed.nodup, hformed.live, hformed.states, ?_, ?_, ?_, ?_, ?_⟩
  · refine List.forall_mem_append.mpr ⟨fun e he => hl.clean e (hmem.mp he).1, ?_⟩
    exact List.forall_mem_singleton.mpr fun hstray => absurd hstray hnot
  · intro k hstray
    obtain ⟨e, he, rfl⟩ := hl.tracked hstray
    exact ⟨e, List.mem_append_left _ (hmem.mpr ⟨he, fun heq => hold (heq ▸ hstray)⟩), rfl⟩
  · refine List.forall_mem_append.mpr ⟨fun e he => hl.origins e (hmem.mp he).1, ?_⟩
    exact List.forall_mem_singleton.mpr fun _ => hl.origin_entry hold hinherits
  · intro t id x hbase
    obtain ⟨e, he, hstray, hclean, ht, hi⟩ := hl.covered hbase
    by_cases heo : e.entity = old
    · -- what was loaded under this id has been taken over
      cases hinherits with
      | new _ hnew =>
        rw [hnew e he heo] at hclean
        cases hclean
      | loaded _ _ _ hkey horigin _ =>
        refine ⟨entry, List.mem_append_right _ (List.mem_singleton_self _), hnot, horigin, ?_, ?_⟩
        · rw [← hkey.1, ← heo]
          exact ht
        · rw [← hkey.2, ← heo]
          exact hi
    · exact ⟨e, List.mem_append_left _ (hmem.mpr ⟨he, heo⟩), hstray, hclean, ht, hi⟩
  · refine List.pairwise_append.mpr ⟨hl.order.sublist List.filter_sublist, List.pairwise_singleton _ _, ?_⟩
    intro a ha b hb
    obtain rfl := List.mem_singleton.mp hb
    obtain ⟨ha, hao⟩ := hmem.mp ha
    intro hstray _ hkey hclean
    exact ⟨hl.added_of_inherits hold hinherits hclean ha hao hstray hkey,
      hgone a ha hstray hao hkey⟩

/-! ## Loading -/

/-- Copies of loaded entities, as they are registered. -/
structure Copies (p : Pool) (l entries : Ledger) : Prop where
  nodup : (entries.map LedgerEntry.entity).Nodup
  fresh : ∀ e ∈ entries, ∀ d ∈ l, d.entity ≠ e.entity
  live : ∀ e ∈ entries, e.entity < p.next ∧ p.id e.entity ≠ none
  clean : ∀ e ∈ entries,
    e.state = .clean ∧ e.origin = .clean ∧ e.snapshot = Snapshot.capture p e.entity

variable {entries : Ledger}

theorem Copies.formed (h : Copies p l entries) : entries.Formed p where
  nodup := h.nodup
  live := h.live
  states := fun e he => by
    obtain ⟨hstate, horigin, -⟩ := h.clean e he
    exact ⟨.inr horigin, .inl (hstate.trans horigin.symm)⟩

/-- What was tracked before is none of the copies. -/
theorem Copies.strays_of_mem (h : Copies p l entries) {d : LedgerEntry} (hd : d ∈ l)
    (hstray : strays d.entity ∨ ∃ e ∈ entries, e.entity = d.entity) : strays d.entity := by
  rcases hstray with hstray | ⟨e, he, heq⟩
  · exact hstray
  · exact absurd heq.symm (h.fresh e he d hd)

/-- The copies are none of the strays there were. -/
theorem Sound.not_strays_copies (hl : l.Sound strays base p) (hentries : Copies p l entries) :
    ∀ e ∈ entries, ¬ strays e.entity :=
  fun e he => hl.not_strays fun d hd _ => hentries.fresh e he d hd

/-- Copies that never get into a cache are strays. -/
theorem Sound.strand (hl : l.Sound strays base p) (hentries : Copies p l entries) :
    Sound (fun h => strays h ∨ ∃ e ∈ entries, e.entity = h) base p (l ++ entries) := by
  have hstray : ∀ e ∈ entries, strays e.entity ∨ ∃ d ∈ entries, d.entity = e.entity :=
    fun e he => .inr ⟨e, he, rfl⟩
  have hformed := hl.formed.append hentries.formed hentries.fresh
  refine ⟨hformed.nodup, hformed.live, hformed.states, ?_, ?_, ?_, ?_, ?_⟩
  · refine List.forall_mem_append.mpr ⟨fun d hd h => hl.clean d hd (hentries.strays_of_mem hd h), ?_⟩
    exact fun e he _ => hentries.clean e he
  · intro h hh
    rcases hh with hh | ⟨e, he, heq⟩
    · obtain ⟨e, he, heq⟩ := hl.tracked hh
      exact ⟨e, List.mem_append_left _ he, heq⟩
    · exact ⟨e, List.mem_append_right _ he, heq⟩
  · refine List.forall_mem_append.mpr ⟨?_, fun e he h => absurd (hstray e he) h⟩
    exact fun d hd h => hl.origins d hd fun hs => h (.inl hs)
  · intro t id x hbase
    obtain ⟨d, hd, hs, hentry⟩ := hl.covered hbase
    exact ⟨d, List.mem_append_left _ hd, fun h => hs (hentries.strays_of_mem hd h), hentry⟩
  · refine List.pairwise_append.mpr ⟨?_, ?_, ?_⟩
    · exact hl.order.imp fun hbefore hA hB => hbefore (fun h => hA (.inl h)) fun h => hB (.inl h)
    · refine List.pairwise_of_forall_mem_list fun a ha b _ hA => absurd (hstray a ha) hA
    · exact fun a _ b hb _ hB => absurd (hstray b hb) hB

/-- Copies of a type that the session had not touched are what the base is from then on. -/
theorem Sound.load (hl : l.Sound strays base p) (hentries : Copies p l entries) {type : String}
    (htype : ∀ e ∈ entries, p.typeName e.entity = type)
    (huntouched : ∀ e ∈ l, ¬ strays e.entity → p.typeName e.entity ≠ type)
    (hids : (entries.map fun e => p.id e.entity).Nodup) {content : EntityId → Option Snapshot}
    (hcontent : ∀ id x, content id = some x ↔
      ∃ e ∈ entries, p.id e.entity = some id ∧ e.snapshot = x) :
    Sound strays (Function.update base type content) p (l ++ entries) := by
  have hnot := hl.not_strays_copies hentries
  have hformed := hl.formed.append hentries.formed hentries.fresh
  refine ⟨hformed.nodup, hformed.live, hformed.states, ?_, ?_, ?_, ?_, ?_⟩
  · exact List.forall_mem_append.mpr ⟨hl.clean, fun e he h => absurd h (hnot e he)⟩
  · intro h hh
    obtain ⟨e, he, heq⟩ := hl.tracked hh
    exact ⟨e, List.mem_append_left _ he, heq⟩
  · refine List.forall_mem_append.mpr ⟨?_, ?_⟩
    · intro d hd h horigin
      rw [Function.update_of_ne (huntouched d hd h)]
      exact hl.origins d hd h horigin
    · intro e he _ _
      obtain ⟨id, hid⟩ := Option.ne_none_iff_exists'.mp (hentries.live e he).2
      refine ⟨id, hid, ?_⟩
      rw [htype e he, Function.update_self]
      exact (hcontent id _).mpr ⟨e, he, hid, rfl⟩
  · intro t id x hbase
    by_cases ht : t = type
    · subst ht
      rw [Function.update_self] at hbase
      obtain ⟨e, he, hid, -⟩ := (hcontent id x).mp hbase
      exact ⟨e, List.mem_append_right _ he, hnot e he, (hentries.clean e he).2.1, htype e he, hid⟩
    · rw [Function.update_of_ne ht] at hbase
      obtain ⟨d, hd, hentry⟩ := hl.covered hbase
      exact ⟨d, List.mem_append_left _ hd, hentry⟩
  · refine List.pairwise_append.mpr ⟨hl.order, ?_, ?_⟩
    · refine (List.pairwise_map.mp hids).imp fun {a b} hne => ?_
      exact fun _ _ hkey => absurd hkey.2 hne
    · intro a ha b hb hA _ hkey
      exact absurd (hkey.1.trans (htype b hb)) (huntouched a ha hA)

end Ledger

end EntityStore
