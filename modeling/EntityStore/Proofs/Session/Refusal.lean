import EntityStore.Proofs.Repository.Acceptance
import EntityStore.Proofs.Session.Steps

/-!
# Refused commits

Whatever a commit does before it is refused, it does to entities of its own. The types that were
loaded list the same entities as before, with the ids and fields they had; and the session that
asked for the commit shows the same entities, tracks them in the same states and has the same
changes to hand over, so that it may correct them and try again, or drop them.
-/

namespace EntityStore

/-- The committed entities of a type that has been loaded, by what they are. -/
def Store.listed (s : Store) (type : String) : Option (List (Handle × Entity)) :=
  (s.repository.caches.find? type).map fun c => c.entities.map fun h => (h, s.pool.entity h)

namespace Session

/-- The entities of a type that a session has checked out and shows. -/
def shown (w : Work) (type : String) : Option (List (Handle × Entity)) :=
  (w.session.caches.find? type).map fun c => c.entities.map fun h => (h, w.store.pool.entity h)

/-- What a session lists and tracks lives. -/
structure Living (session : Session) (pool : Pool) : Prop where
  listed : ∀ c ∈ session.caches, ∀ h ∈ c.entities, h < pool.next
  tracked : ∀ e ∈ session.ledger, e.entity < pool.next

variable {w : Work} {p q : Pool} {l : Ledger}

/-- Entities that live on as they are are in the state they were in. -/
theorem current_congr (hpq : p.Extends q) (hclosed : p.Closed) {e : LedgerEntry}
    (he : e.entity < p.next) : e.current q = e.current p := by
  rw [LedgerEntry.current, LedgerEntry.current, Snapshot.capture_extends hpq hclosed he]

theorem changeset_congr (hpq : p.Extends q) (hclosed : p.Closed)
    (hl : ∀ e ∈ l, e.entity < p.next) : l.changeset q = l.changeset p := by
  refine List.filterMap_congr fun e he => ?_
  rw [Ledger.changeOf, Ledger.changeOf, current_congr hpq hclosed (hl e he)]

theorem ledgerState_congr (hpq : p.Extends q) (hclosed : p.Closed)
    (hl : ∀ e ∈ l, e.entity < p.next) (h : Handle) : l.state? q h = l.state? p h := by
  rw [Ledger.state?, Ledger.state?]
  cases hfind : l.find? h with
  | none => rfl
  | some e =>
    exact congrArg some (current_congr hpq hclosed (hl e (List.mem_of_find?_eq_some hfind)))

/-- The changes of a session are about what it tracks. -/
theorem entity_of_mem_changeset {c : Change} (hc : c ∈ l.changeset p) :
    ∃ e ∈ l, c.entity = e.entity := by
  obtain ⟨e, he, hchange⟩ := List.mem_filterMap.mp hc
  refine ⟨e, he, ?_⟩
  unfold Ledger.changeOf at hchange
  split at hchange <;> cases hchange <;> rfl

theorem Living.changeset (h : w.session.Living w.store.pool) :
    ∀ c ∈ changeset w, c.entity < w.store.pool.next := by
  intro c hc
  obtain ⟨e, he, heq⟩ := entity_of_mem_changeset hc
  rw [heq]
  exact h.tracked e he

/-- What is retained is listed as before. -/
theorem listed_retains {s s' : Store} (hs : s.Sound) (h : s.Retains s') {type : String}
    {l : List (Handle × Entity)} (hl : s.listed type = some l) : s'.listed type = some l := by
  obtain ⟨c, hc, rfl⟩ := Option.map_eq_some_iff.mp hl
  rw [Store.listed, h.caches hc]
  refine congrArg some (List.map_congr_left fun k hk => ?_)
  rw [h.pool.kept k ((hs.committed hc).live k hk)]

theorem retains_of_refused {s : Store} {changes : Changeset} (hs : s.Reachable)
    (hlive : ∀ c ∈ changes, c.entity < s.pool.next) {e : StoreError}
    (hfail : (exec (Store.commit changes) s).1 = .error e) :
    s.Retains (exec (Store.commit changes) s).2 := by
  have hspec := Store.commit_spec hs.sound.1 hs.sound.2 hlive
  rcases hrun : exec (Store.commit changes) s with ⟨e' | _, s'⟩
  · rw [hrun] at hspec
    exact hspec.1
  · rw [hrun] at hfail
    cases hfail

/-- **A refused commit changes nothing**, neither of what is committed nor, where a session asked
for it, of what the session shows, tracks and has yet to hand over. -/
theorem commit_refused (hs : w.store.Reachable) (hw : w.session.Living w.store.pool) :
    (∀ changes : Changeset, (∀ c ∈ changes, c.entity < w.store.pool.next) →
      ∀ e, (exec (Store.commit changes) w.store).1 = .error e →
        ∀ type l, w.store.listed type = some l →
          (exec (Store.commit changes) w.store).2.listed type = some l) ∧
      ∀ fault, (exec commit w).1 = .error fault →
        (∀ type l, w.store.listed type = some l →
            (exec commit w).2.store.listed type = some l) ∧
          (∀ type, shown (exec commit w).2 type = shown w type) ∧
          (∀ h, state? h (exec commit w).2 = state? h w) ∧
          changeset (exec commit w).2 = changeset w := by
  refine ⟨?_, ?_⟩
  · intro changes hlive e hfail type l hl
    exact listed_retains hs.sound.1 (retains_of_refused hs hlive hfail) hl
  · intro fault hfail
    have hclosed := hs.sound.1.closed
    have hretains := fun e => retains_of_refused hs hw.changeset (e := e)
    rw [exec_commit] at hfail ⊢
    rcases hrun : exec (Store.commit (changeset w)) w.store with ⟨e | _, s'⟩
    · rw [hrun] at hretains
      have hr : w.store.Retains s' := hretains e rfl
      refine ⟨?_, ?_, ?_, ?_⟩
      · intro type l hl
        exact listed_retains hs.sound.1 hr hl
      · intro type
        rw [shown, shown, Caches.find?_rebuild]
        cases hfind : w.session.caches.find? type with
        | none => rfl
        | some c =>
          refine congrArg some (List.map_congr_left fun k hk => ?_)
          rw [hr.pool.kept k (hw.listed c (Caches.mem_of_find? hfind) k hk)]
      · exact ledgerState_congr hr.pool hclosed hw.tracked
      · exact changeset_congr hr.pool hclosed hw.tracked
    · rw [hrun] at hfail
      cases hfail

open Samples

/-- A session that has a second red tag to add is refused, and still has it to add. -/
theorem commit_refused_second_red :
    let w : Work := ⟨redAndBlue [tagNamed none "red"], ⟨[⟨0, .new, .new, []⟩], [], false⟩⟩
    (exec commit w).1 = .error (.store (.duplicateSlug "tag" "red")) ∧
      changeset (exec commit w).2 = [⟨.add, 0⟩] := by
  intro w
  have hanswer : (exec (Store.commit (changeset w)) w.store).1
      = .error (.duplicateSlug "tag" "red") := by decide +kernel
  have hfail : (exec commit w).1 = .error (.store (.duplicateSlug "tag" "red")) := by
    rw [fst_exec_commit, hanswer]
    rfl
  have hliving : w.session.Living w.store.pool := ⟨fun _ h => absurd h List.not_mem_nil, by decide⟩
  have hrefused :=
    (commit_refused (.initial (Store.initial_redAndBlue (by decide))) hliving).2 _ hfail
  exact ⟨hfail, hrefused.2.2.2⟩

end Session

end EntityStore
