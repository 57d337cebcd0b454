import EntityStore.Proofs.Cache.Changes
import EntityStore.Proofs.Cache.Numbering
import EntityStore.Samples.Stores

/-!
# Finding what has been numbered

Numbering a cache writes ids into its entities one after the other, and has the indexes rebuilt if
it comes to the end. Where the generator fails on the way, the ids that were given until then stay,
and the indexes are left as they were. **An id that was given is found unless the indexes were taken
to be up to date and the generator failed later on**; and whoever holds an id that is found keeps
others of that id out.
-/

namespace EntityStore.Cache

variable {σ : Type} {next : σ → Except StoreError EntityId × σ} {pool pool' : Pool} {c c' : Cache}
  {s s' : σ} {outcome : Except StoreError Nat} {h : Handle}

/-! ## Looking for every id -/

/-- Every listed entity is found under the id it has. -/
def FindsAll (pool : Pool) (c : Cache) : Prop :=
  ∀ h ∈ c.entities, ∀ id, pool.id h = some id → (c.getById pool id).1 = some h

/-- An index that covers the list finds all there is, where ids are unique. -/
theorem get?_of_covers (hindex : c.byId.Covers pool.id c.entities)
    (hunique : (pool.roster c.entities).ids.Nodup) (hmem : h ∈ c.entities) {id : EntityId}
    (hid : pool.id h = some id) : c.byId.get? id = some h :=
  hindex.get?_eq hmem hid fun _ hg hgid => Pool.eq_of_id_eq hunique hg hmem hgid hid

theorem findsAll_of_stale (hstale : c.stale = true) (hunique : (pool.roster c.entities).ids.Nodup) :
    c.FindsAll pool := by
  intro h hmem id hid
  have hrefresh : c.refresh pool = c.rebuild pool := if_pos hstale
  show (c.refresh pool).byId.get? id = some h
  rw [hrefresh]
  exact get?_of_covers (covers_rebuild pool c).1 hunique hmem hid

theorem findsAll_iff_of_fresh (hfresh : c.stale = false) :
    c.FindsAll pool ↔ ∀ h ∈ c.entities, ∀ id, pool.id h = some id → c.byId.get? id = some h := by
  have hrefresh : c.refresh pool = c := by
    unfold refresh
    rw [hfresh, if_neg Bool.false_ne_true]
  unfold FindsAll getById
  simp only [hrefresh]

/-- Whoever is found under an id keeps others of that id out. -/
theorem FindsAll.add_refused (hfinds : c.FindsAll pool) (hmem : h ∈ c.entities) {id : EntityId}
    (hid : pool.id h = some id) {k : Handle} (hk : k ∉ c.entities) (hkid : pool.id k = some id) :
    (c.add pool k).1 = .error (.duplicateId c.type id) := by
  have hfound : (c.refresh pool).byId.get? id = some h := hfinds h hmem id hid
  have hconflict : (c.refresh pool).conflict? pool k = some (.duplicateId c.type id) := by
    rw [conflict?, hkid, Option.filter_some, hfound, type_refresh]
    rfl
  rcases add_cases pool k c with ⟨hlisted, -⟩ | ⟨-, e, he, hadd⟩ | ⟨-, hnone, -⟩
  · exact absurd hlisted hk
  · rw [hadd, Option.some.inj (he.symm.trans hconflict)]
  · rw [hconflict] at hnone
    cases hnone

/-! ## What numbering leaves -/

/-- Where nothing was given, nothing has changed. -/
theorem pool_of_assignIds_zero {hs : List Handle}
    (hrun : assignIds next hs pool s = (.ok 0, pool', s')) : pool' = pool := by
  induction hs with
  | nil => exact (Prod.mk.inj (Prod.mk.inj hrun).2).1.symm
  | cons h rest ih =>
    cases hid : pool.id h with
    | some id =>
      rw [assignIds_cons_of_id hid] at hrun
      exact ih hrun
    | none =>
      rcases hnext : next s with ⟨e | id, s₁⟩
      · rw [assignIds_cons_of_error hid hnext] at hrun
        cases hrun
      · rw [assignIds_cons_of_next hid hnext] at hrun
        -- one that was given an id counts
        rcases hrest : assignIds next rest (pool.edit h fun e => e.setId (some id)) s₁
          with ⟨e | n, p, s₂⟩ <;> rw [hrest] at hrun <;> cases hrun

/-- Numbering marks the indexes as stale if it came to the end and was not idle; else it leaves the
cache as it was. -/
theorem assignMissingIds_cases (hrun : c.assignMissingIds next pool s = (outcome, c', pool', s')) :
    assignIds next c.entities pool s = (outcome, pool', s') ∧
      ((∃ n, outcome = .ok (n + 1) ∧ c' = c.invalidate) ∨
        (∀ n, outcome ≠ .ok (n + 1)) ∧ c' = c) := by
  unfold assignMissingIds at hrun
  rcases hassign : assignIds next c.entities pool s with ⟨e | n, p, s₁⟩ <;> rw [hassign] at hrun
  · obtain ⟨rfl, rfl, rfl, rfl⟩ : .error e = outcome ∧ c = c' ∧ p = pool' ∧ s₁ = s' := by
      simpa using hrun
    exact ⟨rfl, .inr ⟨nofun, rfl⟩⟩
  · obtain ⟨rfl, rfl, rfl, rfl⟩ :
        .ok n = outcome ∧ (if n = 0 then c else c.invalidate) = c' ∧ p = pool' ∧ s₁ = s' := by
      simpa using hrun
    refine ⟨rfl, ?_⟩
    cases n with
    | zero => exact .inr ⟨nofun, if_pos rfl⟩
    | succ n => exact .inl ⟨n, rfl, if_neg (Nat.succ_ne_zero n)⟩

/-- No id is taken away or written over. -/
theorem id_of_assignIds {hs : List Handle} (hrun : assignIds next hs pool s = (outcome, pool', s'))
    {id : EntityId} (hid : pool.id h = some id) : pool'.id h = some id := by
  have hgives := assignIds_frame next hs pool s
  rw [hrun] at hgives
  rw [Pool.id, hgives.kept h (.inr (hid ▸ Option.some_ne_none id))]
  exact hid

/-- Indexes that were up to date, and are left as they were, go on finding all exactly if nobody has
been given an id. -/
theorem findsAll_iff_unchanged (hfresh : c.stale = false)
    (hindex : c.byId.Covers pool.id c.entities)
    (hrun : assignIds next c.entities pool s = (outcome, pool', s'))
    (hunique : (pool'.roster c.entities).ids.Nodup) :
    c.FindsAll pool' ↔ ∀ h ∈ c.entities, pool'.id h = pool.id h := by
  rw [findsAll_iff_of_fresh hfresh]
  constructor
  · intro hfinds h hmem
    cases hid : pool'.id h with
    | some id => exact (hindex.sound (hfinds h hmem id hid)).2.symm
    | none =>
      cases hold : pool.id h with
      | none => rfl
      | some id =>
        rw [id_of_assignIds hrun hold] at hid
        cases hid
  · intro hsame h hmem id hid
    exact get?_of_covers (hindex.congr hsame) hunique hmem hid

/-- **When all ids are found after numbering**, whatever the generator does, if ids are unique then:
exactly if the indexes were stale before, or the generator came to the end and was asked at all, or
the indexes held already what they would have to hold. For indexes that were up to date this means
that the generator did not fail, or had not yet given any id. And whatever is found keeps others of
its id out. -/
theorem findsAll_after_numbering_iff
    (hrun : c.assignMissingIds next pool s = (outcome, c', pool', s'))
    (hunique : (pool'.roster c.entities).ids.Nodup) :
    (c'.FindsAll pool' ↔ c.stale = true ∨ (∃ n, outcome = .ok (n + 1)) ∨
        ∀ h ∈ c.entities, ∀ id, pool'.id h = some id → c.byId.get? id = some h) ∧
      (c.byId.Covers pool.id c.entities →
        (c'.FindsAll pool' ↔ c.stale = true ∨ outcome.isOk = true ∨
          ∀ h ∈ c.entities, pool'.id h = pool.id h)) ∧
      (c'.FindsAll pool' → ∀ h ∈ c'.entities, ∀ id, pool'.id h = some id →
        ∀ k ∉ c'.entities, pool'.id k = some id →
          (c'.add pool' k).1 = .error (.duplicateId c'.type id)) := by
  have hrejects : c'.FindsAll pool' → ∀ h ∈ c'.entities, ∀ id, pool'.id h = some id →
      ∀ k ∉ c'.entities, pool'.id k = some id →
        (c'.add pool' k).1 = .error (.duplicateId c'.type id) :=
    fun hfinds h hmem id hid k hk hkid => hfinds.add_refused hmem hid hk hkid
  obtain ⟨hassign, ⟨n, rfl, rfl⟩ | ⟨hnot, rfl⟩⟩ := assignMissingIds_cases hrun
  · have hfinds : c.invalidate.FindsAll pool' := findsAll_of_stale rfl hunique
    exact ⟨iff_of_true hfinds (.inr (.inl ⟨n, rfl⟩)),
      fun _ => iff_of_true hfinds (.inr (.inl rfl)), hrejects⟩
  · cases hstale : c'.stale with
    | true =>
      have hfinds : c'.FindsAll pool' := findsAll_of_stale hstale hunique
      exact ⟨iff_of_true hfinds (.inl rfl), fun _ => iff_of_true hfinds (.inl rfl), hrejects⟩
    | false =>
      refine ⟨?_, fun hindex => ?_, hrejects⟩
      · rw [findsAll_iff_of_fresh hstale]
        simp [hnot]
      · rw [findsAll_iff_unchanged hstale hindex hassign hunique]
        refine ⟨fun hsame => .inr (.inr hsame), ?_⟩
        rintro (hstale | hok | hsame)
        · cases hstale
        · -- nothing was given, as the generator came to the end and was not asked
          cases outcome with
          | error e => cases hok
          | ok n =>
            cases n with
            | zero => exact fun h _ => by rw [pool_of_assignIds_zero hassign]
            | succ n => exact absurd rfl (hnot n)
        · exact hsame

open Samples

/-- A red tag and a blue one that have no ids, and a green one that has the first id. -/
def threeTags : Pool :=
  (Pool.empty.allocAll [tagNamed none "red", tagNamed none "blue", tagNamed (some 1) "green"]).2

/-- A cache of the red and the blue tag, whose indexes are up to date. -/
def redThenBlue : Cache := ⟨"tag", [0, 1], [], [("red", 0), ("blue", 1)], false⟩

theorem ofEntities_redThenBlue : ofEntities threeTags "tag" [0, 1] = .ok redThenBlue := by rfl

/-- A generator that has the first id to give and no other. -/
def firstIdOnly : Bool → Except StoreError EntityId × Bool
  | true => (.ok 1, false)
  | false => (.error (.idsExhausted "tag"), false)

/-- The red tag is given the first id, and there is none for the blue one. Had the indexes been stale,
the red tag is found and the green one of its id is kept out. -/
theorem findsAll_after_numbering_stale :
    let run := redThenBlue.invalidate.assignMissingIds firstIdOnly threeTags true
    run.1 = .error (.idsExhausted "tag") ∧ run.2.1.FindsAll run.2.2.1 ∧
      (run.2.1.add run.2.2.1 2).1 = .error (.duplicateId "tag" 1) := by
  intro run
  have hrun : redThenBlue.invalidate.assignMissingIds firstIdOnly threeTags true
      = (run.1, run.2.1, run.2.2.1, run.2.2.2) := rfl
  have hunique : (run.2.2.1.roster redThenBlue.invalidate.entities).ids.Nodup := by decide +kernel
  obtain ⟨hiff, -, hrejects⟩ := findsAll_after_numbering_iff hrun hunique
  have hfinds : run.2.1.FindsAll run.2.2.1 := hiff.mpr (.inl rfl)
  exact ⟨by rfl, hfinds, hrejects hfinds 0 (by decide +kernel) 1 (by decide +kernel) 2
    (by decide +kernel) (by decide +kernel)⟩

/-- **An id that was given before the generator failed is not found**, if the indexes were up to date.
The red tag has the first id then, and the green one of the same id is let in beside it. -/
theorem not_findsAll_of_failing_generator :
    let run := redThenBlue.assignMissingIds firstIdOnly threeTags true
    redThenBlue.stale = false ∧ redThenBlue.byId.Covers threeTags.id redThenBlue.entities ∧
      run.1 = .error (.idsExhausted "tag") ∧ (run.2.2.1.roster run.2.1.entities).ids = [1] ∧
      run.2.2.1.id 0 = some 1 ∧ (run.2.1.getById run.2.2.1 1).1 = none ∧
      (run.2.1.add run.2.2.1 2).1 = .ok () ∧
      (run.2.2.1.roster (run.2.1.add run.2.2.1 2).2.entities).ids = [1, 1] := by
  refine ⟨rfl, ?_, by rfl, by decide +kernel, by decide +kernel, by decide +kernel,
    by decide +kernel, by decide +kernel⟩
  have hcovers := ofEntities_spec threeTags "tag" [0, 1]
  rw [ofEntities_redThenBlue] at hcovers
  exact hcovers.2.1.byId

end EntityStore.Cache
