import EntityStore.Proofs.Repository.Committing
import EntityStore.Samples.Stores

/-!
# Which commits are accepted

A store is reached from one that has loaded nothing by loading types, drawing ids and committing,
while whoever uses it makes and edits entities of their own. In every reachable store a commit is
accepted or refused by what the touched types list once all changes are made, as long as no
addition takes a slug that is still held when its turn comes; and then changes that concern
different ids may come in any order. Without that condition the order does matter: an addition is
compared with the slugs of the moment, an update or a removal is not.
-/

namespace EntityStore

namespace Store

/-- A store before anything was asked of it. -/
structure Initial (s : Store) : Prop where
  caches : s.repository.caches = []
  lastId : ∀ type, s.repository.lastId type = 0
  inMemory : s.InMemory
  /-- Loaders yield entities of their type. -/
  typed : ∀ {type es}, s.loaded type = .ok es → ∀ e ∈ es, e.type.name = type
  /-- Relations lead to entities that live. -/
  yields : s.Yields fun n e => e.RefersBelow n
  closed : s.pool.Closed

/-- The entities of the repository, which nobody else has a hand in. -/
def Owns (s : Store) (h : Handle) : Prop :=
  ∃ type c, s.repository.caches.find? type = some c ∧ h ∈ c.entities

/-- The stores that come about by using one. -/
inductive Reachable : Store → Prop
  | initial {s : Store} (h : Initial s) : Reachable s
  | load {s : Store} (h : Reachable s) (type : String) : Reachable (exec (load type) s).2
  | newId {s : Store} (h : Reachable s) (type : String) : Reachable (exec (newId type) s).2
  | commit {s : Store} (h : Reachable s) {changes : Changeset}
    (hlive : ∀ c ∈ changes, c.entity < s.pool.next) : Reachable (exec (commit changes) s).2
  /-- Others make and edit entities of their own. -/
  | outside {s : Store} (h : Reachable s) {pool : Pool} (hnext : s.pool.next ≤ pool.next)
    (howned : ∀ h, s.Owns h → pool.entity h = s.pool.entity h) (hclosed : pool.Closed) :
    Reachable { s with pool }

variable {s : Store} {changes changes' : Changeset} {type : String}

theorem Initial.sound (h : Initial s) : s.Sound where
  committed := by
    intro type c hc
    rw [h.caches] at hc
    cases hc
  typed := h.typed
  yields := h.yields
  closed := h.closed

/-- Every reachable store is sound. -/
theorem Reachable.sound (h : Reachable s) : s.Sound ∧ s.InMemory := by
  induction h with
  | initial h => exact ⟨h.sound, h.inMemory⟩
  | load _ type ih =>
    obtain ⟨hs, hmemory⟩ := ih
    rw [exec_load]
    rcases hrun : exec (checkout type) _ with ⟨e | c, s'⟩
    · exact ⟨(hs.failsToLoad hrun).sound, (hs.failsToLoad hrun).toFrame.inMemory hmemory⟩
    · exact ⟨(hs.loads hrun).sound, (hs.loads hrun).toFrame.inMemory hmemory⟩
  | newId _ type ih =>
    obtain ⟨hs, hmemory⟩ := ih
    obtain ⟨hretains, hsound, -⟩ := newId_spec hs type
    exact ⟨hsound, hretains.toFrame.inMemory hmemory⟩
  | commit _ hlive ih =>
    obtain ⟨hs, hmemory⟩ := ih
    have hspec := commit_spec hs hmemory hlive
    rcases hrun : exec (Store.commit _) _ with ⟨e | _, s'⟩
    · rw [hrun] at hspec
      exact ⟨hspec.2.1, hspec.1.toFrame.inMemory hmemory⟩
    · rw [hrun] at hspec
      exact ⟨hspec.sound, hspec.toFrame.inMemory hmemory⟩
  | outside _ hnext howned hclosed ih =>
    obtain ⟨hs, hmemory⟩ := ih
    exact ⟨hs.withPool hnext (fun hc h hh => howned h ⟨_, _, hc, hh⟩) hclosed, hmemory⟩

/-! ## Changes that concern different ids -/

end Store

/-- Two changes concern different ids, or entities of different types. -/
def Change.Apart (pool : Pool) (a b : Change) : Prop :=
  pool.typeName a.entity = pool.typeName b.entity → Edit.Apart (a.edit pool) (b.edit pool)

namespace Changeset

variable {pool : Pool} {cs ds : Changeset} {type : String}

/-- In another order, the changes of each type come in another order. -/
theorem editsOf_reordered (h : Reordered (Change.Apart pool) cs ds) (type : String) :
    Reordered Edit.Apart (cs.editsOf pool type) (ds.editsOf pool type) := by
  induction h with
  | refl l => exact .refl _
  | @swap a b l m hapart =>
    have hswap : ∀ c d : Change, l ++ c :: d :: m = l ++ [c] ++ [d] ++ m := by simp
    rw [hswap, hswap]
    simp only [editsOf_append]
    by_cases ha : pool.typeName a.entity = type
    · by_cases hb : pool.typeName b.entity = type
      · rw [editsOf_singleton ha, editsOf_singleton hb]
        simp only [List.append_assoc, List.singleton_append]
        exact .swap _ _ (hapart (ha.trans hb.symm))
      · rw [editsOf_singleton_of_ne hb, List.append_nil, List.append_nil]
        exact .refl _
    · rw [editsOf_singleton_of_ne ha, List.append_nil, List.append_nil]
      exact .refl _
  | trans _ _ ih₁ ih₂ => exact ih₁.trans ih₂

theorem touches_reordered {apart : Change → Change → Prop} (h : Reordered apart cs ds) :
    cs.Touches pool type ↔ ds.Touches pool type :=
  ⟨fun ⟨c, hc, htype⟩ => ⟨c, h.perm.mem_iff.mp hc, htype⟩,
    fun ⟨c, hc, htype⟩ => ⟨c, h.perm.mem_iff.mpr hc, htype⟩⟩

end Changeset

namespace Roster

variable {r r' : Roster}

theorem latest_perm (h : r.Perm r') (last : EntityId) : r.latest last = r'.latest last := by
  refine Int64.toInt_inj.mp (Int.le_antisymm ?_ ?_)
  · exact latest_le (le_latest _ _) fun id hid => id_le_latest _ ((ids_perm h).mem_iff.mp hid)
  · exact latest_le (le_latest _ _) fun id hid => id_le_latest _ ((ids_perm h).mem_iff.mpr hid)

theorem roomy_perm (h : r.Perm r') (last : EntityId) : r.Roomy last ↔ r'.Roomy last := by
  rw [Roomy, Roomy, latest_perm h, unnumbered, unnumbered, h.countP_eq]

end Roster

namespace Store

variable {s : Store} {changes changes' : Changeset} {type : String}

/-- What a changeset is judged by holds of every type it touches. -/
def Throughout (p : Roster → Edit → Prop) (s : Store) (changes : Changeset) : Prop :=
  ∀ type, changes.Touches s.pool type → s.Meets p changes type

/-- What the touched types list in the end. -/
def Finally (p : Roster → EntityId → Prop) (s : Store) (changes : Changeset) : Prop :=
  ∀ type, changes.Touches s.pool type → ∀ r last, s.opened type = .ok (r, last) →
    p (r.edits (changes.editsOf s.pool type)) last

/-- A commit that goes through leaves no key held twice. -/
theorem finally_uniqueKeys_of_commit (hs : s.Reachable)
    (hlive : ∀ c ∈ changes, c.entity < s.pool.next) (hok : (exec (commit changes) s).1 = .ok ()) :
    s.Finally (fun r _ => r.UniqueKeys) changes := by
  have hspec := commit_spec hs.sound.1 hs.sound.2 hlive
  rcases hrun : exec (commit changes) s with ⟨e | _, s'⟩
  · rw [hrun] at hok
    cases hok
  · rw [hrun] at hspec
    intro type htouched r last hopened
    obtain ⟨r', last', -, hacceptable, -⟩ := hspec.touched htouched
    have hsame := hacceptable.opened
    rw [hopened] at hsame
    obtain ⟨rfl, rfl⟩ := Prod.mk.inj (Except.ok.inj hsame)
    exact hacceptable.unique

/-- A commit that can be staged and numbered, and leaves no key held twice, goes through. -/
theorem commit_of_finally_uniqueKeys (hs : s.Reachable)
    (hlive : ∀ c ∈ changes, c.entity < s.pool.next) (hfits : s.Throughout Roster.Fits changes)
    (hroomy : s.Finally Roster.Roomy changes) (hfree : s.Throughout Roster.SlugFree changes)
    (hunique : s.Finally (fun r _ => r.UniqueKeys) changes) :
    (exec (commit changes) s).1 = .ok () := by
  have hspec := commit_spec hs.sound.1 hs.sound.2 hlive
  rcases hrun : exec (commit changes) s with ⟨e | _, s'⟩
  · rw [hrun] at hspec
    refine absurd ?_ hspec.2.2
    intro type htouched
    obtain ⟨r, last, hopened, hr⟩ := hfits type htouched
    obtain ⟨r', last', hopened', hr'⟩ := hfree type htouched
    have hsame := hopened'
    rw [hopened] at hsame
    obtain ⟨rfl, rfl⟩ := Prod.mk.inj (Except.ok.inj hsame)
    exact ⟨r, last, ⟨⟨hopened, hr⟩, hunique type htouched r last hopened,
      hroomy type htouched r last hopened⟩, hr'⟩
  · rfl

/-- What holds of rosters regardless of order holds in the end of changes in another order. -/
theorem finally_reordered {p : Roster → EntityId → Prop}
    (hp : ∀ {r r' : Roster} {last}, r.Perm r' → p r last → p r' last)
    (h : Reordered (Change.Apart s.pool) changes changes') (hchanges : s.Finally p changes) :
    s.Finally p changes' := by
  intro type htouched r last hopened
  refine hp (Roster.edits_reordered (Changeset.editsOf_reordered h type)) ?_
  exact hchanges type ((Changeset.touches_reordered h).mpr htouched) r last hopened

/-- Changes in another order fit if they did. -/
theorem throughout_fits_reordered (h : Reordered (Change.Apart s.pool) changes changes')
    (hfits : s.Throughout Roster.Fits changes) : s.Throughout Roster.Fits changes' := by
  intro type htouched
  obtain ⟨r, last, hopened, hr⟩ := hfits type ((Changeset.touches_reordered h).mpr htouched)
  exact ⟨r, last, hopened,
    Roster.throughout_fits_reordered (Changeset.editsOf_reordered h type) hr⟩

/-- **Acceptance.** Where every change fits when its turn comes, no addition takes a slug that is
then held and the sequences are not exhausted, a commit goes through if and only if no touched
type lists a key twice once all changes are made; and so does every other order of the changes
that moves none past another of the same id and lets no addition take a slug that is then held. -/
theorem commit_ok_iff_uniqueKeys (hs : s.Reachable)
    (hlive : ∀ c ∈ changes, c.entity < s.pool.next)
    (hfits : s.Throughout Roster.Fits changes) (hroomy : s.Finally Roster.Roomy changes)
    (hfree : s.Throughout Roster.SlugFree changes) :
    ((exec (commit changes) s).1 = .ok () ↔ s.Finally (fun r _ => r.UniqueKeys) changes) ∧
      ∀ changes', Reordered (Change.Apart s.pool) changes changes' →
        s.Throughout Roster.SlugFree changes' →
          ((exec (commit changes') s).1 = .ok () ↔ (exec (commit changes) s).1 = .ok ()) := by
  have hiff : (exec (commit changes) s).1 = .ok () ↔ s.Finally (fun r _ => r.UniqueKeys) changes :=
    ⟨finally_uniqueKeys_of_commit hs hlive,
      commit_of_finally_uniqueKeys hs hlive hfits hroomy hfree⟩
  refine ⟨hiff, ?_⟩
  intro changes' h hfree'
  have hlive' : ∀ c ∈ changes', c.entity < s.pool.next := fun c hc =>
    hlive c (h.perm.mem_iff.mpr hc)
  have hroomy' : s.Finally Roster.Roomy changes' :=
    finally_reordered (fun hperm => (Roster.roomy_perm hperm _).mp) h hroomy
  rw [hiff]
  constructor
  · intro hok
    have hunique' := finally_uniqueKeys_of_commit hs hlive' hok
    intro type htouched r last hopened
    have hperm := Roster.edits_reordered (r := r) (Changeset.editsOf_reordered h type)
    exact (Roster.uniqueKeys_perm hperm).mpr
      (hunique' type ((Changeset.touches_reordered h).mp htouched) r last hopened)
  · intro hunique
    have hunique' := finally_reordered (p := fun r _ => r.UniqueKeys)
      (fun hperm => (Roster.uniqueKeys_perm hperm).mp) h hunique
    exact commit_of_finally_uniqueKeys hs hlive' (throughout_fits_reordered h hfits) hroomy' hfree'
      hunique'

/-- A changeset of one type meets a condition if it does so there. -/
theorem Meets.throughout {p : Roster → Edit → Prop} (type : String)
    (htypes : ∀ c ∈ changes, s.pool.typeName c.entity = type) (h : s.Meets p changes type) :
    s.Throughout p changes := by
  rintro _ ⟨c, hc, rfl⟩
  rw [htypes c hc]
  exact h

/-- What the only touched type lists in the end. -/
theorem finally_of_types {p : Roster → EntityId → Prop} (type : String)
    (htypes : ∀ c ∈ changes, s.pool.typeName c.entity = type) {r : Roster} {last : EntityId}
    (hopened : s.opened type = .ok (r, last))
    (h : p (r.edits (changes.editsOf s.pool type)) last) : s.Finally p changes := by
  rintro _ ⟨c, hc, rfl⟩ r' last' hopened'
  rw [htypes c hc] at hopened' ⊢
  rw [hopened] at hopened'
  obtain ⟨rfl, rfl⟩ := Prod.mk.inj (Except.ok.inj hopened')
  exact h

open Samples

theorem loaded_redAndBlue {made : List Entity} {type : String} {es : List Entity}
    (hes : (redAndBlue made).loaded type = .ok es) :
    es = [] ∨ type = "tag" ∧ es = [tagNamed (some 1) "red", tagNamed (some 2) "blue"] := by
  by_cases htype : type = "tag"
  · subst htype
    exact .inr ⟨rfl, (Except.ok.inj hes).symm⟩
  · have hnone : (redAndBlue made).loaded type = .ok [] := by
      rw [loaded, show (redAndBlue made).repository.loader? type = none from if_neg htype]
    rw [hnone] at hes
    exact .inl (Except.ok.inj hes).symm

theorem initial_redAndBlue {made : List Entity} (hmade : ∀ e ∈ made, e.RefersBelow 0) :
    Initial (redAndBlue made) where
  caches := rfl
  lastId := fun _ => rfl
  inMemory := fun _ => rfl
  typed := by
    intro type es hes
    rcases loaded_redAndBlue hes with rfl | ⟨rfl, rfl⟩
    · exact fun _ he => absurd he List.not_mem_nil
    · decide
  yields := by
    intro type es hes e he
    refine Entity.RefersBelow.mono ?_ (Nat.zero_le _)
    revert e
    rcases loaded_redAndBlue hes with rfl | ⟨rfl, rfl⟩
    · exact fun _ he => absurd he List.not_mem_nil
    · decide
  closed := Pool.Holds.allocAll (fun h hh => absurd hh (Nat.not_lt_zero h)) lasting_refersBelow hmade

/-- Two tags swap their names, and a third one comes. -/
theorem commit_ok_of_swapped_slugs :
    (exec (commit [⟨.update, 0⟩, ⟨.update, 1⟩, ⟨.add, 2⟩]) (redAndBlue
      [tagNamed (some 1) "blue", tagNamed (some 2) "red", tagNamed none "green"])).1 = .ok () :=
  (commit_ok_iff_uniqueKeys (.initial (initial_redAndBlue (by decide))) (by decide)
    (Meets.throughout "tag" (by decide) ⟨_, _, rfl, by decide +kernel⟩)
    (finally_of_types "tag" (by decide) rfl (by decide +kernel))
    (Meets.throughout "tag" (by decide) ⟨_, _, rfl, by decide +kernel⟩)).1.mpr
    (finally_of_types "tag" (by decide) rfl (by decide +kernel))

/-- A red tag is added, and then the one that was red becomes crimson. No slug is held twice in
the end, and yet the commit is refused; in the other order, which moves no change past another of
the same id, it goes through. -/
theorem not_commit_ok_of_slug_freed_later :
    let s := redAndBlue [tagNamed (some 1) "crimson", tagNamed none "red"]
    s.Reachable ∧ s.Throughout Roster.Fits [⟨.add, 1⟩, ⟨.update, 0⟩] ∧
      s.Finally Roster.Roomy [⟨.add, 1⟩, ⟨.update, 0⟩] ∧
      s.Finally (fun r _ => r.UniqueKeys) [⟨.add, 1⟩, ⟨.update, 0⟩] ∧
      (exec (commit [⟨.add, 1⟩, ⟨.update, 0⟩]) s).1 = .error (.duplicateSlug "tag" "red") ∧
      Reordered (Change.Apart s.pool) [⟨.add, 1⟩, ⟨.update, 0⟩] [⟨.update, 0⟩, ⟨.add, 1⟩] ∧
      (exec (commit [⟨.update, 0⟩, ⟨.add, 1⟩]) s).1 = .ok () := by
  refine ⟨.initial (initial_redAndBlue (by decide)), ?_, ?_, ?_, ?_, ?_, ?_⟩
  · exact Meets.throughout "tag" (by decide) ⟨_, _, rfl, by decide +kernel⟩
  · exact finally_of_types "tag" (by decide) rfl (by decide +kernel)
  · exact finally_of_types "tag" (by decide) rfl (by decide +kernel)
  · decide +kernel
  · -- the added tag has no id
    refine .swap [] [] fun _ id hid => ?_
    cases hid
  · decide +kernel

end Store

end EntityStore
