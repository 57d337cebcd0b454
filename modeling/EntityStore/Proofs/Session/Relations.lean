import EntityStore.Collection.InSession
import EntityStore.Proofs.Filter.Criteria
import EntityStore.Proofs.Schema.Walk
import EntityStore.Proofs.Session.Runs

/-!
# What a session reads through relations

A session works on copies, and a copy relates to the entities that its original related to, not to
the copies of these that the session shows. What a filter or a sort key reads through a relation is
therefore an entity from before the session, and none that the session edits; nor does a commit
change it, since what is committed is copied once more. The session's own edits are seen through a
relation only where a field has been made to refer to what the session shows.
-/

namespace EntityStore

/-! ## Compiled paths -/

/-- A criterion that is compiled tests what its path leads to. -/
theorem FilterSpec.compile_criterion {schema : Schema} {root : String} {c : Criterion}
    {P : Predicate} (h : FilterSpec.compile schema root (.criterion c) = .ok P) :
    P = .test (Path.segments c.path) c.operator c.operand := by
  cases FilterSpec.compiled_of_compile h with
  | criterion hsteps => rw [Schema.names_of_resolve (Criterion.resolve_inv hsteps).1]

/-- A path without a to-many relation may be sorted by. -/
theorem OrderSpec.compile_key_of_resolve {schema : Schema} {root path : String} {steps : List Step}
    (hpath : schema.resolve root path = .ok steps) (hone : ∀ s ∈ steps, s.attr.isToMany = false)
    (direction : Direction) : OrderSpec.compile schema root (.key ⟨path, direction⟩)
      = .ok (.key ⟨Path.segments path, direction⟩) := by
  have hmany : (steps.any fun s => s.attr.isToMany) = false := by simpa using hone
  rw [OrderSpec.compile, OrderKey.resolve, hpath, ← Schema.names_of_resolve hpath]
  simp [hmany]

/-- What every criterion and every sort key over a path reads on an entity, if it compiles, is the
value `x`. -/
structure Pool.Reads (pool : Pool) (schema : Schema) (root path : String) (p : Handle) (x : Value) :
    Prop where
  filters : ∀ {operator operand P},
    FilterSpec.compile schema root (.criterion ⟨path, operator, operand⟩) = .ok P →
      P.holds pool p = operator.test operand x
  orders : ∀ {direction k},
    OrderSpec.compile schema root (.key ⟨path, direction⟩) = .ok (.key k) → pool.sortKey k.path p = x

/-- Through a relation is read what the entity has that the field refers to. -/
theorem Pool.reads_iff_eq {pool : Pool} {schema : Schema} {root path rel attr : String}
    {steps : List Step} (hpath : schema.resolve root path = .ok steps)
    (hone : ∀ s ∈ steps, s.attr.isToMany = false) (hnames : Path.segments path = [rel, attr])
    {p r : Handle} {x y : Value} (hrel : (pool.entity p).field? rel = some (.one (some r)))
    (hy : (pool.entity r).field? attr = some (.value y)) :
    pool.Reads schema root path p x ↔ y = x := by
  have hvalue : ∀ test, pool.anyValue test [rel, attr] p = test y := by
    intro test
    simp [anyValue, hrel, hy]
  have hkey : pool.sortKey [rel, attr] p = y := by simp [sortKey, hrel, hy]
  constructor
  · intro hreads
    have hread := hreads.orders (OrderSpec.compile_key_of_resolve hpath hone .asc)
    rw [← hread, ← hkey, ← hnames]
  · rintro rfl
    refine ⟨fun {operator operand P} hP => ?_, fun {direction k} hk => ?_⟩
    · rw [FilterSpec.compile_criterion hP]
      show pool.anyValue (operator.test operand) (Path.segments path) p = _
      rw [hnames]
      exact hvalue _
    · rw [Comparator.key.inj (OrderSpec.compile_key hk)]
      show pool.sortKey (Path.segments path) p = y
      rw [hnames]
      exact hkey

/-! ## Sessions that read and edit what they are given -/

namespace Session

/-- A session shows an entity. -/
def Shows (w : Work) (h : Handle) : Prop :=
  ∃ type c, w.session.caches.find? type = some c ∧ h ∈ c.entities

/-- A session that began on a store `s`: it has read, re-indexed, committed and rolled back, and the
entities it has shown so far have been edited in place, to the degree they may be. -/
inductive Visited (May : Entity → Entity → Prop) (s : Store) : Work → (Handle → Prop) → Prop
  | start : Visited May s ⟨s, .fresh⟩ fun _ => False
  /-- A call that brings no entity in and takes none out. -/
  | call {w : Work} {seen : Handle → Prop} (hw : Visited May s w seen) (c : Call)
    (hc : c.entity? = none) : Visited May s (after w c) fun h => seen h ∨ Shows (after w c) h
  | edit {w : Work} {seen : Handle → Prop} (hw : Visited May s w seen) {h : Handle}
    {f : Entity → Entity} (hh : seen h)
    (hf : May (w.store.pool.entity h) (f (w.store.pool.entity h))) : Visited May s (edited w h f) seen

variable {May : Entity → Entity → Prop} {s : Store} {w w' : Work} {seen : Handle → Prop}
  {α β : Type}

/-- A step that tracks nothing but what it makes itself. -/
structure Enrolls (m : SessionM α) : Prop where
  harmless : Harmless m
  made : ∀ {w}, Coherent (fun _ => False) w → ∀ e ∈ (exec m w).2.session.ledger,
    e ∈ w.session.ledger ∨ w.store.pool.next ≤ e.entity

theorem Enrolls.of_ledger {m : SessionM α} (hm : Harmless m)
    (h : ∀ w, (exec m w).2.session.ledger = w.session.ledger ∨ (exec m w).2.session.ledger = []) :
    Enrolls m := by
  refine ⟨hm, fun {w} _ e he => ?_⟩
  rcases h w with hsame | hnone
  · exact .inl (hsame ▸ he)
  · rw [hnone] at he
    exact absurd he List.not_mem_nil

theorem Enrolls.bind {m : SessionM α} {f : α → SessionM β} (hm : Enrolls m)
    (hf : ∀ a, Enrolls (f a)) : Enrolls (m >>= f) := by
  refine ⟨hm.harmless.bind fun a => (hf a).harmless, fun {w} hw e he => ?_⟩
  have hconducts := hm.harmless (fun _ => False) False w hw
  have hfirst := hm.made hw
  have hprogress := hconducts.progress
  rw [exec_bind] at he
  cases hrun : exec m w with
  | mk outcome w₁ =>
    rw [hrun] at he hfirst hprogress
    cases outcome with
    | error fault => exact hfirst e he
    | ok a =>
      rcases (hf a).made (hconducts.coherent_of_ok hrun) e he with hbefore | hmade
      · exact hfirst e hbefore
      · exact .inr (Nat.le_trans hprogress.pool.next_le hmade)

theorem enrolls_pure (a : α) : Enrolls (pure a : SessionM α) :=
  .of_ledger (harmless_pure a) fun _ => .inl rfl

theorem enrolls_get : Enrolls (get : SessionM Work) := .of_ledger harmless_get fun _ => .inl rfl

/-- **Checking out** tracks copies, whether or not they can be shown. -/
theorem enrolls_checkout (type : String) : Enrolls (checkout type) := by
  refine ⟨harmless_checkout type, fun {w} hw e he => ?_⟩
  cases hfind : w.session.caches.find? type with
  | some c =>
    rw [exec_checkout_of_some hfind] at he
    exact .inl he
  | none =>
    obtain ⟨hprogress, hfound⟩ := hw.store.checkout type
    rw [exec_checkout_of_none hfind, Store.exec_load] at he
    rcases hload : exec (Store.checkout type) w.store with ⟨fault | committed, s'⟩
    · rw [hload] at he
      exact .inl he
    · rw [hload] at he hprogress hfound
      -- the copies are tracked before they are seen to share a key, so also if the checkout fails
      have hlive := ((hw.store.progress hprogress).keyed (hfound committed rfl)).live
      obtain ⟨entries, hout⟩ := Ledger.registerAllClean_enrolls (l := w.session.ledger) hlive
      simp only [Except.map] at he
      rcases hregister : w.session.ledger.registerAllClean s'.pool committed.entities with
        ⟨copies, pool, ledger⟩
      rw [hregister] at he hout
      obtain rfl : ledger = w.session.ledger ++ entries := hout.ledger
      have hmem : e ∈ w.session.ledger ++ entries := by
        simp only at he
        cases hof : Cache.ofEntities pool type copies with
        | error fault => rwa [hof] at he
        | ok c => rwa [hof] at he
      rcases List.mem_append.mp hmem with hold | hnew
      · exact .inl hold
      · exact .inr (Nat.le_trans hprogress.pool.next_le (hout.fresh e hnew).1)

theorem enrolls_onCache (type : String) {f : Pool → Cache → Except StoreError α × Cache}
    (hf : Relisting f) : Enrolls (onCache type f) := by
  refine ⟨harmless_onCache type hf, fun {w} hw e he => ?_⟩
  have hcheckout := (enrolls_checkout type).made hw
  rw [exec_onCache] at he
  rcases hrun : exec (checkout type) w with ⟨fault | c, w₁⟩
  · rw [hrun] at he hcheckout
    exact hcheckout e he
  · rw [hrun] at he hcheckout
    exact hcheckout e he

theorem enrolls_readThrough (type : String) : Enrolls (readThrough type) := by
  refine enrolls_get.bind fun w => ?_
  split
  · exact enrolls_onCache type relisting_rebuild
  · exact enrolls_pure _

/-- A call about no entity tracks nothing but copies it makes. -/
theorem Call.enrolls (c : Call) (hc : c.entity? = none) : Enrolls c.run := by
  cases c with
  | add h | remove h | replace h | enter h | leave h => cases hc
  | getById type id =>
    exact ((enrolls_readThrough type).bind fun _ =>
      enrolls_onCache type (relisting_getById id)).bind fun _ => enrolls_pure _
  | getBySlug type slug =>
    exact ((enrolls_readThrough type).bind fun _ =>
      enrolls_onCache type (relisting_getBySlug slug)).bind fun _ => enrolls_pure _
  | all type =>
    exact ((enrolls_readThrough type).bind fun _ => (enrolls_checkout type).bind fun _ =>
      enrolls_pure _).bind fun _ => enrolls_pure _
  | flush => exact .of_ledger harmless_flush fun _ => .inl rfl
  | commit =>
    refine .of_ledger harmless_commit fun w => ?_
    show (exec Session.commit w).2.session.ledger = _ ∨ (exec Session.commit w).2.session.ledger = []
    rw [exec_commit]
    rcases exec (Store.commit (changeset w)) w.store with ⟨e | _, s'⟩
    · exact .inl rfl
    · exact .inr rfl
  | rollback => exact .of_ledger harmless_rollback fun _ => .inr rfl

/-! ## What was there before the session -/

/-- An invariant of a session that began on `s`: what was there then is as it was, and what the
session tracks and has shown was not there. -/
structure Visiting (s : Store) (w : Work) (seen : Handle → Prop) : Prop where
  coherent : Coherent (fun _ => False) w
  before : s.pool.Grows w.store.pool
  loader : w.store.repository.loader? = s.repository.loader?
  tracked : ∀ e ∈ w.session.ledger, s.pool.next ≤ e.entity
  seen : ∀ {h}, seen h → s.pool.next ≤ h

/-- What a session shows was not there when it began. -/
theorem Visiting.shows (hw : Visiting s w seen) {h : Handle} (hh : Shows w h) : s.pool.next ≤ h := by
  obtain ⟨type, c, hfind, hmem⟩ := hh
  obtain ⟨e, he, rfl, -⟩ := hw.coherent.shown hfind h hmem
  exact hw.tracked e he

/-- A call about no entity violates no contract, and the store makes progress. -/
theorem Visiting.call (hw : Visiting s w seen) (c : Call) (hc : c.entity? = none) :
    Store.Progress w.store (after w c).store ∧
      Visiting s (after w c) fun h => seen h ∨ Shows (after w c) h := by
  have henrolls := c.enrolls hc
  obtain ⟨hprogress, hcoherent, hfault⟩ := henrolls.harmless (fun _ => False) False w hw.coherent
  have htracked : ∀ e ∈ (after w c).session.ledger, s.pool.next ≤ e.entity := by
    intro e he
    rcases henrolls.made hw.coherent e he with hbefore | hmade
    · exact hw.tracked e hbefore
    · exact Nat.le_trans hw.before.next_le hmade
  have hafter : Visiting s (after w c) seen :=
    ⟨hcoherent.resolve_left hfault, hw.before.trans hprogress.pool, hprogress.loader.trans hw.loader,
      htracked, hw.seen⟩
  exact ⟨hprogress, hafter.coherent, hafter.before, hafter.loader, hafter.tracked,
    fun hh => hh.elim hw.seen hafter.shows⟩

/-- Editing what has been shown, but not its id, leaves alone what was there before. -/
theorem Visiting.edit (hw : Visiting s w seen) {h : Handle} {f : Entity → Entity} (hh : seen h)
    (hf : (w.store.pool.entity h).SameKey (f (w.store.pool.entity h))) :
    Visiting s (edited w h f) seen := by
  have hkey := Pool.sameKey_edit hf
  have hmeanwhile : w.store.Meanwhile Entity.SameKey (edited w h f).store :=
    ⟨Nat.le_refl _, fun k _ => hkey k, rfl, rfl, hw.coherent.store.typed⟩
  refine ⟨?_, ⟨hw.before.next_le, fun k hk => ?_⟩, hw.loader, hw.tracked, hw.seen⟩
  · exact hw.coherent.congr (hw.coherent.store.meanwhile hmeanwhile id) (.inl nofun) (Nat.le_refl _)
      (fun e _ => (hkey e.entity).1) fun e _ => (hkey e.entity).2
  · -- what was there before has not been shown, so it is not what is edited
    have hne : k ≠ h := fun heq => Nat.not_lt.mpr (hw.seen hh) (heq ▸ hk)
    show (w.store.pool.edit h f).entity k = _ ∨ _ ∧ ∃ id, (w.store.pool.edit h f).entity k = _
    rw [Pool.entity_edit_of_ne hne]
    exact hw.before.kept k hk

variable (hMay : ∀ {e e'}, May e e' → e.SameKey e') (hs : s.Upkept)

include hMay hs in
/-- **Kept by every step**: what was there before a session, and that the session works on other
entities. -/
theorem Visited.visiting (hw : Visited May s w seen) : Visiting s w seen := by
  induction hw with
  | start =>
    exact ⟨coherent_nil hs (.inl nofun) false, .refl _, rfl, fun _ he => absurd he List.not_mem_nil,
      fun hh => hh.elim⟩
  | call _ c hc ih => exact (ih.call c hc).2
  | edit _ hh hf ih => exact ih.edit hh (hMay hf)

include hMay hs in
/-- What all entities have, and are left to have by whoever edits them, all entities of a session
have. -/
theorem Visited.holds (hw : Visited May s w seen) {P : Entity → Prop} (hP : Lasting fun _ => P)
    (hkeeps : ∀ {e e'}, May e e' → P e → P e') (hsupplies : s.Supplies fun _ => P)
    (hpool : s.pool.Holds fun _ => P) : w.store.pool.Holds fun _ => P := by
  induction hw with
  | start => exact hpool
  | @call w seen hw c hc ih =>
    -- what is loaded has what the loader supplies, which no call changes
    have hvisiting := hw.visiting hMay hs
    exact (hvisiting.call c hc).1.holds hP
      (hsupplies.imp (fun _ _ he => he) hvisiting.loader) ih
  | @edit w seen hw h f hh hf ih =>
    exact Pool.Holds.edit ih fun hlive => hkeeps hf (ih h hlive)

include hMay hs in
/-- **What a session reads through a relation.** A criterion or a sort key over `rel.attr` reads on
`p` what an entity `v` has at `attr` exactly when the entity that `p` refers to has that, too. If
that one was there before the session it is as it was then, but for an id it may have been given,
and it is none that the session shows. And it was there before, unless a field has been made to
refer to an entity that was not. -/
theorem Visited.reads_through_relation (hw : Visited May s w seen) {schema : Schema} {root path rel attr : String}
    {steps : List Step} (hpath : schema.resolve root path = .ok steps)
    (hone : ∀ st ∈ steps, st.attr.isToMany = false) (hnames : Path.segments path = [rel, attr])
    {p r v : Handle} {x y : Value} (hp : Shows w p)
    (hrel : (w.store.pool.entity p).field? rel = some (.one (some r)))
    (hx : (w.store.pool.entity v).field? attr = some (.value x))
    (hy : (w.store.pool.entity r).field? attr = some (.value y)) :
    (w.store.pool.Reads schema root path p x ↔
        (w.store.pool.entity r).field? attr = (w.store.pool.entity v).field? attr) ∧
      (r < s.pool.next → ¬ Shows w r ∧ (s.pool.entity r).Completes (w.store.pool.entity r)) ∧
      ((∀ {e e'}, May e e' → e.RefersBelow s.pool.next → e'.RefersBelow s.pool.next) →
        s.pool.Closed → (s.Supplies fun _ e => e.RefersBelow s.pool.next) → r < s.pool.next) := by
  have hvisiting := hw.visiting hMay hs
  refine ⟨?_, fun hr => ⟨fun hshows => ?_, hvisiting.before.kept r hr⟩, ?_⟩
  · rw [Pool.reads_iff_eq hpath hone hnames hrel hy, hx, hy, Option.some_inj, Field.value.injEq]
  · exact Nat.not_lt.mpr (hvisiting.shows hshows) hr
  · intro hkeeps hclosed hsupplies
    have hlasting : Lasting fun _ (e : Entity) => e.RefersBelow s.pool.next :=
      ⟨fun _ he => he, fun _ he => he⟩
    obtain ⟨type, c, hfind, hmem⟩ := hp
    have hlive := (hvisiting.coherent.keyed hfind).live p hmem
    exact (hw.holds hMay hs hlasting hkeeps hsupplies hclosed p hlive).field? hrel r
      (by simp [Field.related])

open Samples

/-- A store with two people to load, Ann and her child Bob; Bob refers to an Ann that is at large. -/
def annAndBob : Store :=
  let ann := personCalled 1 "ann"
  let bob := (personCalled 2 "bob").set "parent" (.one (some 0))
  { pool := (Pool.empty.allocAll [ann]).2
    directory := .empty "."
    repository := (Repository.empty .defaults).withLoader "person" (.ofEntities [ann, bob]) }

theorem supplies_annAndBob {P : String → Entity → Prop}
    (hP : ∀ e ∈ [personCalled 1 "ann", (personCalled 2 "bob").set "parent" (.one (some 0))],
      P "person" e) : annAndBob.Supplies P := by
  intro type loader directory es hloader hes
  have hfind : (if type = "person" then some (Loader.ofEntities
      [personCalled 1 "ann", (personCalled 2 "bob").set "parent" (.one (some 0))]) else none)
      = some loader := hloader
  split at hfind
  · next htype =>
    obtain rfl := Option.some.inj hfind
    obtain rfl := Except.ok.inj hes
    exact htype ▸ hP
  · cases hfind

theorem upkept_annAndBob : annAndBob.Upkept :=
  Store.Untouched.upkept
    ⟨rfl, supplies_annAndBob (P := fun type e => e.type.name = type) (by decide)⟩

theorem shows_of_find? (type : String) {h : Handle}
    (hh : ((w.session.caches.find? type).map fun c => decide (h ∈ c.entities)) = some true) :
    Shows w h := by
  obtain ⟨c, hfind, hmem⟩ := Option.map_eq_some_iff.mp hh
  exact ⟨type, c, hfind, of_decide_eq_true hmem⟩

/-- A session has been given all people and renames the Ann that it shows. -/
def annRenamed : Work :=
  edited (after ⟨annAndBob, .fresh⟩ (.all "person")) 3
    fun e => e.set "nickname" (.value (.string "annie"))

/-- It commits that, and asks for all people again. -/
def annCommitted : Work := after (after annRenamed .commit) (.all "person")

theorem visited_annRenamed : ∃ seen, Visited Entity.SameKey annAndBob annRenamed seen :=
  ⟨_, (Visited.start.call (.all "person") rfl).edit
    (.inr (shows_of_find? "person" (by decide +kernel))) ⟨rfl, rfl⟩⟩

theorem visited_annCommitted : ∃ seen, Visited Entity.SameKey annAndBob annCommitted seen := by
  obtain ⟨seen, hw⟩ := visited_annRenamed
  exact ⟨_, (hw.call .commit rfl).call (.all "person") rfl⟩

/-- The people whose parent is called Annie. -/
def childrenOfAnnie : SessionCollection where
  type := "person"
  schema := .ofList Samples.all
  scope := none
  view := { View.all with
    filter := some (.criterion ⟨"parent.nickname", .equalTo, .single (.string "annie")⟩) }

/-- When the new name has been committed and all people have been loaded once more, what is read
through Bob's parent is the name that Ann had at first. -/
theorem reads_through_relation_annAndBob :
    (annCommitted.store.pool.entity 6).field? "nickname" = some (.value (.string "annie")) ∧
      ¬ annCommitted.store.pool.Reads childrenOfAnnie.schema "person" "parent.nickname" 7
        (.string "annie") ∧
      ¬ Shows annCommitted 0 := by
  obtain ⟨seen, hw⟩ := visited_annCommitted
  obtain ⟨steps, hpath, hone⟩ : ∃ steps,
      childrenOfAnnie.schema.resolve "person" "parent.nickname" = .ok steps ∧
        ∀ st ∈ steps, st.attr.isToMany = false := by
    refine ⟨[⟨toOne "parent" "parent_id" "person", person⟩, ⟨terminal "nickname" .string, person⟩],
      rfl, by decide⟩
  have hann : (annCommitted.store.pool.entity 6).field? "nickname" = some (.value (.string "annie")) := by
    decide +kernel
  have hparent : (annCommitted.store.pool.entity 0).field? "nickname"
      = some (.value (.string "ann")) := by decide +kernel
  obtain ⟨hreads, hbefore, -⟩ := hw.reads_through_relation id upkept_annAndBob hpath hone
    (show Path.segments "parent.nickname" = ["parent", "nickname"] by decide +kernel)
    (shows_of_find? "person" (h := 7) (by decide +kernel))
    (by decide +kernel) hann hparent
  refine ⟨hann, fun h => ?_, (hbefore (by decide)).1⟩
  have hsame := hreads.mp h
  rw [hann, hparent] at hsame
  exact absurd hsame (by decide)

/-- Bob's parent has the id of the Ann that the session shows and has renamed. Yet nobody is found
whose parent has the new name, neither before it is committed nor when it has been. -/
theorem not_reads_edit_through_relation :
    (∃ seen, Visited Entity.SameKey annAndBob annRenamed seen) ∧
      (Shows annRenamed 3 ∧ annRenamed.store.pool.id 3 = some 1 ∧
        (annRenamed.store.pool.entity 3).field? "nickname" = some (.value (.string "annie"))) ∧
      (Shows annRenamed 4 ∧ ∃ r, annRenamed.store.pool.id r = some 1 ∧
        (annRenamed.store.pool.entity 4).field? "parent" = some (.one (some r))) ∧
      (exec childrenOfAnnie.items annRenamed).1 = .ok [] ∧
      ((annCommitted.store.pool.entity 6).field? "nickname" = some (.value (.string "annie")) ∧
        (exec childrenOfAnnie.items annCommitted).1 = .ok []) := by
  refine ⟨visited_annRenamed, ⟨?_, ?_, ?_⟩, ⟨?_, 0, ?_, ?_⟩, ?_, ?_, ?_⟩
  · exact shows_of_find? "person" (by decide +kernel)
  · decide +kernel
  · decide +kernel
  · exact shows_of_find? "person" (by decide +kernel)
  · decide +kernel
  · decide +kernel
  · decide +kernel
  · decide +kernel
  · decide +kernel

end Session

end EntityStore
