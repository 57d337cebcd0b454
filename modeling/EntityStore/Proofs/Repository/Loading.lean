import EntityStore.Proofs.Cache.Changes
import EntityStore.Proofs.Repository.Steps

/-!
# Loading types and drawing ids

A store is *sound* when each cache of its repository lists living entities of its type, all with
ids of their own, under an index that is up to date. Steps keep a store sound; they never touch an
entity that lives, and put what they make above it.

A type that has not been loaded reads as it would if it were: *opening* it yields a roster and the
last id of its sequence, or the failure of its loader, and these depend on the loader alone. So
loading one type does not change what opening another yields.
-/

namespace EntityStore

/-- A committed cache: every entity has an id, and the indexes are up to date. -/
structure Cache.Committed (pool : Pool) (c : Cache) : Prop extends Keyed pool c where
  fresh : c.stale = false
  slugs : c.bySlug.Sound pool.slug c.entities
  numbered : ∀ h ∈ c.entities, pool.id h ≠ none

namespace Cache

variable {p q : Pool} {c : Cache}

theorem Committed.kept (hc : c.Committed p) (hpq : p.Grows q) :
    ∀ h ∈ c.entities, q.entity h = p.entity h :=
  fun h hh => hpq.kept_of_id (hc.live h hh) (hc.numbered h hh)

theorem Committed.congr (hc : c.Committed p) (hnext : p.next ≤ q.next)
    (he : ∀ h ∈ c.entities, q.entity h = p.entity h) : c.Committed q where
  toKeyed := hc.toKeyed.congr hnext he
  fresh := hc.fresh
  slugs := hc.slugs.congr fun h hh => by rw [Pool.slug, Pool.slug, he h hh]
  numbered := fun h hh => by
    rw [Pool.id, he h hh]
    exact hc.numbered h hh

/-- Whatever grows around it, a committed cache stays as it is. -/
theorem Committed.grows (hc : c.Committed p) (hpq : p.Grows q) : c.Committed q :=
  hc.congr hpq.next_le (hc.kept hpq)

theorem Committed.staged (hc : c.Committed p) (n : Handle) : c.Staged n p where
  toKeyed := hc.toKeyed
  slugs := .inr hc.slugs
  newcomers := fun h hh hid => absurd hid (hc.numbered h hh)

/-- A keyed list that has been numbered, and is then indexed. -/
theorem committed_rebuild (hlive : ∀ h ∈ c.entities, h < p.next)
    (htyped : ∀ h ∈ c.entities, p.typeName h = c.type) (hnodup : c.entities.Nodup)
    (hids : (p.roster c.entities).ids.Nodup) (hall : ∀ h ∈ c.entities, p.id h ≠ none) :
    (c.rebuild p).Committed p where
  live := hlive
  typed := htyped
  nodup := hnodup
  ids := hids
  byId := .inr (covers_rebuild p c).1
  fresh := rfl
  slugs := (covers_rebuild p c).2.toSound
  numbered := hall

end Cache

namespace Store

/-! ## What every step keeps -/

/-- All that loaders yield has a property. -/
def Yields (P : Handle → Entity → Prop) (s : Store) : Prop :=
  ∀ {type es}, s.loaded type = .ok es → ∀ e ∈ es, P s.pool.next e

/-- A step keeps how the store was set up, and the entities that live. What it makes is copied or
comes from a loader, so what all entities have, they have after it. -/
structure Frame (s s' : Store) : Prop where
  settings : s'.repository.settings = s.repository.settings
  loader : s'.repository.loader? = s.repository.loader?
  format : s'.repository.format? = s.repository.format?
  directory : s'.directory = s.directory
  pool : s.pool.Extends s'.pool
  holds : ∀ {P}, Lasting P → s.Yields P → s.pool.Holds P → s'.pool.Holds P

/-- Besides, what has been loaded stays as it is. -/
structure Retains (s s' : Store) : Prop extends Frame s s' where
  caches : ∀ {type c}, s.repository.caches.find? type = some c →
    s'.repository.caches.find? type = some c

variable {s s' s'' : Store} {type t : String} {c : Cache}

theorem Frame.loaded (h : Frame s s') (type : String) : s'.loaded type = s.loaded type := by
  rw [Store.loaded, Store.loaded, h.loader, h.directory]

theorem Frame.yields (h : Frame s s') {P : Handle → Entity → Prop} (hP : Lasting P)
    (hs : s.Yields P) : s'.Yields P := by
  intro type es hes e he
  rw [h.loaded] at hes
  exact hP.mono h.pool.next_le (hs hes e he)

theorem Frame.refl (s : Store) : Frame s s := ⟨rfl, rfl, rfl, rfl, .refl _, fun _ _ hs => hs⟩

theorem Frame.trans (h : Frame s s') (h' : Frame s' s'') : Frame s s'' where
  settings := h'.settings.trans h.settings
  loader := h'.loader.trans h.loader
  format := h'.format.trans h.format
  directory := h'.directory.trans h.directory
  pool := h.pool.trans h'.pool
  holds := fun hP hyields hs => h'.holds hP (h.yields hP hyields) (h.holds hP hyields hs)

theorem Retains.refl (s : Store) : Retains s s := ⟨.refl s, fun h => h⟩

theorem Retains.trans (h : Retains s s') (h' : Retains s' s'') : Retains s s'' :=
  ⟨h.toFrame.trans h'.toFrame, fun hc => h'.caches (h.caches hc)⟩

/-- What has not been loaded later had not been loaded before. -/
theorem Retains.find?_eq_none (h : Retains s s') (hfind : s'.repository.caches.find? type = none) :
    s.repository.caches.find? type = none := by
  refine Option.eq_none_iff_forall_ne_some.mpr fun c hc => ?_
  rw [h.caches hc] at hfind
  cases hfind

theorem Frame.inMemory (h : Frame s s') (hs : s.InMemory) : s'.InMemory := by
  intro type
  rw [h.format]
  exact hs type

/-- An invariant of stores. -/
structure Sound (s : Store) : Prop where
  /-- What is committed is in order. -/
  committed : ∀ {type c}, s.repository.caches.find? type = some c → c.Committed s.pool
  /-- Loaders yield entities of their type. -/
  typed : ∀ {type es}, s.loaded type = .ok es → ∀ e ∈ es, e.type.name = type
  /-- Relations lead to living entities. -/
  yields : s.Yields fun n e => e.RefersBelow n
  closed : s.pool.Closed

/-- A step of a sound store that keeps what is loaded, and leaves what else is committed in order. -/
theorem Sound.frame (hs : s.Sound) (h : Frame s s')
    (hcaches : ∀ {type c}, s'.repository.caches.find? type = some c →
      s.repository.caches.find? type = some c ∨ c.Committed s'.pool) : s'.Sound where
  committed := by
    intro type c hfind
    rcases hcaches hfind with hold | hnew
    · exact (hs.committed hold).grows h.pool.grows
    · exact hnew
  typed := by
    intro type es hes
    rw [h.loaded] at hes
    exact hs.typed hes
  yields := h.yields lasting_refersBelow hs.yields
  closed := h.holds lasting_refersBelow hs.yields hs.closed

/-- The pool is another, in which the committed entities are as they were. -/
theorem Sound.withPool (hs : s.Sound) {pool : Pool} (hnext : s.pool.next ≤ pool.next)
    (hkept : ∀ {type c}, s.repository.caches.find? type = some c →
      ∀ h ∈ c.entities, pool.entity h = s.pool.entity h) (hclosed : pool.Closed) :
    Sound { s with pool } where
  committed := fun hfind => (hs.committed hfind).congr hnext (hkept hfind)
  typed := hs.typed
  yields := fun hes e he => (hs.yields hes e he).mono hnext
  closed := hclosed

/-! ## Loading -/

/-- The pool after a list was numbered, when the list was made above all that live. -/
theorem extends_assignIds {p q : Pool} {σ : Type} (next : σ → Except StoreError EntityId × σ)
    {hs : List Handle} {x : σ} (hpq : p.Extends q)
    (hnew : ∀ h ∈ hs, q.id h = none → p.next ≤ h) :
    p.Extends (Cache.assignIds next hs q x).2.1 := by
  obtain ⟨-, hnext, hkept⟩ := Cache.assignIds_frame next hs q x
  refine ⟨hnext ▸ hpq.next_le, ?_⟩
  intro h hh
  rw [hkept h ?_, hpq.kept h hh]
  by_cases hmem : h ∈ hs
  · exact .inr fun hid => absurd (hnew h hmem hid) (Nat.not_le.mpr hh)
  · exact .inl hmem

/-- Filling a cache touches nothing that lives; what it yields is in order. -/
theorem fill_spec (pool : Pool) {es : List Entity} (hes : ∀ e ∈ es, e.type.name = type) :
    pool.Extends (fill pool type es).2 ∧
      (∀ {P}, Lasting P → (∀ e ∈ es, P pool.next e) → pool.Holds P →
        (fill pool type es).2.Holds P) ∧
      ∀ c last, (fill pool type es).1 = .ok (c, last) →
        c.type = type ∧ c.Committed (fill pool type es).2 := by
  obtain ⟨hext, hmap, hnodup, hnew⟩ := Pool.allocAll_spec pool es
  have hholds : ∀ {P}, Lasting P → (∀ e ∈ es, P pool.next e) → pool.Holds P →
      (pool.allocAll es).2.Holds P := fun hP hes hp => hp.allocAll hP hes
  have hspec := Cache.ofEntities_spec (pool.allocAll es).2 type (pool.allocAll es).1
  unfold fill
  generalize pool.allocAll es = allocated at hext hmap hnodup hnew hholds hspec
  obtain ⟨handles, pool₁⟩ := allocated
  cases hof : Cache.ofEntities pool₁ type handles with
  | error e => exact ⟨.refl pool, fun _ _ hp => hp, fun _ _ h => by cases h⟩
  | ok c =>
    rw [hof] at hspec
    obtain ⟨hunique, -, rfl, htype⟩ := hspec
    obtain ⟨hkeys, -, -⟩ := Cache.repeatedKey?_eq_none.mp hunique
    have hextended := extends_assignIds (advance c.type) (x := (c.maxId? pool₁).getD 0)
      hext fun h hh _ => (hnew h hh).1
    obtain ⟨hgrows, hnext, -⟩ :=
      Cache.assignIds_frame (advance c.type) c.entities pool₁ ((c.maxId? pool₁).getD 0)
    have hnumbered := Cache.assignIds_advance c.type hnodup pool₁ ((c.maxId? pool₁).getD 0)
    have hmax := Cache.maxId?_spec pool₁ c
    simp only
    rcases hrun : Cache.assignIds (advance c.type) c.entities pool₁ ((c.maxId? pool₁).getD 0)
      with ⟨e | n, pool', last⟩
    · rw [hrun] at hextended hgrows hnext
      exact ⟨hextended, fun hP hes hp => (hholds hP hes hp).grows hP hgrows hnext,
        fun _ _ h => by cases h⟩
    · rw [hrun] at hextended hgrows hnext hnumbered
      obtain ⟨-, hnumbered⟩ := hnumbered
      refine ⟨hextended, fun hP hes hp => (hholds hP hes hp).grows hP hgrows hnext, ?_⟩
      intro c' last' hok
      obtain ⟨rfl, rfl⟩ := Prod.mk.inj (Except.ok.inj hok)
      refine ⟨htype, Cache.committed_rebuild ?_ ?_ hnodup ?_ hnumbered.all⟩
      · intro h hh
        exact Nat.lt_of_lt_of_le (hnew h hh).2 hgrows.next_le
      · intro h hh
        rw [hgrows.typeName (hnew h hh).2, htype]
        have hmem : pool₁.entity h ∈ es := by
          rw [← hmap]
          exact List.mem_map_of_mem hh
        exact hes _ hmem
      · refine hnumbered.unique hkeys.ids ?_
        intro id hid
        cases hmaxId : c.maxId? pool₁ with
        | none =>
          rw [hmaxId] at hmax
          rw [hmax] at hid
          exact absurd hid List.not_mem_nil
        | some m =>
          rw [hmaxId] at hmax
          exact hmax.2 id hid

/-- What loading a type does to a sound store. -/
structure Loads (s : Store) (type : String) (c : Cache) (s' : Store) : Prop
    extends Retains s s' where
  sound : s'.Sound
  /-- The type is loaded. -/
  found : s'.repository.caches.find? type = some c
  /-- Of the other types, no cache and no sequence changes. -/
  others : ∀ {t}, t ≠ type → s'.repository.caches.find? t = s.repository.caches.find? t ∧
    s'.repository.lastId t = s.repository.lastId t

/-- What a load that fails does to a sound store. -/
structure FailsToLoad (s : Store) (type : String) (s' : Store) : Prop extends Retains s s' where
  sound : s'.Sound
  repository : s'.repository = s.repository
  missing : s.repository.caches.find? type = none

theorem checkout_spec (hs : s.Sound) (type : String) :
    match exec (checkout type) s with
    | (.ok c, s') => Loads s type c s'
    | (.error _, s') => FailsToLoad s type s' := by
  cases hfind : s.repository.caches.find? type with
  | some c =>
    rw [exec_checkout_of_some hfind]
    exact ⟨.refl s, hs, hfind, fun _ => ⟨rfl, rfl⟩⟩
  | none =>
    rw [exec_checkout_of_none hfind]
    cases hes : s.loaded type with
    | error e => exact ⟨.refl s, hs, rfl, hfind⟩
    | ok es =>
      obtain ⟨hext, hholds, hfill⟩ := fill_spec s.pool (hs.typed hes)
      simp only
      rcases hrun : fill s.pool type es with ⟨e | ⟨c, last⟩, pool⟩
      · rw [hrun] at hext hholds
        have hframe : Frame s { s with pool } :=
          ⟨rfl, rfl, rfl, rfl, hext, fun hP hyields hp => hholds hP (hyields hes) hp⟩
        exact ⟨⟨hframe, fun h => h⟩, hs.frame hframe .inl, rfl, hfind⟩
      · rw [hrun] at hext hholds hfill
        obtain ⟨htype, hc⟩ := hfill c last rfl
        obtain ⟨s', hs'⟩ : ∃ s', s' = { s with
            pool, repository := (s.repository.withLastId type last).withCache c } := ⟨_, rfl⟩
        have hcaches : ∀ t, s'.repository.caches.find? t
            = if type = t then some c else s.repository.caches.find? t := by
          intro t
          rw [hs', ← htype]
          exact Caches.find?_put _ c t
        have hframe : Frame s s' :=
          hs' ▸ ⟨rfl, rfl, rfl, rfl, hext, fun hP hyields hp => hholds hP (hyields hes) hp⟩
        simp only
        rw [← hs']
        refine ⟨⟨hframe, ?_⟩, hs.frame hframe ?_, ?_, ?_⟩
        · intro t d hd
          rw [hcaches, if_neg, hd]
          intro heq
          rw [← heq, hfind] at hd
          cases hd
        · intro t d hd
          rw [hcaches] at hd
          split at hd
          · obtain rfl := Option.some.inj hd
            exact .inr (hs' ▸ hc)
          · exact .inl hd
        · rw [hcaches, if_pos rfl]
        · intro t ht
          refine ⟨by rw [hcaches, if_neg (Ne.symm ht)], ?_⟩
          rw [hs']
          exact if_neg ht

theorem Sound.loads (hs : s.Sound) (hrun : exec (checkout type) s = (.ok c, s')) :
    Loads s type c s' := by
  have hspec := checkout_spec hs type
  rw [hrun] at hspec
  exact hspec

theorem Sound.failsToLoad (hs : s.Sound) {e : StoreError}
    (hrun : exec (checkout type) s = (.error e, s')) : FailsToLoad s type s' := by
  have hspec := checkout_spec hs type
  rw [hrun] at hspec
  exact hspec

/-! ## Opening -/

/-- What a type reads as, loaded or not: its entities, and the last id of its sequence. -/
def opened (s : Store) (type : String) : Except StoreError (Roster × EntityId) :=
  match exec (checkout type) s with
  | (.ok c, s') => .ok (s'.pool.roster c.entities, s'.repository.lastId type)
  | (.error e, _) => .error e

theorem opened_of_some (hfind : s.repository.caches.find? type = some c) :
    s.opened type = .ok (s.pool.roster c.entities, s.repository.lastId type) := by
  rw [opened, exec_checkout_of_some hfind]

theorem opened_of_none (hfind : s.repository.caches.find? type = none) :
    s.opened type =
      match s.loaded type with
      | .error e => .error e
      | .ok es => (fill s.pool type es).1.map fun (c, last) =>
          ((fill s.pool type es).2.roster c.entities, last) := by
  rw [opened, exec_checkout_of_none hfind]
  cases s.loaded type with
  | error e => rfl
  | ok es =>
    simp only
    rcases fill s.pool type es with ⟨e | ⟨c, last⟩, pool⟩
    · rfl
    · exact congrArg (fun last => Except.ok (pool.roster c.entities, last)) (if_pos rfl)

/-- What a cache is filled with does not depend on the handles that are free. -/
theorem fill_congr (p q : Pool) (type : String) (es : List Entity) :
    (fill p type es).1.map (fun (c, last) => ((fill p type es).2.roster c.entities, last))
      = (fill q type es).1.map (fun (c, last) => ((fill q type es).2.roster c.entities, last)) := by
  obtain ⟨-, hpmap, hpnodup, -⟩ := Pool.allocAll_spec p es
  obtain ⟨-, hqmap, hqnodup, -⟩ := Pool.allocAll_spec q es
  have hpspec := Cache.ofEntities_spec (p.allocAll es).2 type (p.allocAll es).1
  have hqspec := Cache.ofEntities_spec (q.allocAll es).2 type (q.allocAll es).1
  unfold fill
  generalize p.allocAll es = inP at hpmap hpnodup hpspec
  generalize q.allocAll es = inQ at hqmap hqnodup hqspec
  obtain ⟨hs, p₁⟩ := inP
  obtain ⟨ks, q₁⟩ := inQ
  have hroster : p₁.roster hs = q₁.roster ks := hpmap.trans hqmap.symm
  have hrepeated : Cache.repeatedKey? p₁ type [] [] hs = Cache.repeatedKey? q₁ type [] [] ks :=
    Cache.repeatedKey?_congr hroster
  cases hp : Cache.ofEntities p₁ type hs with
  | error e =>
    rw [hp] at hpspec
    cases hq : Cache.ofEntities q₁ type ks with
    | error e' =>
      rw [hq] at hqspec
      have he : some e = some e' := by rw [← hpspec, ← hqspec, hrepeated]
      rw [Option.some.inj he]
      rfl
    | ok d =>
      rw [hq] at hqspec
      rw [hpspec, hqspec.1] at hrepeated
      cases hrepeated
  | ok c =>
    rw [hp] at hpspec
    cases hq : Cache.ofEntities q₁ type ks with
    | error e' =>
      rw [hq] at hqspec
      rw [hqspec, hpspec.1] at hrepeated
      cases hrepeated
    | ok d =>
      rw [hq] at hqspec
      obtain ⟨-, -, rfl, hptype⟩ := hpspec
      obtain ⟨-, -, rfl, hqtype⟩ := hqspec
      have hmax : c.maxId? p₁ = d.maxId? q₁ := Cache.maxId?_congr hroster
      obtain ⟨hout, hlast, hnumbered⟩ := Cache.assignIds_congr (advance type)
        (s := (d.maxId? q₁).getD 0) hpnodup hqnodup hroster
      simp only
      rw [hptype, hqtype, hmax]
      rcases hrunP : Cache.assignIds (advance type) c.entities p₁ ((d.maxId? q₁).getD 0)
        with ⟨_ | _, _, _⟩ <;>
      rcases hrunQ : Cache.assignIds (advance type) d.entities q₁ ((d.maxId? q₁).getD 0)
        with ⟨_ | _, _, _⟩ <;>
      rw [hrunP, hrunQ] at hout hlast hnumbered <;> simp only [Except.map, reduceCtorEq,
        Except.ok.injEq, Except.error.injEq, Prod.mk.injEq] at hout hlast hnumbered ⊢
      · exact hout
      · exact ⟨hnumbered, hlast⟩

/-- A type that is not loaded opens to the same wherever the same is loaded of it. -/
theorem opened_congr_of_none (hloaded : s'.loaded type = s.loaded type)
    (hfind : s.repository.caches.find? type = none)
    (hfind' : s'.repository.caches.find? type = none) : s'.opened type = s.opened type := by
  rw [Store.opened_of_none hfind, Store.opened_of_none hfind', hloaded]
  cases s.loaded type with
  | error e => rfl
  | ok es => exact fill_congr _ _ _ _

theorem Frame.opened_of_none (h : Frame s s') (hfind : s.repository.caches.find? type = none)
    (hfind' : s'.repository.caches.find? type = none) : s'.opened type = s.opened type :=
  opened_congr_of_none (h.loaded type) hfind hfind'

/-- A loaded type reads the same after a step that keeps it. -/
theorem Sound.opened_retains (hs : s.Sound) (h : Retains s s')
    (hfind : s.repository.caches.find? type = some c) :
    s'.opened type = .ok (s.pool.roster c.entities, s'.repository.lastId type) := by
  rw [Store.opened_of_some (h.caches hfind), h.pool.roster (hs.committed hfind).live]

/-- Where only the pool grows, every type opens to what it did. -/
theorem Sound.opened_of_pool (hs : s.Sound) (h : Frame s s')
    (hrepository : s'.repository = s.repository) (type : String) :
    s'.opened type = s.opened type := by
  cases hfind : s.repository.caches.find? type with
  | some c =>
    have hretains : Retains s s' := ⟨h, fun hc => by rw [hrepository]; exact hc⟩
    rw [hs.opened_retains hretains hfind, opened_of_some hfind, hrepository]
  | none => exact h.opened_of_none hfind (by rw [hrepository]; exact hfind)

/-- Loading a type does not change what any type opens to. -/
theorem opened_of_checkout (hs : s.Sound) {out : Except StoreError Cache}
    (hrun : exec (checkout type) s = (out, s')) (t : String) : s'.opened t = s.opened t := by
  cases out with
  | error e =>
    have hspec := hs.failsToLoad hrun
    exact hs.opened_of_pool hspec.toFrame hspec.repository t
  | ok c =>
    have hspec := hs.loads hrun
    by_cases ht : t = type
    · rw [ht, opened_of_some hspec.found, opened, hrun]
    · cases hfind : s.repository.caches.find? t with
      | some d =>
        rw [hs.opened_retains hspec.toRetains hfind, opened_of_some hfind, (hspec.others ht).2]
      | none => exact hspec.toFrame.opened_of_none hfind ((hspec.others ht).1.trans hfind)

/-! ## Drawing ids -/

/-- Drawing an id changes the sequence of the type, and loads it. -/
theorem newId_spec (hs : s.Sound) (type : String) :
    Retains s (exec (newId type) s).2 ∧ (exec (newId type) s).2.Sound ∧
      ∀ t, (exec (newId type) s).2.repository.caches.find? t
        = (exec (checkout type) s).2.repository.caches.find? t := by
  rw [exec_newId]
  rcases hrun : exec (checkout type) s with ⟨e | c, s'⟩
  · have hspec := hs.failsToLoad hrun
    exact ⟨hspec.toRetains, hspec.sound, fun _ => rfl⟩
  · have hspec := hs.loads hrun
    simp only
    cases (advance type ((s'.pool.roster c.entities).latest (s'.repository.lastId type))).1 with
    | error e => exact ⟨hspec.toRetains, hspec.sound, fun _ => rfl⟩
    | ok id =>
      have hframe : Frame s' { s' with repository := s'.repository.withLastId type id } :=
        ⟨rfl, rfl, rfl, rfl, .refl _, fun _ _ hp => hp⟩
      exact ⟨hspec.toRetains.trans ⟨hframe, fun h => h⟩,
        hspec.sound.frame hframe .inl, fun _ => rfl⟩

end Store

end EntityStore
