import EntityStore.Proofs.Cache.Drawing
import EntityStore.Proofs.Repository.Committing

/-!
# What is kept up

Whatever is asked of a store, and whatever comes of it, the caches of its repository are kept up. A
cache is either the one that was there before, or it was checked as a whole, numbered and indexed
before it was put there; and the sequence of a loaded type is never behind the ids of its entities.

Little is asked in return. Loaders may yield different entities every time, as long as these are of
their type, and others may edit the fields of what is committed, as long as they leave the ids and
the types alone.
-/

namespace EntityStore

/-- Entities that live on are what they were, or have been given the ids they lacked. -/
theorem Pool.Grows.completes {p q : Pool} (hpq : p.Grows q) {hs : List Handle}
    (hlive : ∀ h ∈ hs, h < p.next) : List.Forall₂ Entity.Completes (p.roster hs) (q.roster hs) :=
  List.forall₂_map_left_iff.mpr (List.forall₂_map_right_iff.mpr
    (List.forall₂_same.mpr fun h hh => hpq.kept h (hlive h hh)))

namespace Cache

/-- A cache that was checked as a whole, and was then numbered and indexed. -/
structure Checked (pool : Pool) (c : Cache) : Prop extends Committed pool c where
  bySlug : c.bySlug.Covers pool.slug c.entities
  /-- Before those without an id were given one, no key was held twice. -/
  unique : ∃ r : Roster, r.UniqueKeys ∧ List.Forall₂ Entity.Completes r (pool.roster c.entities)

variable {p q pool : Pool} {c : Cache} {n : Handle}

theorem Checked.congr (hc : c.Checked p) (hnext : p.next ≤ q.next)
    (he : ∀ h ∈ c.entities, q.entity h = p.entity h) : c.Checked q where
  toCommitted := hc.toCommitted.congr hnext he
  bySlug := hc.bySlug.congr fun h hh => by rw [Pool.slug, Pool.slug, he h hh]
  unique := by
    rw [Pool.roster_congr he]
    exact hc.unique

/-- Whatever grows around it, a checked cache stays as it is. -/
theorem Checked.grows (hc : c.Checked p) (hpq : p.Grows q) : c.Checked q :=
  hc.congr hpq.next_le (hc.kept hpq)

/-- A committed cache that was rebuilt last, and held no key twice before it was numbered. -/
theorem Committed.checked (hc : (c.rebuild q).Committed q) (hpq : p.Grows q)
    (hlive : ∀ h ∈ c.entities, h < p.next) (hunique : (p.roster c.entities).UniqueKeys) :
    (c.rebuild q).Checked q where
  toCommitted := hc
  bySlug := (covers_rebuild q c).2
  unique := ⟨_, hunique, hpq.completes hlive⟩

/-- Applying a change makes at most a copy of the entity the change is about. -/
theorem pool_apply (change : Change) (c : Cache) (pool : Pool) :
    (c.apply change pool).2.2 = pool ∨ (c.apply change pool).2.2 = (pool.detach change.entity).2 := by
  obtain ⟨kind, h⟩ := change
  unfold apply
  by_cases htyped : pool.typeName h = c.type
  · simp only [htyped, ne_eq, not_true_eq_false, if_false]
    cases kind with
    | add => exact .inr rfl
    | update =>
      refine .inr ?_
      simp only
      cases c.swapIn (pool.detach h).2 (pool.detach h).1 <;> rfl
    | remove => exact .inl rfl
  · simp only [ne_eq, htyped, not_false_eq_true, if_true]
    exact .inl trivial

theorem extends_apply (change : Change) (c : Cache) (pool : Pool) :
    pool.Extends (c.apply change pool).2.2 := by
  rcases pool_apply change c pool with heq | heq
  · rw [heq]
    exact .refl pool
  · rw [heq]
    exact Pool.extends_alloc pool _

theorem Keyed.add (hc : c.Keyed pool) {h : Handle} (hlive : h < pool.next)
    (htyped : pool.typeName h = c.type) :
    (c.add pool h).2.type = c.type ∧ (c.add pool h).2.Keyed pool := by
  rcases add_cases pool h c with ⟨-, hadd⟩ | ⟨-, e, -, hadd⟩ | ⟨hnot, hconflict, hadd⟩
  · rw [hadd]
    exact ⟨type_refresh pool c, hc.refresh⟩
  · rw [hadd]
    exact ⟨type_refresh pool c, hc.refresh⟩
  · rw [hadd]
    refine ⟨type_refresh pool c, hc.refresh.append hlive ?_ ?_ ?_⟩
    · rw [type_refresh]
      exact htyped
    · rw [entities_refresh]
      exact hnot
    · rw [entities_refresh]
      exact hc.not_mem_ids hconflict

theorem Keyed.remove (hc : c.Keyed pool) (h : Handle) :
    (c.remove pool h).2.type = c.type ∧ (c.remove pool h).2.Keyed pool := by
  rcases remove_cases pool h c with ⟨-, hremove⟩ | ⟨gone, hgone, -, hremove⟩
  · rw [hremove]
    exact ⟨rfl, hc⟩
  · rw [hremove]
    exact ⟨rfl, hc.without gone hgone⟩

/-- Whatever comes of a change, the cache stays keyed. -/
theorem Keyed.apply (hc : c.Keyed pool) (change : Change) :
    (c.apply change pool).2.1.type = c.type ∧
      (c.apply change pool).2.1.Keyed (c.apply change pool).2.2 := by
  obtain ⟨kind, h⟩ := change
  unfold Cache.apply
  by_cases htyped : pool.typeName h = c.type
  · simp only [htyped, ne_eq, not_true_eq_false, if_false]
    have hcopied : c.Keyed (pool.detach h).2 := hc.extends (Pool.extends_alloc pool _)
    have hlive : (pool.detach h).1 < (pool.detach h).2.next := Nat.lt_succ_self _
    have hcopy : (pool.detach h).2.typeName (pool.detach h).1 = c.type := by
      rw [Pool.typeName, Pool.detach, Pool.entity_alloc_self]
      exact htyped
    cases kind with
    | add => exact hcopied.add hlive hcopy
    | update =>
      simp only
      rcases swapIn_cases (pool.detach h).2 (pool.detach h).1 c with
        ⟨-, hswap⟩ | ⟨old, hold, id, hid, hoid, hswap⟩
      · rw [hswap]
        exact ⟨rfl, hcopied⟩
      · rw [hswap]
        exact ⟨rfl, hcopied.swapIn hlive hcopy hold hoid hid⟩
    | remove => exact hc.remove h
  · simp only [ne_eq, htyped, not_false_eq_true, if_true]
    exact ⟨trivial, hc⟩

end Cache

namespace Store

/-! ## What every step keeps -/

/-- What the loaders yield, now or at any other time, has a property. -/
def Supplies (P : String → Entity → Prop) (s : Store) : Prop :=
  ∀ {type loader directory es}, s.repository.loader? type = some loader →
    loader directory = .ok es → ∀ e ∈ es, P type e

/-- An invariant of stores. -/
structure Upkept (s : Store) : Prop where
  keyed : ∀ {type c}, s.repository.caches.find? type = some c → c.Keyed s.pool
  /-- What is committed has an id. -/
  numbered : ∀ {type c}, s.repository.caches.find? type = some c →
    ∀ h ∈ c.entities, s.pool.id h ≠ none
  /-- No id lies beyond the sequence of its type. -/
  reached : ∀ {type c}, s.repository.caches.find? type = some c →
    ∀ id ∈ (s.pool.roster c.entities).ids, id.toInt ≤ (s.repository.lastId type).toInt
  /-- Loaders yield entities of their type. -/
  typed : s.Supplies fun type e => e.type.name = type

/-- What comes of a step of a store that is kept up. -/
structure Progress (s s' : Store) : Prop where
  pool : s.pool.Grows s'.pool
  loader : s'.repository.loader? = s.repository.loader?
  /-- What was loaded still is. -/
  loaded : ∀ {type}, s.repository.caches.find? type ≠ none →
    s'.repository.caches.find? type ≠ none
  /-- No sequence goes back. -/
  advanced : ∀ {type}, s.repository.caches.find? type ≠ none →
    (s.repository.lastId type).toInt ≤ (s'.repository.lastId type).toInt
  /-- A cache was there, or it is checked and its sequence has reached its ids. -/
  caches : ∀ {type c}, s'.repository.caches.find? type = some c →
    s.repository.caches.find? type = some c ∨ c.Checked s'.pool ∧
      ∀ id ∈ (s'.pool.roster c.entities).ids, id.toInt ≤ (s'.repository.lastId type).toInt
  /-- What all entities have and loaders yield, all entities still have. -/
  holds : ∀ {P : Handle → Entity → Prop}, Lasting P → s.Supplies (fun _ e => P s.pool.next e) →
    s.pool.Holds P → s'.pool.Holds P

variable {s s' s'' : Store} {type : String} {c : Cache} {cs : Caches} {changes : Changeset}

theorem Progress.refl (s : Store) : Progress s s :=
  ⟨.refl _, rfl, fun h => h, fun _ => Int.le_refl _, .inl, fun _ _ hs => hs⟩

theorem Supplies.imp {P Q : String → Entity → Prop} (hs : s.Supplies P)
    (hPQ : ∀ type e, P type e → Q type e)
    (hloader : s'.repository.loader? = s.repository.loader?) : s'.Supplies Q := by
  intro type loader directory es hfind hes e he
  rw [hloader] at hfind
  exact hPQ type e (hs hfind hes e he)

theorem Upkept.kept (hs : s.Upkept) {q : Pool} (hpool : s.pool.Grows q)
    (hfind : s.repository.caches.find? type = some c) :
    ∀ h ∈ c.entities, q.entity h = s.pool.entity h := fun h hh =>
  hpool.kept_of_id ((hs.keyed hfind).live h hh) (hs.numbered hfind h hh)

theorem Progress.trans (h : Progress s s') (h' : Progress s' s'') : Progress s s'' where
  pool := h.pool.trans h'.pool
  loader := h'.loader.trans h.loader
  loaded := fun hloaded => h'.loaded (h.loaded hloaded)
  advanced := fun hloaded => Int.le_trans (h.advanced hloaded) (h'.advanced (h.loaded hloaded))
  caches := by
    intro type c hfind
    rcases h'.caches hfind with hold | hnew
    · rcases h.caches hold with hold' | ⟨hchecked, hreached⟩
      · exact .inl hold'
      · refine .inr ⟨hchecked.grows h'.pool, fun id hid => ?_⟩
        rw [Pool.roster_congr (hchecked.kept h'.pool)] at hid
        have hloaded : s'.repository.caches.find? type ≠ none := by
          rw [hold]
          exact Option.some_ne_none c
        exact Int.le_trans (hreached id hid) (h'.advanced hloaded)
    · exact .inr hnew
  holds := fun hP hsupplies hs => h'.holds hP
    (hsupplies.imp (fun _ _ he => hP.mono h.pool.next_le he) h.loader) (h.holds hP hsupplies hs)

/-- **Preserved by every step.** -/
theorem Upkept.progress (hs : s.Upkept) (h : Progress s s') : s'.Upkept where
  keyed := by
    intro type c hfind
    rcases h.caches hfind with hold | hnew
    · exact (hs.keyed hold).congr h.pool.next_le (hs.kept h.pool hold)
    · exact hnew.1.toKeyed
  numbered := by
    intro type c hfind k hk
    rcases h.caches hfind with hold | hnew
    · rw [Pool.id, hs.kept h.pool hold k hk]
      exact hs.numbered hold k hk
    · exact hnew.1.numbered k hk
  reached := by
    intro type c hfind id hid
    rcases h.caches hfind with hold | hnew
    · rw [Pool.roster_congr (hs.kept h.pool hold)] at hid
      have hloaded : s.repository.caches.find? type ≠ none := by
        rw [hold]
        exact Option.some_ne_none c
      exact Int.le_trans (hs.reached hold id hid) (h.advanced hloaded)
    · exact hnew.2 id hid
  typed := Supplies.imp hs.typed (fun _ _ he => he) h.loader

/-- Only the pool grows. -/
theorem progress_of_pool {pool : Pool} (hpool : s.pool.Grows pool)
    (hholds : ∀ {P : Handle → Entity → Prop}, Lasting P → s.Supplies (fun _ e => P s.pool.next e) →
      s.pool.Holds P → pool.Holds P) : Progress s { s with pool } :=
  ⟨hpool, rfl, fun h => h, fun _ => Int.le_refl _, .inl, hholds⟩

/-- A sequence is moved on. -/
theorem progress_withLastId {id : EntityId}
    (hid : (s.repository.lastId type).toInt ≤ id.toInt) :
    Progress s { s with repository := s.repository.withLastId type id } where
  pool := .refl _
  loader := rfl
  loaded := fun h => h
  advanced := by
    intro t _
    show _ ≤ (if t = type then id else s.repository.lastId t).toInt
    split
    · next heq => rwa [heq]
    · exact Int.le_refl _
  caches := .inl
  holds := fun _ _ hs => hs

/-! ## Loading -/

theorem Supplies.loaded {P : String → Entity → Prop} (hs : s.Supplies P) {es : List Entity}
    (hes : s.loaded type = .ok es) : ∀ e ∈ es, P type e := by
  unfold Store.loaded at hes
  cases hloader : s.repository.loader? type with
  | none =>
    rw [hloader] at hes
    obtain rfl := Except.ok.inj hes
    exact fun e he => absurd he List.not_mem_nil
  | some loader =>
    rw [hloader] at hes
    exact hs hloader hes

/-- Filling a cache puts all it makes above what lives. -/
theorem extends_fill (pool : Pool) (type : String) (es : List Entity) :
    pool.Extends (fill pool type es).2 := by
  obtain ⟨hext, -, -, hnew⟩ := Pool.allocAll_spec pool es
  have hspec := Cache.ofEntities_spec (pool.allocAll es).2 type (pool.allocAll es).1
  unfold fill
  cases hof : Cache.ofEntities (pool.allocAll es).2 type (pool.allocAll es).1 with
  | error e => exact .refl pool
  | ok c =>
    rw [hof] at hspec
    obtain ⟨-, -, hlist, -⟩ := hspec
    have hextends := extends_assignIds (advance c.type)
      (x := (c.maxId? (pool.allocAll es).2).getD 0) hext
      fun h (hh : h ∈ c.entities) _ => (hnew h (hlist ▸ hh)).1
    simp only
    rcases hrun : Cache.assignIds (advance c.type) c.entities (pool.allocAll es).2
      ((c.maxId? (pool.allocAll es).2).getD 0) with ⟨_ | _, _, _⟩ <;>
    · rw [hrun] at hextends
      exact hextends

/-- What a cache is filled with is checked, and its sequence has reached its ids. -/
theorem fill_checked (pool : Pool) {es : List Entity} (hes : ∀ e ∈ es, e.type.name = type)
    {last : EntityId} (hok : (fill pool type es).1 = .ok (c, last)) :
    c.type = type ∧ c.Checked (fill pool type es).2 ∧
      ∀ id ∈ ((fill pool type es).2.roster c.entities).ids, id.toInt ≤ last.toInt := by
  obtain ⟨-, -, hfill⟩ := fill_spec pool hes
  obtain ⟨htype, hcommitted⟩ := hfill c last hok
  obtain ⟨-, -, hnodup, hnew⟩ := Pool.allocAll_spec pool es
  have hspec := Cache.ofEntities_spec (pool.allocAll es).2 type (pool.allocAll es).1
  refine ⟨htype, ?_⟩
  unfold fill at hok hcommitted ⊢
  generalize pool.allocAll es = allocated at hok hcommitted hnodup hnew hspec ⊢
  obtain ⟨handles, pool₁⟩ := allocated
  simp only at hok hcommitted hnodup hnew hspec ⊢
  cases hof : Cache.ofEntities pool₁ type handles with
  | error e =>
    rw [hof] at hok
    cases hok
  | ok d =>
    rw [hof] at hspec hok hcommitted
    obtain ⟨hunique, -, rfl, -⟩ := hspec
    obtain ⟨hkeys, -, -⟩ := Cache.repeatedKey?_eq_none.mp hunique
    obtain ⟨hgrows, -, -⟩ :=
      Cache.assignIds_frame (advance d.type) d.entities pool₁ ((d.maxId? pool₁).getD 0)
    have hnumbered := Cache.assignIds_advance d.type hnodup pool₁ ((d.maxId? pool₁).getD 0)
    simp only at hok hcommitted ⊢
    rcases hrun : Cache.assignIds (advance d.type) d.entities pool₁ ((d.maxId? pool₁).getD 0)
      with ⟨e | n, pool', last'⟩
    · rw [hrun] at hok
      cases hok
    · rw [hrun] at hgrows hnumbered hok hcommitted
      obtain ⟨rfl, rfl⟩ := Prod.mk.inj (Except.ok.inj hok)
      refine ⟨hcommitted.checked hgrows (fun h hh => (hnew h hh).2) hkeys, ?_⟩
      intro id hid
      -- numbering starts from the largest id there was, so ids that were there stay behind it
      rcases hnumbered.2.ids id hid with hold | hdrawn
      · have hmax := Cache.id_le_getD_maxId? pool₁ d hold
        have hadvanced := hnumbered.2.advanced
        omega
      · exact hdrawn.2

/-- Whatever comes of it, loading a type touches nothing that lives. -/
theorem extends_checkout (s : Store) (type : String) :
    s.pool.Extends (exec (checkout type) s).2.pool := by
  cases hfind : s.repository.caches.find? type with
  | some c =>
    rw [exec_checkout_of_some hfind]
    exact .refl _
  | none =>
    rw [exec_checkout_of_none hfind]
    cases s.loaded type with
    | error e => exact .refl _
    | ok es =>
      have hextends := extends_fill s.pool type es
      simp only
      rcases hrun : fill s.pool type es with ⟨_ | ⟨_, _⟩, _⟩ <;>
      · rw [hrun] at hextends
        exact hextends

/-- **Loading a type.** -/
theorem Upkept.checkout (hs : s.Upkept) (type : String) :
    Progress s (exec (checkout type) s).2 ∧
      ∀ c, (exec (checkout type) s).1 = .ok c →
        (exec (checkout type) s).2.repository.caches.find? type = some c := by
  cases hfind : s.repository.caches.find? type with
  | some c =>
    rw [exec_checkout_of_some hfind]
    refine ⟨.refl s, fun d hd => ?_⟩
    rw [← Except.ok.inj hd]
    exact hfind
  | none =>
    rw [exec_checkout_of_none hfind]
    cases hes : s.loaded type with
    | error e => exact ⟨.refl s, fun d hd => by cases hd⟩
    | ok es =>
      have htyped := Supplies.loaded hs.typed hes
      obtain ⟨hext, hholds, -⟩ := fill_spec s.pool htyped
      have hholds' : ∀ {P : Handle → Entity → Prop}, Lasting P →
          s.Supplies (fun _ e => P s.pool.next e) → s.pool.Holds P →
          (fill s.pool type es).2.Holds P :=
        fun hP hsupplies hp => hholds hP (hsupplies.loaded hes) hp
      simp only
      rcases hrun : fill s.pool type es with ⟨e | ⟨c, last⟩, pool⟩
      · rw [hrun] at hext hholds'
        exact ⟨progress_of_pool hext.grows hholds', fun d hd => by cases hd⟩
      · have hchecked := fill_checked s.pool htyped (congrArg Prod.fst hrun)
        rw [hrun] at hext hholds' hchecked
        obtain ⟨rfl, hc, hreached⟩ := hchecked
        have hlast : (s.repository.withLastId c.type last).lastId c.type = last := if_pos rfl
        simp only
        refine ⟨⟨hext.grows, rfl, ?_, ?_, ?_, hholds'⟩, fun d hd => ?_⟩
        · intro t ht hnone
          exact ht (Caches.find?_put_eq_none.mp hnone).2
        -- the type was not loaded before, so the sequence of a loaded type stands where it stood
        · intro t ht
          have hne : t ≠ c.type := by
            rintro rfl
            exact ht hfind
          have hother : (s.repository.withLastId c.type last).lastId t = s.repository.lastId t :=
            if_neg hne
          exact Int.le_of_eq (congrArg Int64.toInt hother.symm)
        · intro t d hd
          rcases Caches.find?_put_eq_some.mp hd with ⟨rfl, rfl⟩ | ⟨-, hold⟩
          · exact .inr ⟨hc, fun id hid => hlast.symm ▸ hreached id hid⟩
          · exact .inl hold
        · rw [← Except.ok.inj hd]
          exact Caches.find?_put_self _ c

/-! ## Drawing ids -/

theorem extends_newId (s : Store) (type : String) :
    s.pool.Extends (exec (newId type) s).2.pool := by
  have hextends := extends_checkout s type
  rw [exec_newId]
  rcases hrun : exec (checkout type) s with ⟨e | c, s'⟩
  · rw [hrun] at hextends
    exact hextends
  · rw [hrun] at hextends
    simp only
    cases (advance type ((s'.pool.roster c.entities).latest (s'.repository.lastId type))).1 <;>
    exact hextends

/-- Once the type is loaded, drawing an id moves on its sequence and does nothing else. -/
theorem progress_newId (s : Store) (type : String) :
    Progress (exec (checkout type) s).2 (exec (newId type) s).2 := by
  rw [exec_newId]
  rcases hrun : exec (checkout type) s with ⟨e | c, s'⟩
  · exact .refl s'
  · simp only
    cases hid : (advance type ((s'.pool.roster c.entities).latest (s'.repository.lastId type))).1 with
    | error e => exact .refl s'
    | ok id =>
      refine progress_withLastId ?_
      have hlatest := Roster.le_latest (s'.pool.roster c.entities) (s'.repository.lastId type)
      exact Int.le_of_lt (Int.lt_of_le_of_lt hlatest (lt_of_advance hid))

/-- **Drawing an id.** -/
theorem Upkept.newId (hs : s.Upkept) (type : String) : Progress s (exec (newId type) s).2 :=
  (hs.checkout type).1.trans (progress_newId s type)

end Store

end EntityStore
