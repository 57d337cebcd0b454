import EntityStore.Proofs.Repository.Changing

/-!
# Requests to a store

Whoever works on a store asks it to load a type, to draw an id, to commit changes or to discard them.
Each request is first prepared, which loads what it needs and stages what is to be committed, and
then carried out. A sequence that has been moved on to an id stays there: what is drawn from it, or
given to the entities of a commit, lies beyond every id that it had reached when the request was
prepared.
-/

namespace EntityStore

/-- What can be asked of a store. -/
inductive Request
  | load (type : String)
  | newId (type : String)
  | commit (changes : Changeset)
  | rollback (changes : Changeset)

namespace Request

def run : Request → StoreM Unit
  | .load type => do let _ ← Store.load type
  | .newId type => do let _ ← Store.newId type
  | .commit changes => Store.commit changes
  | .rollback changes => Store.rollback changes

/-- The first part of a request: what it needs is loaded, and changes are staged. -/
def prepare : Request → Store → Store
  | .load type, s | .newId type, s => (exec (Store.checkout type) s).2
  | .commit changes, s => (exec (changes.foldlM Store.stage []) s).2
  | .rollback _, s => s

/-- What is to be committed lives. -/
def Live : Request → Store → Prop
  | .commit changes, s => ∀ c ∈ changes, c.entity < s.pool.next
  | _, _ => True

instance (r : Request) (s : Store) : Decidable (r.Live s) :=
  match r with
  | .commit changes => inferInstanceAs (Decidable (∀ c ∈ changes, c.entity < s.pool.next))
  | .load _ | .newId _ | .rollback _ => .isTrue trivial

end Request

namespace Store

variable {s s' : Store} {type : String} {id : EntityId} {r : Request} {changes : Changeset}

/-- The ids of the entities of a type, as far as it is loaded. -/
def heldIds (s : Store) (type : String) : List EntityId :=
  match s.repository.caches.find? type with
  | some c => (s.pool.roster c.entities).ids
  | none => []

/-- The ids that a commit gives to the entities of a type, if it goes through. -/
def committedIds (s : Store) (changes : Changeset) (type : String) : List EntityId :=
  match exec (changes.foldlM stage []) s with
  | (.error _, _) => []
  | (.ok staged, s) =>
    match exec (staged.mapM finish) s with
    | (.error _, _) => []
    | (.ok _, s') =>
      match staged.find? type with
      | none => []
      | some c => s.pool.given s'.pool c.entities

/-- The sequence of a type that is loaded has reached an id. -/
def Reached (s : Store) (type : String) (id : EntityId) : Prop :=
  s.repository.caches.find? type ≠ none ∧ id.toInt ≤ (s.repository.lastId type).toInt

theorem Reached.progress (h : s.Reached type id) (hs : Progress s s') : s'.Reached type id :=
  ⟨hs.loaded h.1, Int.le_trans h.2 (hs.advanced h.1)⟩

theorem Upkept.reached_of_held (hs : s.Upkept) (hid : id ∈ s.heldIds type) :
    s.Reached type id := by
  unfold heldIds at hid
  cases hfind : s.repository.caches.find? type with
  | none =>
    rw [hfind] at hid
    exact absurd hid List.not_mem_nil
  | some c =>
    rw [hfind] at hid
    refine ⟨?_, hs.reached hfind id hid⟩
    rw [hfind]
    exact Option.some_ne_none c

theorem snd_run_load (s : Store) (type : String) :
    (exec (Request.load type).run s).2 = (exec (checkout type) s).2 := by
  show (exec (load type >>= fun _ => pure ()) s).2 = _
  rw [exec_bind, exec_load]
  rcases exec (checkout type) s with ⟨_ | _, _⟩ <;> rfl

theorem snd_run_newId (s : Store) (type : String) :
    (exec (Request.newId type).run s).2 = (exec (newId type) s).2 := by
  show (exec (newId type >>= fun _ => pure ()) s).2 = _
  rw [exec_bind]
  rcases exec (newId type) s with ⟨_ | _, _⟩ <;> rfl

/-- **A request makes progress**, first when it is prepared and then when it is carried out. -/
theorem Upkept.ask (hs : s.Upkept) (hlive : r.Live s) :
    Progress s (r.prepare s) ∧ Progress (r.prepare s) (exec r.run s).2 := by
  cases r with
  | load type =>
    rw [snd_run_load]
    exact ⟨(hs.checkout type).1, .refl _⟩
  | newId type =>
    rw [snd_run_newId]
    exact ⟨(hs.checkout type).1, progress_newId s type⟩
  | commit changes => exact ⟨((prepared_nil s).run hs hlive).1, hs.commit_of_staged hlive⟩
  | rollback changes => exact ⟨.refl s, .refl s⟩

/-! ## Drawing an id -/

/-- A load that fails leaves the type unloaded. -/
theorem checkout_of_loaded (h : (exec (checkout type) s).2.repository.caches.find? type ≠ none) :
    ∃ c, (exec (checkout type) s).1 = .ok c := by
  cases hfind : s.repository.caches.find? type with
  | some c =>
    rw [exec_checkout_of_some hfind]
    exact ⟨c, rfl⟩
  | none =>
    rw [exec_checkout_of_none hfind] at h ⊢
    cases hes : s.loaded type with
    | error e =>
      rw [hes] at h
      exact absurd hfind h
    | ok es =>
      rw [hes] at h
      simp only at h ⊢
      rcases hrun : fill s.pool type es with ⟨_ | ⟨c, _⟩, _⟩
      · rw [hrun] at h
        exact absurd hfind h
      · exact ⟨c, rfl⟩

/-- A drawn id is beyond where the sequence stood when the type was loaded. -/
theorem lt_of_newId (hok : (exec (newId type) s).1 = .ok id) :
    ((exec (checkout type) s).2.repository.lastId type).toInt < id.toInt := by
  rw [exec_newId] at hok
  rcases hrun : exec (checkout type) s with ⟨e | c, s'⟩
  · rw [hrun] at hok
    cases hok
  · rw [hrun] at hok
    simp only at hok ⊢
    have hlatest := Roster.le_latest (s'.pool.roster c.entities) (s'.repository.lastId type)
    cases hid : (advance type ((s'.pool.roster c.entities).latest (s'.repository.lastId type))).1 with
    | error e =>
      rw [hid] at hok
      cases hok
    | ok id' =>
      rw [hid] at hok
      obtain rfl := Except.ok.inj hok
      exact Int.lt_of_le_of_lt hlatest (lt_of_advance hid)

/-- The sequence has reached a drawn id. -/
theorem Upkept.reached_of_newId (hs : s.Upkept) (hok : (exec (Store.newId type) s).1 = .ok id) :
    (exec (Store.newId type) s).2.Reached type id := by
  obtain ⟨-, hfound⟩ := hs.checkout type
  rw [exec_newId] at hok ⊢
  rcases hrun : exec (Store.checkout type) s with ⟨e | c, s'⟩
  · rw [hrun] at hok
    cases hok
  · rw [hrun] at hok hfound
    simp only at hok ⊢
    cases hid : (advance type ((s'.pool.roster c.entities).latest (s'.repository.lastId type))).1 with
    | error e =>
      rw [hid] at hok
      cases hok
    | ok id' =>
      rw [hid] at hok
      obtain rfl := Except.ok.inj hok
      refine ⟨?_, ?_⟩
      · rw [show ({ s' with repository := s'.repository.withLastId type id' } : Store).repository.caches
          = s'.repository.caches from rfl, hfound c rfl]
        exact Option.some_ne_none c
      · exact Int.le_of_eq (congrArg Int64.toInt (if_pos rfl : _ = id').symm)

/-- When the last id there is has been reached, none can be drawn. -/
theorem newId_of_reached_last (h : (exec (checkout type) s).2.Reached type EntityId.last) :
    (exec (newId type) s).1 = .error (.idsExhausted type) := by
  obtain ⟨hloaded, hle⟩ := h
  obtain ⟨c, hc⟩ := checkout_of_loaded hloaded
  rw [exec_newId]
  rcases hrun : exec (checkout type) s with ⟨e | d, s'⟩
  · rw [hrun] at hc
    cases hc
  · rw [hrun] at hle
    simp only at hle ⊢
    have hlatest := Roster.le_latest (s'.pool.roster d.entities) (s'.repository.lastId type)
    have hbound := EntityId.toInt_le_last
      ((s'.pool.roster d.entities).latest (s'.repository.lastId type))
    have hnone := EntityId.next?_eq_none.mpr
      (Int.le_antisymm hbound (Int.le_trans hle hlatest))
    rw [Cache.advance_of_none hnone]

/-! ## Numbering what is committed -/

/-- The ids that a commit gives come one after the other, beyond where the sequence stood when all
was staged; the sequence has reached them; and what else is committed has smaller ids. -/
structure Numbers (s₁ s' : Store) (ids : List EntityId) (type : String) : Prop where
  ascending : ids.Pairwise fun a b => a.toInt < b.toInt
  beyond : ∀ id ∈ ids, (s₁.repository.lastId type).toInt < id.toInt
  reached : ∀ id ∈ ids, s'.Reached type id
  others : ∀ id ∈ ids, ∀ held ∈ s'.heldIds type, held ∈ ids ∨ held.toInt < id.toInt

theorem numbers_nil (s₁ s' : Store) (type : String) : Numbers s₁ s' [] type :=
  ⟨.nil, fun _ h => absurd h List.not_mem_nil, fun _ h => absurd h List.not_mem_nil,
    fun _ h => absurd h List.not_mem_nil⟩

/-- What a staged cache is given when it is finished. -/
theorem numbers_given {s₁ s₂ : Store} {staged cs : Caches} {c : Cache}
    (hready : Prepared s staged s₁) (hfind : staged.find? type = some c)
    (hcompleted : Completed s₁ staged cs s₂)
    (hsame : Caches.types cs = staged.types ∧ ∀ c' ∈ cs, c'.Committed s₂.pool ∧
      ∃ c ∈ staged, c'.type = c.type ∧ c'.entities = c.entities)
    (hpool : s'.pool = s₂.pool)
    (hrepository : s'.repository = cs.foldl .withCache s₂.repository)
    (hgrows : s₁.pool.Grows s₂.pool) :
    Numbers s₁ s' (s₁.pool.given s₂.pool c.entities) type := by
  have hc := Caches.mem_of_find? hfind
  obtain rfl := Caches.type_of_find? hfind
  obtain ⟨hascending, hbeyond⟩ := hcompleted.drawn c hc
  have hlatest := Roster.le_latest (s₁.pool.roster c.entities) (s₁.repository.lastId c.type)
  -- the cache that took the place of the staged one lists the same entities
  obtain ⟨c', hc', htype, hlist⟩ : ∃ c', cs.find? c.type = some c' ∧ c'.type = c.type ∧
      c'.entities = c.entities := by
    have hmem : c.type ∈ Caches.types cs := hsame.1 ▸ List.mem_map_of_mem hc
    obtain ⟨c', hc', htype⟩ := List.mem_map.mp hmem
    obtain ⟨-, d, hd, htype', hlist⟩ := hsame.2 c' hc'
    have hfound := Caches.find?_of_mem hready.types hd
    rw [← htype', htype, hfind] at hfound
    obtain rfl := Option.some.inj hfound
    exact ⟨c', htype ▸ Caches.find?_of_mem (hsame.1 ▸ hready.types) hc', htype, hlist⟩
  have hnow : s'.repository.caches.find? c.type = some c' := by
    rw [hrepository, foldl_withCache]
    show Caches.find? (cs.foldl Caches.put s₂.repository.caches) c.type = some c'
    rw [Caches.find?_foldl_put c.type (hsame.1 ▸ hready.types), hc']
    rfl
  have hlast : s'.repository.lastId = s₂.repository.lastId := by rw [hrepository, foldl_withCache]
  refine ⟨hascending, fun id hid => Int.lt_of_le_of_lt hlatest (hbeyond id hid).1,
    fun id hid => ⟨?_, ?_⟩, fun id hid held hheld => ?_⟩
  · rw [hnow]
    exact Option.some_ne_none c'
  · rw [hlast]
    exact (hbeyond id hid).2
  -- whoever has an id was given it now, or held it when all was staged: then the drawing began there
  -- or further on
  · rw [heldIds, hnow] at hheld
    simp only at hheld
    rw [hlist, hpool] at hheld
    obtain ⟨k, hk, hkid⟩ := Pool.mem_ids_roster.mp hheld
    cases hbefore : s₁.pool.id k with
    | none => exact .inl (Pool.mem_given.mpr ⟨k, hk, hbefore, hkid⟩)
    | some old =>
      have hkept : s₂.pool.id k = s₁.pool.id k :=
        hgrows.id ((hready.keyed c hc).live k hk) (by rw [hbefore]; exact Option.some_ne_none old)
      have hold : held ∈ (s₁.pool.roster c.entities).ids :=
        Pool.mem_ids_roster.mpr ⟨k, hk, hkept ▸ hkid⟩
      exact .inr (Int.lt_of_le_of_lt (Roster.id_le_latest _ hold) (hbeyond id hid).1)

theorem Upkept.numbers (hs : s.Upkept) (hlive : ∀ c ∈ changes, c.entity < s.pool.next)
    (type : String) :
    Numbers (exec (changes.foldlM stage []) s).2 (exec (Store.commit changes) s).2
      (s.committedIds changes type) type := by
  obtain ⟨-, hprepared⟩ := (prepared_nil s).run hs hlive
  unfold committedIds Store.commit
  rw [exec_bind, exec_applyAll]
  rcases hrun : exec (changes.foldlM stage []) s with ⟨e | staged, s₁⟩
  · exact numbers_nil ..
  · rw [hrun] at hprepared
    have hready := hprepared staged rfl
    have hfinishing := hready.finishing
    have hspec := finishAll_spec hready.types hready.keyed
    obtain ⟨-, hcompleted⟩ := finishAll_completed hready.types hready.keyed
    simp only at hfinishing hspec hcompleted ⊢
    rcases hrun' : exec (staged.mapM finish) s₁ with ⟨e | cs, s₂⟩
    · exact numbers_nil ..
    · rw [hrun'] at hfinishing hspec hcompleted
      obtain ⟨hpool, hrepository⟩ := forM_dump_keeps cs
        { s₂ with repository := cs.foldl .withCache s₂.repository }
      simp only
      cases hfind : staged.find? type with
      | none => exact numbers_nil ..
      | some c =>
        exact numbers_given hready hfind hcompleted ⟨hspec.2.2.1, hspec.2.2.2⟩ hpool hrepository
          hfinishing.pool

/-- A commit that passes all checks and lacks ids fails for that reason. -/
theorem Upkept.commit_of_short (hs : s.Upkept) (hlive : ∀ c ∈ changes, c.entity < s.pool.next)
    {staged : Caches} {s₁ : Store}
    (hstaged : exec (changes.foldlM stage []) s = (.ok staged, s₁))
    (hunique : ∀ c ∈ staged, (s₁.pool.roster c.entities).UniqueKeys) {c : Cache} (hc : c ∈ staged)
    (hshort : ¬ (s₁.pool.roster c.entities).Roomy (s₁.repository.lastId c.type)) :
    ∃ type, (exec (Store.commit changes) s).1 = .error (.idsExhausted type) := by
  obtain ⟨-, hprepared⟩ := (prepared_nil s).run hs hlive
  rw [hstaged] at hprepared
  have hready := hprepared staged rfl
  have hspec := finishAll_spec hready.types hready.keyed
  obtain ⟨-, hcompleted⟩ := finishAll_completed hready.types hready.keyed
  unfold Store.commit
  rw [exec_bind, exec_applyAll, hstaged]
  simp only at hspec hcompleted ⊢
  rcases hrun : exec (staged.mapM finish) s₁ with ⟨e | cs, s₂⟩
  · rw [hrun] at hcompleted
    obtain ⟨d, -, rfl⟩ := hcompleted hunique
    exact ⟨d.type, rfl⟩
  · rw [hrun] at hspec
    exact absurd (hspec.2.1 c hc).2 hshort

end Store

end EntityStore
