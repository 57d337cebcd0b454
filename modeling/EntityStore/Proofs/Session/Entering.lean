import EntityStore.Proofs.Session.Identifying
import EntityStore.Proofs.Session.CheckingOut

/-!
# Adding, removing and replacing

An addition enters an entity into the cache of its type, gives it an id if it has none, and then
has the ledger track it. Between these steps the session is not in order: its cache lists an entity
that it does not track. What it is then is a session in order with one entity pending.
-/

namespace EntityStore

namespace Session

/-! ## The work without the commit -/

/-- Give an entity that is in its cache an id, if it has none, and have the ledger track it. -/
def settle (type : String) (h : Handle) (revived : Bool) : SessionM Unit := do
  if ((← get).store.pool.id h).isNone then identify type h
  if revived then succeed h h else track fun pool l => l.registerNew pool h

/-- What an addition does before it may commit; returns whether there was anything to do. -/
def enter (h : Handle) : SessionM Bool := do
  let type := (← get).store.pool.typeName h
  let revived := state? h (← get) == some .deleted
  let cache ← checkout type
  if cache.contains h then return false
  onCache type fun pool c => c.add pool h
  settle type h revived
  return true

/-- What a removal does before it may commit. -/
def leave (h : Handle) : SessionM Unit := do
  let gone ← withdraw ((← get).store.pool.typeName h) h
  if (← get).session.ledger.contains gone then track fun pool l => l.mark pool gone .deleted

/-- An addition does its work and then commits, if it had any and the repository is set to. -/
theorem add_eq (h : Handle) : add h = (do if ← enter h then autocommit) := by
  unfold add enter settle
  simp only [bind_assoc]
  refine bind_congr fun w => bind_congr fun w' => bind_congr fun c => ?_
  by_cases hpresent : c.contains h = true
  · simp [hpresent]
  · simp only [hpresent, Bool.false_eq_true, if_false, bind_assoc]
    refine bind_congr fun _ => bind_congr fun w'' => ?_
    by_cases hnone : (w''.store.pool.id h).isNone = true <;>
    by_cases hrevived : state? h w' = some .deleted <;> simp [hnone, hrevived]

theorem remove_eq (h : Handle) : remove h = (do leave h; autocommit) := by
  unfold remove leave
  simp only [bind_assoc]
  refine bind_congr fun w => bind_congr fun gone => bind_congr fun w' => ?_
  by_cases htracked : w'.session.ledger.contains gone = true <;> simp [htracked]

/-- What an addition is to do is settled at its start: the type, and whether the entity is brought
back. -/
theorem exec_enter (h : Handle) (w : Work) :
    exec (enter h) w = exec (do
      let cache ← checkout (w.store.pool.typeName h)
      if cache.contains h then return false
      onCache (w.store.pool.typeName h) fun pool c => c.add pool h
      settle (w.store.pool.typeName h) h (state? h w == some .deleted)
      return true) w := by
  unfold enter
  simp only [exec_bind, exec_get]

theorem exec_leave (h : Handle) (w : Work) :
    exec (leave h) w = exec (do
      let gone ← withdraw (w.store.pool.typeName h) h
      if (← get).session.ledger.contains gone then track fun pool l => l.mark pool gone .deleted) w := by
  unfold leave
  rw [exec_bind, exec_get]

theorem exec_replace (h : Handle) (w : Work) :
    exec (replace h) w = exec (do
      let previous ← onCache (w.store.pool.typeName h) fun pool c => c.replace pool h
      succeed previous h) w := by
  unfold replace
  rw [exec_bind, exec_get]

variable {strays : Handle → Prop} {base : Base} {w w₁ : Work} {type : String} {c : Cache}
  {h old : Handle}

/-! ## An entity pending -/

/-- A session that has entered an entity into the cache of a type, and has done nothing else about
it since `w₁`. -/
structure Pending (w₁ : Work) (c : Cache) (h : Handle) (w : Work) : Prop where
  carries : w₁.store.Carries w.store
  cache : ∃ c', w.session = { w₁.session with caches := w₁.session.caches.put c' } ∧
    c'.type = c.type ∧ c'.entities = c.entities ++ [h] ∧ c'.Keyed w.store.pool

/-- A pending entity, as one that has been entered. -/
theorem Pending.entered (hw : Pending w₁ c h w) : Entered w₁.store.Carries w₁.session c h w :=
  ⟨hw.carries, hw.cache⟩

theorem enduring_carries (s : Store) : Enduring s.Carries where
  newId := fun type h => h.trans (h.orderly.carries_newId type)
  setId := fun h hid id => h.trans (h.orderly.carries_setId hid id)

/-- Giving the pending entity an id, or taking it out again. -/
theorem Pending.identify (hw : Pending w₁ c h w) (hc : c.type = type)
    (hid : w.store.pool.id h = none) :
    match exec (identify type h) w with
    | (.ok _, w') => Pending w₁ c h w' ∧ w'.store.pool.id h ≠ none
    | (.error fault, w') => (∃ e, fault = .store e) ∧ w₁.store.Carries w'.store ∧
        ∃ c', w'.session = { w₁.session with caches := w₁.session.caches.put c' } ∧
          c'.type = c.type ∧ c'.entities = c.entities ∧ c'.Keyed w'.store.pool := by
  have hidentify := hw.entered.identify (enduring_carries _) hc hid
  rcases hrun : exec (Session.identify type h) w with ⟨fault | _, w'⟩
  · rw [hrun] at hidentify
    exact hidentify
  · rw [hrun] at hidentify
    exact ⟨⟨hidentify.1.store, hidentify.1.cache⟩, hidentify.2⟩

/-! ## Tracking what has come in -/

/-- The origin and the snapshot that an entity is registered with in the place of another. -/
def legacy (pool : Pool) (l : Ledger) (old new : Handle) : LifeState × Snapshot :=
  match (l.find? old).filter fun e => e.origin = .clean with
  | some e => (.clean, e.snapshot)
  | none => (.new, Snapshot.capture pool new)

theorem exec_succeed (old new : Handle) (w : Work) :
    exec (succeed old new) w =
      match Ledger.register w.store.pool new (legacy w.store.pool w.session.ledger old new).1
          (legacy w.store.pool w.session.ledger old new).2
          (List.filter (fun e => e.entity != old) w.session.ledger) with
      | .error v => (.error (.violation v), { w with session := { w.session with
          ledger := List.filter (fun e => e.entity != old) w.session.ledger } })
      | .ok ledger => (.ok (), { w with session := { w.session with ledger } }) := by
  unfold succeed legacy Ledger.release
  simp only [exec_bind, exec_get, exec_set]
  cases (w.session.ledger.find? old).filter fun e => e.origin = .clean with
  | none => exact exec_track _ _
  | some e => exact exec_track _ _

theorem not_contains_iff {l : Ledger} : l.contains h = false ↔ ∀ e ∈ l, e.entity ≠ h := by
  rw [Ledger.contains, Ledger.find?, ← Bool.not_eq_true, Option.not_isSome_iff_eq_none, List.find?_eq_none]
  simp

/-- An entity that is not tracked is registered as if it took its own place. -/
theorem exec_registerNew (huntracked : w.session.ledger.contains h = false) :
    exec (track fun pool l => l.registerNew pool h) w = exec (succeed h h) w := by
  have hnot := not_contains_iff.mp huntracked
  have hfilter : List.filter (fun e => e.entity != h) w.session.ledger = w.session.ledger := by
    rw [List.filter_eq_self]
    intro e he
    simpa using hnot e he
  have hfind : w.session.ledger.find? h = none := by
    rw [Ledger.find?, List.find?_eq_none]
    simpa using hnot
  rw [exec_succeed, exec_track, hfilter]
  rw [legacy, hfind, Option.filter_none]
  rfl

theorem legacy_inherits {p : Pool} {l : Ledger} {new : Handle} (hl : l.Sound strays base p)
    (hkey : ∀ e ∈ l, e.entity = old → p.SameKey old new) :
    Ledger.Inherits p l old ⟨new, (legacy p l old new).1, (legacy p l old new).1, (legacy p l old new).2⟩ := by
  unfold legacy
  cases hlegacy : (l.find? old).filter fun e => e.origin = .clean with
  | some e =>
    obtain ⟨hfind, hclean⟩ := Option.filter_eq_some_iff.mp hlegacy
    have he := List.mem_of_find?_eq_some hfind
    have heo : e.entity = old := by simpa using List.find?_some hfind
    exact .loaded he heo (by simpa using hclean) (hkey e he heo) rfl rfl
  | none =>
    refine .new rfl fun e he heo => ?_
    have hfind : l.find? old = some e := heo ▸ hl.find?_eq he
    rw [hfind, Option.filter_some] at hlegacy
    rcases (hl.states e he).1 with hnew | hclean
    · exact hnew
    · rw [if_pos (by simpa using hclean)] at hlegacy
      cases hlegacy

/-- Putting back a cache of a type that is checked out checks nothing out. -/
theorem put_eq_none_iff {cs : Caches} {c' : Cache} (hfind : cs.find? type = some c)
    (htype : c'.type = type) (t : String) : (cs.put c').find? t = none ↔ cs.find? t = none := by
  rw [Caches.find?_put_eq_none, htype]
  refine and_iff_right_of_imp fun hnone heq => ?_
  rw [← heq, hfind] at hnone
  cases hnone

/-- The ledger takes up an entity that has come into a cache in the place of another or its own. -/
theorem Tracks.succeed {s : Store} (h₁ : Tracks strays base w₁.store w₁.session)
    (hs₁ : w₁.store.Orderly) (hcarries : w₁.store.Carries s)
    (hfind : w₁.session.caches.find? type = some c) {c' : Cache} (htype : c'.type = c.type)
    (hkeyed : c'.Keyed s.pool) {new : Handle}
    (hlist : ∀ k, k ∈ c'.entities ↔ k ∈ c.entities ∧ k ≠ old ∨ k = new)
    (hnumbered : s.pool.id new ≠ none) (hold : ¬ strays old) (holdType : s.pool.typeName old = type)
    (hids : ∀ k ∈ c.entities, k ≠ old → s.pool.id k ≠ s.pool.id new)
    (hkey : ∀ e ∈ w₁.session.ledger, e.entity = old → s.pool.SameKey old new) :
    Resumes base w₁ ⟨s, { w₁.session with caches := w₁.session.caches.put c' }⟩
      (Session.succeed old new) := by
  have h := h₁.grows hs₁ hcarries.orderly hcarries.pool
  have htype' : c'.type = type := htype.trans (Caches.type_of_find? hfind)
  unfold Resumes
  rw [exec_succeed, Ledger.register]
  cases htracked : Ledger.contains
      (List.filter (fun e => e.entity != old) w₁.session.ledger) new with
  | true => exact ⟨hcarries, .inl ⟨_, rfl⟩⟩
  | false =>
    refine ⟨hcarries, .inr (h₁.advances hcarries rfl ?_ (h.enter hfind hkeyed htype' hlist hnumbered
      holdType hold ?_ hids rfl (legacy_inherits h.ledger hkey)))⟩
    · exact put_eq_none_iff hfind htype' _
    · intro e he hne
      exact not_contains_iff.mp htracked e (List.mem_filter.mpr ⟨he, by simpa using hne⟩)

/-! ## The three operations -/

/-- A checkout only adds to the ledger. -/
theorem mem_ledger_checkout (type : String) (w : Work) {e : LedgerEntry}
    (he : e ∈ w.session.ledger) : e ∈ (exec (checkout type) w).2.session.ledger := by
  have hregister : ∀ (pool : Pool) (l : Ledger) (hs : List Handle), e ∈ l →
      e ∈ (l.registerAllClean pool hs).2.2 := by
    intro pool l hs hl
    induction hs generalizing pool l with
    | nil => exact hl
    | cons h rest ih => exact ih _ _ (List.mem_append_left _ hl)
  cases hfind : w.session.caches.find? type with
  | some c =>
    rw [exec_checkout_of_some hfind]
    exact he
  | none =>
    rw [exec_checkout_of_none hfind]
    rcases exec (Store.load type) w.store with ⟨_ | committed, s⟩
    · exact he
    · simp only
      cases Cache.ofEntities (w.session.ledger.registerAllClean s.pool committed).2.1 type
        (w.session.ledger.registerAllClean s.pool committed).1 <;>
      exact hregister _ _ _ he

theorem exists_of_state?_ne_none (htracked : state? h w ≠ none) :
    ∃ e ∈ w.session.ledger, e.entity = h := by
  obtain ⟨state, hstate⟩ := Option.ne_none_iff_exists'.mp htracked
  obtain ⟨e, hfind, -⟩ := Option.map_eq_some_iff.mp hstate
  exact ⟨e, List.mem_of_find?_eq_some hfind, by simpa using List.find?_some hfind⟩

/-- An entity that reads as deleted has been marked so. -/
theorem exists_of_state?_eq_deleted (hdeleted : state? h w = some .deleted) :
    ∃ e ∈ w.session.ledger, e.entity = h ∧ e.state = .deleted := by
  obtain ⟨e, hfind, hcurrent⟩ := Option.map_eq_some_iff.mp hdeleted
  refine ⟨e, List.mem_of_find?_eq_some hfind, by simpa using List.find?_some hfind, ?_⟩
  unfold LedgerEntry.current at hcurrent
  split at hcurrent
  · cases hcurrent
  · exact hcurrent

theorem Pending.register (hw : Pending w₁ c h w) (h₁ : Tracks strays base w₁.store w₁.session)
    (hs₁ : w₁.store.Orderly) (hfind : w₁.session.caches.find? type = some c)
    (hnumbered : w.store.pool.id h ≠ none) (hstray : ¬ strays h) :
    Resumes base w₁ w (Session.succeed h h) := by
  obtain ⟨c', hsession, htype, hlist, hkeyed⟩ := hw.cache
  have hmem : ∀ k, k ∈ c'.entities ↔ k ∈ c.entities ∧ k ≠ h ∨ k = h := by
    intro k
    rw [hlist, List.mem_append, List.mem_singleton]
    by_cases hk : k = h
    · simp [hk]
    · simp [hk]
  have hlast : h ∈ c'.entities := (hmem h).mpr (.inr rfl)
  obtain ⟨s, σ⟩ := w
  obtain rfl : σ = { w₁.session with caches := w₁.session.caches.put c' } := hsession
  refine h₁.succeed hs₁ hw.carries hfind htype hkeyed hmem hnumbered hstray ?_ ?_ ?_
  · exact (hkeyed.typed h hlast).trans (htype.trans (Caches.type_of_find? hfind))
  · intro k hk hne heq
    obtain ⟨id, hid⟩ := Option.ne_none_iff_exists'.mp hnumbered
    exact hne (Pool.eq_of_id_eq hkeyed.ids ((hmem k).mpr (.inl ⟨hk, hne⟩)) hlast (heq.trans hid) hid)
  · exact fun _ _ _ => ⟨rfl, rfl⟩

/-- The ledger takes up the pending entity: as what it was before, if it has come back. -/
theorem Pending.take (hw : Pending w₁ c h w) (h₁ : Tracks strays base w₁.store w₁.session)
    (hs₁ : w₁.store.Orderly) (hfind : w₁.session.caches.find? type = some c)
    (hnumbered : w.store.pool.id h ≠ none) {revived : Bool} (hrevived : revived = true → ¬ strays h) :
    Resumes base w₁ w
      (if revived = true then Session.succeed h h else track fun pool l => l.registerNew pool h) := by
  split
  · next heq => exact hw.register h₁ hs₁ hfind hnumbered (hrevived heq)
  · have hledger : w.session.ledger = w₁.session.ledger := by
      obtain ⟨c', hsession, -⟩ := hw.cache
      rw [hsession]
    cases htracked : w.session.ledger.contains h with
    | true =>
      unfold Resumes
      rw [exec_track, Ledger.registerNew, Ledger.register, htracked]
      exact ⟨hw.carries, .inl ⟨_, rfl⟩⟩
    | false =>
      have hstray : ¬ strays h := by
        intro hstray
        obtain ⟨e, he, heq⟩ := h₁.ledger.tracked hstray
        exact not_contains_iff.mp htracked e (hledger ▸ he) heq
      unfold Resumes
      rw [exec_registerNew htracked]
      exact hw.register h₁ hs₁ hfind hnumbered hstray

/-- What remains of an addition once the entity is pending. -/
theorem Pending.settle (hw : Pending w₁ c h w) (h₁ : Tracks strays base w₁.store w₁.session)
    (hs₁ : w₁.store.Orderly) (hfind : w₁.session.caches.find? type = some c) {revived : Bool}
    (hrevived : revived = true → ¬ strays h) :
    Resumes base w₁ w (Session.settle type h revived) := by
  have hc : c.type = type := Caches.type_of_find? hfind
  unfold Resumes Session.settle
  rw [exec_bind, exec_get]
  simp only
  split
  · next hnone =>
    have hidentify := hw.identify hc (Option.isNone_iff_eq_none.mp hnone)
    rw [exec_bind]
    rcases hrun : exec (Session.identify type h) w with ⟨fault | _, w'⟩
    · rw [hrun] at hidentify
      obtain ⟨-, hcarries, c', hsession, htype, hlist, hkeyed⟩ := hidentify
      exact ⟨hcarries, .inr (h₁.advances_put hs₁ hcarries hfind hsession htype hlist hkeyed)⟩
    · rw [hrun] at hidentify
      exact hidentify.1.take h₁ hs₁ hfind hidentify.2 hrevived
  · next hsome =>
    exact hw.take h₁ hs₁ hfind (fun hnone => hsome (by rw [hnone]; rfl)) hrevived

/-- **Adding** an entity that lives. -/
theorem enter_proceeds (hs : w.store.Orderly) (hw : Tracks strays base w.store w.session)
    (hlive : h < w.store.pool.next) : Proceeds base w (enter h) := by
  obtain ⟨hcheckout, hout⟩ := checkout_spec hs hw (w.store.pool.typeName h)
  have hledger := fun {e} => mem_ledger_checkout (w.store.pool.typeName h) w (e := e)
  unfold Proceeds Resumes
  rw [exec_enter]
  simp only [exec_bind]
  rcases hrun : exec (checkout (w.store.pool.typeName h)) w with ⟨fault | c, w₁⟩
  · rw [hrun] at hcheckout
    exact ⟨hcheckout.carries, .inr hcheckout⟩
  · rw [hrun] at hcheckout hout hledger
    have hadvances : Advances base w w₁ := hcheckout
    have hfind : w₁.session.caches.find? (w.store.pool.typeName h) = some c := hout
    have hs₁ := hadvances.carries.orderly
    obtain ⟨strays₁, h₁⟩ := hadvances.tracks
    simp only
    by_cases hmem : h ∈ c.entities
    · rw [if_pos (by simpa [Cache.contains] using hmem)]
      exact ⟨hadvances.carries, .inr hadvances⟩
    · rw [if_neg (by simpa [Cache.contains] using hmem)]
      have hkeyed := h₁.keyed hfind
      have hcType : c.type = w.store.pool.typeName h := Caches.type_of_find? hfind
      have hlive₁ : h < w₁.store.pool.next := Nat.lt_of_lt_of_le hlive hadvances.carries.pool.next_le
      have htyped : w₁.store.pool.typeName h = c.type :=
        (hadvances.carries.pool.typeName hlive).trans hcType.symm
      have hsame : w₁.store.Carries w₁.store := .refl hs₁
      rw [exec_bind]
      rcases exec_insert hsame hfind hkeyed hlive₁ (htyped.trans hcType) hmem with
        ⟨e, hrun₁⟩ | ⟨w₂, hrun₁, -, hentered⟩
      · have hput : Advances _ w₁ { w₁ with session := { w₁.session with
            caches := w₁.session.caches.put (c.refresh w₁.store.pool) } } :=
          h₁.advances_put hs₁ hsame hfind rfl (Cache.type_refresh _ _)
            (Cache.entities_refresh _ _) hkeyed.refresh
        rw [hrun₁]
        exact ⟨hadvances.carries, .inr (hadvances.trans hput)⟩
      · have hpending : Pending w₁ c h w₂ := ⟨hentered.store, hentered.cache⟩
        rw [hrun₁]
        refine hadvances.then_resumes ((hpending.settle h₁ hs₁ hfind ?_).answer true)
        intro hrevived hstray
        obtain ⟨e, he, heq, hdeleted⟩ := exists_of_state?_eq_deleted (by simpa using hrevived)
        obtain ⟨hclean, -⟩ := h₁.ledger.clean e (hledger he) (heq ▸ hstray)
        rw [hdeleted] at hclean
        cases hclean

/-- What is shown may be marked deleted. -/
theorem mark_of_shown {p : Pool} {l : Ledger} (hl : l.Formed p) {e : LedgerEntry}
    (he : e ∈ l) (hshown : e.state ≠ .deleted) :
    l.mark p e.entity .deleted = .ok (List.map (Ledger.deleting e.entity) l) := by
  have hallowed : LifeState.allows (some e.state) .deleted = true := by
    obtain ⟨horigin, hstate⟩ := hl.states e he
    rw [hstate.resolve_right hshown]
    rcases horigin with hnew | hclean
    · rw [hnew]
      rfl
    · rw [hclean]
      rfl
  rw [Ledger.mark, hl.find?_eq he]
  simp only [hallowed, Bool.true_or, if_true]
  rfl

/-- **Removing** an entity, or the one of its id. -/
theorem leave_proceeds (hs : w.store.Orderly) (hw : Tracks strays base w.store w.session) :
    Proceeds base w (leave h) := by
  obtain ⟨hcheckout, hout⟩ := checkout_spec hs hw (w.store.pool.typeName h)
  unfold Proceeds Resumes
  rw [exec_leave]
  unfold withdraw
  simp only [exec_bind, exec_get, exec_onCache]
  rcases hrun : exec (checkout (w.store.pool.typeName h)) w with ⟨fault | c, w₁⟩
  · rw [hrun] at hcheckout
    exact ⟨hcheckout.carries, .inr hcheckout⟩
  · rw [hrun] at hcheckout hout
    have hadvances : Advances base w w₁ := hcheckout
    have hfind : w₁.session.caches.find? (w.store.pool.typeName h) = some c := hout
    have hs₁ := hadvances.carries.orderly
    obtain ⟨strays₁, h₁⟩ := hadvances.tracks
    have hkeyed := h₁.keyed hfind
    simp only
    rcases Cache.remove_cases w₁.store.pool h c with ⟨-, hremove⟩ | ⟨gone, hgone, -, hremove⟩
    · have hput : Advances _ w₁ { w₁ with session := { w₁.session with
          caches := w₁.session.caches.put c } } :=
        h₁.advances_put hs₁ (.refl hs₁) hfind rfl rfl rfl hkeyed
      simp only [hremove, Except.mapError]
      exact ⟨hadvances.carries, .inr (hadvances.trans hput)⟩
    · obtain ⟨-, e, he, rfl, hshown, -⟩ := h₁.entry hfind hgone
      have hcontains : w₁.session.ledger.contains e.entity = true := by
        rw [Ledger.contains, h₁.ledger.find?_eq he]
        rfl
      have hcType : c.type = w.store.pool.typeName h := Caches.type_of_find? hfind
      have htype : (c.without e.entity).type = w.store.pool.typeName h := hcType
      have hdelete := h₁.delete hfind hgone (hkeyed.without e.entity hgone) htype fun k => by
        show k ∈ c.entities.erase e.entity ↔ _
        rw [hkeyed.nodup.mem_erase_iff, and_comm]
      simp only [hremove, Except.mapError, hcontains, if_true, exec_track,
        mark_of_shown h₁.ledger.formed he hshown]
      refine ⟨hadvances.carries, .inr (hadvances.trans ?_)⟩
      exact h₁.advances (.refl hs₁) rfl (put_eq_none_iff hfind htype _) hdelete

/-- **Replacing** an entity by one that lives. -/
theorem replace_proceeds (hs : w.store.Orderly) (hw : Tracks strays base w.store w.session)
    (hlive : h < w.store.pool.next) : Proceeds base w (replace h) := by
  obtain ⟨hcheckout, hout⟩ := checkout_spec hs hw (w.store.pool.typeName h)
  unfold Proceeds Resumes
  rw [exec_replace]
  simp only [exec_bind, exec_onCache]
  rcases hrun : exec (checkout (w.store.pool.typeName h)) w with ⟨fault | c, w₁⟩
  · rw [hrun] at hcheckout
    exact ⟨hcheckout.carries, .inr hcheckout⟩
  · rw [hrun] at hcheckout hout
    have hadvances : Advances base w w₁ := hcheckout
    have hfind : w₁.session.caches.find? (w.store.pool.typeName h) = some c := hout
    have hs₁ := hadvances.carries.orderly
    obtain ⟨strays₁, h₁⟩ := hadvances.tracks
    have hkeyed := h₁.keyed hfind
    have hcType : c.type = w.store.pool.typeName h := Caches.type_of_find? hfind
    have hlive₁ : h < w₁.store.pool.next := Nat.lt_of_lt_of_le hlive hadvances.carries.pool.next_le
    have htyped : w₁.store.pool.typeName h = w.store.pool.typeName h :=
      hadvances.carries.pool.typeName hlive
    simp only
    rcases Cache.replace_cases hkeyed h with ⟨e, hreplace⟩ | ⟨old, hold, id, hid, hoid, hreplace⟩
    · have hput : Advances _ w₁ { w₁ with session := { w₁.session with
          caches := w₁.session.caches.put (c.refresh w₁.store.pool) } } :=
        h₁.advances_put hs₁ (.refl hs₁) hfind rfl (Cache.type_refresh _ _)
          (Cache.entities_refresh _ _) hkeyed.refresh
      simp only [hreplace, Except.mapError]
      exact ⟨hadvances.carries, .inr (hadvances.trans hput)⟩
    · obtain ⟨holdType, -, -, -, -, hstray⟩ := h₁.entry hfind hold
      obtain ⟨c', hc'⟩ : ∃ c', c' = (c.refresh w₁.store.pool).exchange w₁.store.pool old h := ⟨_, rfl⟩
      have htype : c'.type = c.type := by
        rw [hc', Cache.type_exchange, Cache.type_refresh]
      have hlist : ∀ k, k ∈ c'.entities ↔ k ∈ c.entities ∧ k ≠ old ∨ k = h := by
        intro k
        rw [hc', Cache.entities_exchange, Cache.entities_refresh, mem_replace hkeyed.nodup hold,
          or_comm]
      have hkeyed' : c'.Keyed w₁.store.pool := by
        rw [hc']
        refine hkeyed.refresh.exchange hlive₁ ?_ ?_ hoid hid
        · rw [Cache.type_refresh, htyped, hcType]
        · rw [Cache.entities_refresh]
          exact hold
      have hnumbered : w₁.store.pool.id h ≠ none := by
        rw [hid]
        exact Option.some_ne_none id
      simp only [hreplace, Except.mapError, ← hc']
      refine hadvances.then_resumes
        (h₁.succeed hs₁ (.refl hs₁) hfind htype hkeyed' hlist hnumbered hstray holdType ?_ ?_)
      · intro k hk hne heq
        exact hne (Pool.eq_of_id_eq hkeyed.ids hk hold (heq.trans hid) hoid)
      · exact fun _ _ _ => ⟨holdType.trans htyped.symm, hoid.trans hid.symm⟩

end Session

end EntityStore
