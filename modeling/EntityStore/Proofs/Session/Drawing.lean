import EntityStore.Proofs.Repository.Runs
import EntityStore.Proofs.Session.Quiet

/-!
# Drawing ids until one is free

Ids are drawn one after the other until one is not taken in the session. Nothing in this limits how
often; but every id lies beyond the one before, and an id that is drawn for nothing is held by an
entity that the session lists. So the loop ends after as many draws as entities are listed and one
more, and the limit that is set to it is never reached. **The id that it ends with is new to the
session, to the repository and to all that happened to it before.**
-/

namespace EntityStore

namespace Store

variable {s : Store} {type : String} {d : Cache}

/-- Once a type is loaded, drawing an id moves its sequence on, beyond where it stood and beyond what
is committed, and does nothing else; or it fails for want of ids. -/
theorem exec_newId_of_loaded (hfind : s.repository.caches.find? type = some d) :
    exec (newId type) s = (.error (.idsExhausted type), s) ∨
      ∃ id, exec (newId type) s
          = (.ok id, { s with repository := s.repository.withLastId type id }) ∧
        (s.repository.lastId type).toInt < id.toInt ∧
        ∀ held ∈ (s.pool.roster d.entities).ids, held.toInt < id.toInt := by
  rw [exec_newId, exec_checkout_of_some hfind]
  simp only
  cases hnext : ((s.pool.roster d.entities).latest (s.repository.lastId type)).next? with
  | none =>
    rw [Cache.advance_of_none hnext]
    exact .inl rfl
  | some id =>
    rw [Cache.advance_of_some hnext]
    have hid := EntityId.toInt_of_next? hnext
    have hlatest := Roster.le_latest (s.pool.roster d.entities) (s.repository.lastId type)
    refine .inr ⟨id, rfl, by omega, fun held hheld => ?_⟩
    have hle := Roster.id_le_latest (s.repository.lastId type) hheld
    omega

end Store

/-- The ids of a list that lie beyond where a sequence stands. -/
def EntityId.beyond (last : EntityId) (ids : List EntityId) : List EntityId :=
  ids.filter fun id => last.toInt < id.toInt

/-- Where the sequence moves on to one of them, fewer are left. -/
theorem EntityId.length_beyond_lt {last id : EntityId} {ids : List EntityId} (hmem : id ∈ ids)
    (hlt : last.toInt < id.toInt) : (id.beyond ids).length < (last.beyond ids).length := by
  have hbeyond : id.beyond ids = id.beyond (last.beyond ids) := by
    rw [beyond, beyond, beyond, List.filter_filter]
    refine List.filter_congr fun x _ => ?_
    by_cases hx : id.toInt < x.toInt
    · have hlast : last.toInt < x.toInt := Int.lt_trans hlt hx
      simp [hx, hlast]
    · simp [hx]
  rw [hbeyond]
  exact List.length_filter_lt_length_iff_exists.mpr
    ⟨id, List.mem_filter.mpr ⟨hmem, by simpa using hlt⟩, by simp⟩

/-- At most as many lie beyond the sequence as there are entities that have an id. -/
theorem EntityId.length_beyond_le (last : EntityId) {p : Pool} (es : List Handle) {h : Handle}
    (hid : p.id h = none) : (last.beyond (p.roster (es ++ [h])).ids).length ≤ es.length := by
  refine Nat.le_trans (List.length_filter_le _ _) ?_
  rw [Pool.ids_roster, List.filterMap_append, List.filterMap_cons_none hid, List.filterMap_nil,
    List.append_nil]
  exact List.length_filterMap_le _ _

namespace Session

variable {s : Store} {σ : Session} {w w' : Work} {type : String} {hs : List Handle} {h : Handle}
  {c d : Cache} {n draws : Nat} {outcome : Except SessionFault EntityId}

/-! ## The loop without its limit -/

/-- What comes of drawing ids until one is free, however long that takes, and after how many draws. -/
inductive Draws (type : String) : Nat → Work → Except SessionFault EntityId → Work → Prop
  | refused {w w' : Work} {fault : SessionFault}
    (hdraw : exec (ask (Store.newId type)) w = (.error fault, w')) :
    Draws type 1 w (.error fault) w'
  | unread {w w₁ w' : Work} {id : EntityId} {fault : SessionFault}
    (hdraw : exec (ask (Store.newId type)) w = (.ok id, w₁))
    (hlookup : exec (lookup type id) w₁ = (.error fault, w')) : Draws type 1 w (.error fault) w'
  | free {w w₁ w' : Work} {id : EntityId}
    (hdraw : exec (ask (Store.newId type)) w = (.ok id, w₁))
    (hlookup : exec (lookup type id) w₁ = (.ok none, w')) : Draws type 1 w (.ok id) w'
  | taken {w w₁ w₂ w' : Work} {id : EntityId} {k : Handle} {n : Nat}
    {outcome : Except SessionFault EntityId}
    (hdraw : exec (ask (Store.newId type)) w = (.ok id, w₁))
    (hlookup : exec (lookup type id) w₁ = (.ok (some k), w₂))
    (hrest : Draws type n w₂ outcome w') : Draws type (n + 1) w outcome w'

/-- A limit that is not reached makes no difference. -/
theorem Draws.exec_unusedId (h : Draws type n w outcome w') (hn : n ≤ draws) :
    exec (unusedId type draws) w = (outcome, w') := by
  induction h generalizing draws with
  | refused hdraw =>
    obtain ⟨draws, rfl⟩ := Nat.exists_eq_add_one_of_ne_zero (Nat.ne_of_gt hn)
    rw [unusedId, exec_bind, hdraw]
  | unread hdraw hlookup =>
    obtain ⟨draws, rfl⟩ := Nat.exists_eq_add_one_of_ne_zero (Nat.ne_of_gt hn)
    rw [unusedId, exec_bind, hdraw]
    simp only [exec_bind, hlookup]
  | free hdraw hlookup =>
    obtain ⟨draws, rfl⟩ := Nat.exists_eq_add_one_of_ne_zero (Nat.ne_of_gt hn)
    rw [unusedId, exec_bind, hdraw]
    simp only [exec_bind, hlookup, exec_pure]
  | taken hdraw hlookup _ ih =>
    obtain ⟨draws, rfl⟩ := Nat.exists_eq_add_one_of_ne_zero (Nat.ne_zero_of_lt hn)
    rw [unusedId, exec_bind, hdraw]
    simp only [exec_bind, hlookup]
    exact ih (Nat.le_of_succ_le_succ hn)

/-! ## While ids are drawn -/

/-- A session as `σ`, but for the cache of one type, which lists `hs`; of the store `s` at most a
sequence has moved on. -/
structure Drawing (s : Store) (σ : Session) (type : String) (hs : List Handle) (w : Work) :
    Prop where
  pool : w.store.pool = s.pool
  committed : w.store.repository.caches = s.repository.caches
  settings : w.store.repository.settings = s.repository.settings
  cache : ∃ c, w.session = { σ with caches := σ.caches.put c } ∧ c.type = type ∧
    c.entities = hs ∧ (c.stale = true ∨ c.byId.Covers s.pool.id hs)

theorem Drawing.lists (hw : Drawing s σ type hs w) : Lists s.pool σ type hs w where
  pool := hw.pool ▸ .refl _
  cache := by
    obtain ⟨c, hsession, htype, hlist, -⟩ := hw.cache
    exact ⟨c, hsession, htype, hlist⟩

/-- Looking an id up finds somebody exactly if somebody listed has it. -/
theorem Drawing.exec_lookup (hw : Drawing s σ type hs w) (id : EntityId) :
    ∃ found w', exec (lookup type id) w = (.ok found, w') ∧ w'.store = w.store ∧
      Drawing s σ type hs w' ∧ (found = none ↔ ∀ k ∈ hs, s.pool.id k ≠ some id) := by
  obtain ⟨c, hsession, htype, rfl, hindex⟩ := hw.cache
  have hfind : w.session.caches.find? type = some c := by
    rw [hsession, Caches.find?_put_of_eq htype]
  have hcovers : (c.refresh s.pool).byId.Covers s.pool.id c.entities := by
    unfold Cache.refresh
    split
    next => exact (Cache.covers_rebuild s.pool c).1
    next hfresh => exact hindex.resolve_left hfresh
  have hrun : exec (lookup type id) w = (.ok ((c.refresh s.pool).byId.get? id),
      { w with session := { σ with caches := σ.caches.put (c.refresh s.pool) } }) := by
    unfold lookup
    rw [exec_onCache, exec_checkout_of_some hfind]
    simp only [hw.pool, hsession]
    rw [show (c.getById s.pool id).2 = c.refresh s.pool from rfl,
      Caches.put_put (Cache.type_refresh s.pool c).symm]
    rfl
  refine ⟨_, _, hrun, rfl, ⟨hw.pool, hw.committed, hw.settings, c.refresh s.pool, rfl,
    (Cache.type_refresh _ _).trans htype, Cache.entities_refresh _ _, .inr hcovers⟩, ?_⟩
  rw [← Option.not_isSome_iff_eq_none, hcovers.isSome_iff]
  simp

/-- Where the type is loaded, an id is drawn beyond those that were, or there is none. -/
theorem Drawing.exec_newId (hw : Drawing s σ type hs w)
    (hfind : s.repository.caches.find? type = some d) :
    (∃ w', exec (ask (Store.newId type)) w = (.error (.store (.idsExhausted type)), w') ∧
        Drawing s σ type hs w') ∨
      ∃ id w', exec (ask (Store.newId type)) w = (.ok id, w') ∧ Drawing s σ type hs w' ∧
        w'.store.repository.lastId type = id ∧
        (w.store.repository.lastId type).toInt < id.toInt ∧
        ∀ held ∈ (s.pool.roster d.entities).ids, held.toInt < id.toInt := by
  have hloaded : w.store.repository.caches.find? type = some d := hw.committed ▸ hfind
  rcases Store.exec_newId_of_loaded hloaded with hnone | ⟨id, hnew, hlt, hheld⟩
  · refine .inl ⟨w, ?_, hw⟩
    rw [exec_ask, hnone]
    rfl
  · rw [hw.pool] at hheld
    refine .inr ⟨id, { w with store :=
      { w.store with repository := w.store.repository.withLastId type id } }, ?_,
      ⟨hw.pool, hw.committed, hw.settings, hw.cache⟩, if_pos rfl, hlt, hheld⟩
    rw [exec_ask, hnew]
    rfl

/-- **The loop ends.** Of the listed ids beyond the sequence each can spoil one draw, and one draw
more is free, if there is an id left. -/
theorem Drawing.exists_draws (hw : Drawing s σ type hs w)
    (hfind : s.repository.caches.find? type = some d) :
    ∃ n ≤ ((w.store.repository.lastId type).beyond (s.pool.roster hs).ids).length + 1,
      ∃ outcome w', Draws type n w outcome w' ∧ Drawing s σ type hs w' ∧
        (outcome = .error (.store (.idsExhausted type)) ∨
          ∃ id, outcome = .ok id ∧ (∀ k ∈ hs, s.pool.id k ≠ some id) ∧
            (w.store.repository.lastId type).toInt < id.toInt ∧
            ∀ held ∈ (s.pool.roster d.entities).ids, held.toInt < id.toInt) := by
  -- by the number of listed ids that the sequence has not reached yet
  induction hlength : ((w.store.repository.lastId type).beyond (s.pool.roster hs).ids).length using
    Nat.strong_induction_on generalizing w with
  | _ length ih =>
    rcases hw.exec_newId hfind with ⟨w', hdraw, hw'⟩ | ⟨id, w₁, hdraw, hw₁, hlast, hlt, hheld⟩
    · exact ⟨1, Nat.le_add_left 1 _, _, w', .refused hdraw, hw', .inl rfl⟩
    · obtain ⟨found, w₂, hlookup, hstore, hw₂, hfree⟩ := hw₁.exec_lookup id
      cases found with
      | none =>
        exact ⟨1, Nat.le_add_left 1 _, _, w₂, .free hdraw hlookup, hw₂,
          .inr ⟨id, rfl, hfree.mp rfl, hlt, hheld⟩⟩
      | some k =>
        -- somebody has the id, which is one less of those that can spoil a draw
        have hmem : id ∈ (s.pool.roster hs).ids := by
          rw [Pool.mem_ids_roster]
          by_contra hnone
          exact absurd (hfree.mpr fun k hk hid => hnone ⟨k, hk, hid⟩) (Option.some_ne_none k)
        have hless := EntityId.length_beyond_lt hmem hlt
        rw [hlength] at hless
        have hlast₂ : w₂.store.repository.lastId type = id := hstore ▸ hlast
        obtain ⟨n, hn, outcome, w', hdraws, hw', hout⟩ := ih _ hless hw₂ (by rw [hlast₂])
        refine ⟨n + 1, by omega, outcome, w', .taken hdraw hlookup hdraws, hw', ?_⟩
        refine hout.imp_right ?_
        rintro ⟨id', rfl, hunused, hlt', hheld'⟩
        rw [hlast₂] at hlt'
        exact ⟨id', rfl, hunused, Int.lt_trans hlt hlt', hheld'⟩

/-! ## Giving the id -/

theorem Drawing.exec_checkout (hw : Drawing s σ type hs w) :
    ∃ c, c.size = hs.length ∧ exec (checkout type) w = (.ok c, w) ∧
      w.session = { σ with caches := σ.caches.put c } ∧ c.type = type ∧ c.entities = hs := by
  obtain ⟨c, hsession, htype, hlist, -⟩ := hw.cache
  refine ⟨c, congrArg List.length hlist, ?_, hsession, htype, hlist⟩
  refine exec_checkout_of_some ?_
  rw [hsession, Caches.find?_put_of_eq htype]

/-- Where no id is free, the entity that was to have it is taken out of the list again. -/
theorem Drawing.identify_refused {fault : SessionFault} (hw : Drawing s σ type (hs ++ [h]) w)
    (hnew : h ∉ hs) (hdraws : Draws type n w (.error fault) w') (hn : n ≤ hs.length + 2)
    (hw' : Drawing s σ type (hs ++ [h]) w') :
    ∃ v, exec (identify type h) w = (.error fault, v) := by
  obtain ⟨c, hsize, hcheckout, -⟩ := hw.exec_checkout
  rw [List.length_append, List.length_singleton] at hsize
  obtain ⟨v, hwithdraw, -⟩ := hw'.lists.withdraw hnew
  have hdrawn : exec (unusedId type (c.size + 1)) w = (.error fault, w') :=
    hdraws.exec_unusedId (by omega)
  refine ⟨v, ?_⟩
  unfold identify
  simp only [exec_bind, hcheckout, exec_tryCatch, hdrawn, hwithdraw, exec_throw]

/-- The entity is given the id that is free, and is listed as before. -/
theorem Drawing.identify_given {id : EntityId} (hw : Drawing s σ type (hs ++ [h]) w)
    (hdraws : Draws type n w (.ok id) w') (hn : n ≤ hs.length + 2)
    (hw' : Drawing s σ type (hs ++ [h]) w') :
    ∃ v, exec (identify type h) w = (.ok (), v) ∧
      v.store = { w'.store with pool := s.pool.edit h fun e => e.setId (some id) } ∧
      v.session.listed type = hs ++ [h] := by
  obtain ⟨c, hsize, hcheckout, -⟩ := hw.exec_checkout
  rw [List.length_append, List.length_singleton] at hsize
  obtain ⟨c', -, -, hsession, htype, hlist⟩ := hw'.exec_checkout
  have hdrawn : exec (unusedId type (c.size + 1)) w = (.ok id, w') :=
    hdraws.exec_unusedId (by omega)
  have hfind : ∀ store : Store, (⟨store, w'.session⟩ : Work).session.caches.find? type = some c' := by
    intro store
    rw [hsession, Caches.find?_put_of_eq htype]
  unfold identify
  simp only [exec_bind, hcheckout, exec_tryCatch, hdrawn, exec_modify]
  rw [exec_onCache, exec_checkout_of_some (hfind _)]
  refine ⟨_, rfl, by rw [hw'.pool], ?_⟩
  have hinvalid : c'.invalidate.type = type := htype
  rw [Session.listed, Caches.find?_put_of_eq hinvalid]
  exact hlist

/-! ## Adding an entity without an id -/

/-- What is known of a store once a type has been checked out of it: nothing that lived has changed,
all that is committed of the type has an id, and no sequence has gone back. -/
structure Opened (s s' : Store) (type : String) : Prop where
  pool : s.pool.Extends s'.pool
  settings : s'.repository.settings = s.repository.settings
  loaded : s'.repository.caches.find? type ≠ none
  numbered : ∀ d, s'.repository.caches.find? type = some d → ∀ k ∈ d.entities, s'.pool.id k ≠ none
  reached : ∀ {type id}, s.Reached type id → s'.Reached type id

theorem opened_of_exec_checkout (hs : s.Upkept)
    (hloaded : σ.caches.find? type ≠ none → s.repository.caches.find? type ≠ none)
    (hcheckout : exec (checkout type) ⟨s, σ⟩ = (.ok c, w)) : Opened s w.store type := by
  rcases of_exec_checkout hcheckout with
    ⟨hfind, rfl⟩ | ⟨-, committed, s', copies, pool, ledger, hload, hregister, -, rfl⟩
  · refine ⟨.refl _, rfl, hloaded ?_, fun _ hd => hs.numbered hd, id⟩
    rw [hfind]
    exact Option.some_ne_none c
  · -- the store loads the type, and the session makes copies of what is committed
    obtain ⟨hprogress, hfound⟩ := hs.checkout type
    have hupkept := hs.progress hprogress
    have hextends := Store.extends_checkout s type
    have hkeeps := Store.keepsFields_checkout s type
    have hcopies := Ledger.extends_registerAllClean s'.pool σ.ledger committed
    rw [hregister] at hcopies
    rw [Store.exec_load] at hload
    obtain ⟨hok, rfl⟩ := Prod.mk.inj hload
    have hreached : ∀ {t id}, s.Reached t id → (exec (Store.checkout type) s).2.Reached t id :=
      fun h => h.progress hprogress
    refine ⟨hextends.trans hcopies, hkeeps.settings, ?_, fun d hd k hk => ?_, hreached⟩
    · rcases hrun : exec (Store.checkout type) s with ⟨e | d, s₁⟩
      · rw [hrun] at hok
        cases hok
      · rw [hrun] at hfound
        rw [hfound d rfl]
        exact Option.some_ne_none d
    · rw [hcopies.id ((hupkept.keyed hd).live k hk)]
      exact hupkept.numbered hd k hk

/-- The entity is put into the cache that was checked out, where its slug is free. -/
theorem exec_insert_of_free (hfind : w.session.caches.find? type = some c) (hnew : h ∉ c.entities)
    (hid : w.store.pool.id h = none)
    (hslug : ∀ slug ∈ w.store.pool.slug h, (c.refresh w.store.pool).bySlug.get? slug = none) :
    ∃ v, exec (onCache type fun pool c => c.add pool h) w = (.ok (), v) ∧ v.store = w.store ∧
      Drawing w.store w.session type (c.entities ++ [h]) v := by
  have hconflict : (c.refresh w.store.pool).conflict? w.store.pool h = none := by
    rw [Cache.conflict?_eq_none, hid]
    exact ⟨nofun, hslug⟩
  have hadd : c.add w.store.pool h = (.ok (), (c.refresh w.store.pool).append w.store.pool h) := by
    rcases Cache.add_cases w.store.pool h c with ⟨hmem, -⟩ | ⟨-, e, he, -⟩ | ⟨-, -, hadd⟩
    · exact absurd hmem hnew
    · rw [hconflict] at he
      cases he
    · exact hadd
  rw [exec_onCache, exec_checkout_of_some hfind]
  simp only [hadd]
  refine ⟨_, rfl, rfl, rfl, rfl, rfl, (c.refresh w.store.pool).append w.store.pool h, rfl, ?_, ?_,
    .inl rfl⟩
  · exact (Cache.type_refresh _ c).trans (Caches.type_of_find? hfind)
  · rw [Cache.entities_append, Cache.entities_refresh]

/-- An entity has an id that is new: nobody else whom the session lists has it, nobody who is
committed, and it was not known at any moment before, be it held then or handed out. -/
structure GivenUnused (ms : List Moment) (type : String) (h : Handle) (id : EntityId) (w : Work) :
    Prop where
  given : w.store.pool.id h = some id
  listed : ∀ k ∈ w.session.listed type, k ≠ h → w.store.pool.id k ≠ some id
  committed : ∀ d, w.store.repository.caches.find? type = some d →
    ∀ k ∈ d.entities, w.store.pool.id k ≠ some id
  unknown : ∀ m ∈ ms, id ∉ m.known type

/-- An id is new to all where it is set, if nobody had it. What is committed has an id, unlike the
entity that is given one. -/
theorem GivenUnused.of_setId {ms : List Moment} {id : EntityId} {p : Pool}
    (hpool : w.store.pool = p.edit h fun e => e.setId (some id)) (hid : p.id h = none)
    (hlisted : ∀ k ∈ w.session.listed type, p.id k ≠ some id)
    (hnumbered : ∀ d, w.store.repository.caches.find? type = some d →
      ∀ k ∈ d.entities, p.id k ≠ none ∧ p.id k ≠ some id)
    (hunknown : ∀ m ∈ ms, id ∉ m.known type) : GivenUnused ms type h id w where
  given := by
    rw [hpool, Pool.id, Pool.entity_edit_self]
    rfl
  listed := fun k hk hne => by
    rw [hpool, Pool.id, Pool.entity_edit_of_ne hne]
    exact hlisted k hk
  committed := fun d hd k hk => by
    obtain ⟨hsome, hother⟩ := hnumbered d hd k hk
    have hne : k ≠ h := fun heq => hsome (heq ▸ hid)
    rw [hpool, Pool.id, Pool.entity_edit_of_ne hne]
    exact hother
  unknown := hunknown

section

variable {w₁ w₂ w₃ : Work} (hcheckout : exec (checkout (w.store.pool.typeName h)) w = (.ok c, w₁))
  (hnew : h ∉ c.entities)
  (hinsert : exec (onCache (w.store.pool.typeName h) fun pool c => c.add pool h) w₁ = (.ok (), w₂))
  (hid : w₂.store.pool.id h = none)

include hcheckout hnew hinsert hid

/-- What is left to do for an entity without an id that has been put into its cache. -/
theorem exec_enter_of_inserted :
    exec (enter h) w =
      match exec (identify (w.store.pool.typeName h) h) w₂ with
      | (.error fault, v) => (.error fault, v)
      | (.ok _, v) =>
        match exec (if state? h w == some .deleted then succeed h h else
          track fun pool l => l.registerNew pool h) v with
        | (.error fault, v) => (.error fault, v)
        | (.ok _, v) => (.ok true, v) := by
  have hcontains : ¬ c.contains h = true := fun hcontains => hnew (List.contains_iff_mem.mp hcontains)
  rw [exec_enter]
  unfold settle
  simp only [exec_bind, exec_get, hcheckout, if_neg hcontains, hinsert, hid, Option.isNone_none,
    if_true]
  rcases exec (identify (w.store.pool.typeName h) h) w₂ with ⟨fault | _, v⟩
  · rfl
  · simp only
    rcases exec (if state? h w == some .deleted then succeed h h else
      track fun pool l => l.registerNew pool h) v with ⟨fault | _, v'⟩ <;> rfl

/-- Where no id is free the addition is refused for that reason. -/
theorem fst_exec_add_of_refused {fault : SessionFault}
    (hidentify : ∃ v, exec (identify (w.store.pool.typeName h) h) w₂ = (.error fault, v)) :
    (exec (add h) w).1 = .error fault := by
  obtain ⟨v, hidentify⟩ := hidentify
  rw [add_eq, exec_bind, exec_enter_of_inserted hcheckout hnew hinsert hid, hidentify]

/-- Once the entity has its id, the ledger takes it up, and nothing else happens where nothing commits
by itself. -/
theorem exec_add_of_identified
    (hidentify : exec (identify (w.store.pool.typeName h) h) w₂ = (.ok (), w₃))
    (hexplicit : w₃.store.repository.settings.autocommit = false) :
    ∃ outcome ledger, exec (add h) w
        = (outcome, { w₃ with session := { w₃.session with ledger } }) ∧
      ∀ e, outcome ≠ .error (.store e) := by
  obtain ⟨outcome, ledger, htakeUp, hnot⟩ := exec_takeUp (state? h w == some .deleted) h w₃
  rw [add_eq, exec_bind, exec_enter_of_inserted hcheckout hnew hinsert hid, hidentify]
  simp only [htakeUp]
  cases outcome with
  | error fault => exact ⟨_, ledger, rfl, hnot⟩
  | ok _ =>
    simp only [if_true]
    exact ⟨_, ledger, exec_autocommit_of_explicit hexplicit, hnot⟩

end

/-- **Adding an entity that has no id** and is not listed, where its type can be checked out, its slug
is free and nothing commits by itself. Whatever the session is like and whatever has been asked of
the store, drawing an id ends after as many draws as the session lists entities of the type and one
more; and if it is not for want of ids that the addition is refused, the entity has an id that is
new to all. -/
theorem add_gives_unused_id {ms : List Moment} {w₁ : Work} (hrun : Run Entity.SameKey ms s)
    (hloaded : σ.caches.find? (s.pool.typeName h) ≠ none →
      s.repository.caches.find? (s.pool.typeName h) ≠ none)
    (hexplicit : s.repository.settings.autocommit = false)
    (hlive : h < s.pool.next) (hid : s.pool.id h = none)
    (hcheckout : exec (checkout (s.pool.typeName h)) ⟨s, σ⟩ = (.ok c, w₁)) (hnew : h ∉ c.entities)
    (hslug : ∀ slug ∈ s.pool.slug h, (c.getBySlug w₁.store.pool slug).1 = none) :
    ∃ w₂, exec (onCache (s.pool.typeName h) fun pool c => c.add pool h) w₁ = (.ok (), w₂) ∧
      ∃ n ≤ c.size + 1, ∃ outcome w₃, Draws (s.pool.typeName h) n w₂ outcome w₃ ∧
        (outcome = .error (.store (.idsExhausted (s.pool.typeName h))) ∧
            (exec (add h) ⟨s, σ⟩).1 = .error (.store (.idsExhausted (s.pool.typeName h))) ∨
          ∃ id, outcome = .ok id ∧ (∀ e, (exec (add h) ⟨s, σ⟩).1 ≠ .error (.store e)) ∧
            GivenUnused ms (s.pool.typeName h) h id (exec (add h) ⟨s, σ⟩).2) := by
  obtain ⟨hupkept, hknown⟩ := hrun.upkept id
  have hopened := opened_of_exec_checkout hupkept hloaded hcheckout
  obtain ⟨d, hfind⟩ := Option.ne_none_iff_exists'.mp hopened.loaded
  have hkept : w₁.store.pool.entity h = s.pool.entity h := hopened.pool.kept h hlive
  have hid₁ : w₁.store.pool.id h = none := (congrArg Entity.id hkept).trans hid
  have hslug₁ : ∀ slug ∈ w₁.store.pool.slug h, (c.refresh w₁.store.pool).bySlug.get? slug = none := by
    rw [Pool.slug, hkept]
    exact hslug
  obtain ⟨w₂, hinsert, hstore, hdrawing⟩ :=
    exec_insert_of_free (find?_of_exec_checkout hcheckout) hnew hid₁ hslug₁
  have hid₂ : w₂.store.pool.id h = none := hstore ▸ hid₁
  obtain ⟨n, hn, outcome, w₃, hdraws, hdrawn, hout⟩ := hdrawing.exists_draws hfind
  have hbound : n ≤ c.size + 1 :=
    Nat.le_trans hn (Nat.succ_le_succ (EntityId.length_beyond_le _ c.entities hid₁))
  refine ⟨w₂, hinsert, n, hbound, outcome, w₃, hdraws, ?_⟩
  rcases hout with rfl | ⟨id, rfl, hunused, hlt, hheld⟩
  · refine .inl ⟨rfl, fst_exec_add_of_refused hcheckout hnew hinsert hid₂ ?_⟩
    exact hdrawing.identify_refused hnew hdraws (Nat.le_succ_of_le hbound) hdrawn
  · obtain ⟨v, hidentify, hvstore, hvlisted⟩ :=
      hdrawing.identify_given hdraws (Nat.le_succ_of_le hbound) hdrawn
    have hvexplicit : v.store.repository.settings.autocommit = false := by
      rw [hvstore]
      show w₃.store.repository.settings.autocommit = false
      rw [hdrawn.settings, hopened.settings, hexplicit]
    have hvcaches : v.store.repository.caches = w₁.store.repository.caches := by
      rw [hvstore]
      exact hdrawn.committed
    -- all committed ids are behind the new one, and so is whatever was known before
    have hnumbered : ∀ d', v.store.repository.caches.find? (s.pool.typeName h) = some d' →
        ∀ k ∈ d'.entities, w₁.store.pool.id k ≠ none ∧ w₁.store.pool.id k ≠ some id := by
      intro d' hd' k hk
      rw [hvcaches] at hd'
      obtain rfl : d = d' := Option.some.inj (hfind.symm.trans hd')
      refine ⟨hopened.numbered d hfind k hk, fun hkid => ?_⟩
      exact Int.lt_irrefl _ (hheld id (Pool.mem_ids_roster.mpr ⟨k, hk, hkid⟩))
    have hunknown : ∀ m ∈ ms, id ∉ m.known (s.pool.typeName h) := by
      intro m hm hmem
      have hreached := hopened.reached (hknown m hm id hmem)
      rw [hstore] at hlt
      exact absurd hreached.2 (Int.not_le_of_gt hlt)
    obtain ⟨outcome, ledger, hadd, hnot⟩ :=
      exec_add_of_identified hcheckout hnew hinsert hid₂ hidentify hvexplicit
    refine .inr ⟨id, rfl, by rw [hadd]; exact hnot, ?_⟩
    rw [hadd]
    exact .of_setId (congrArg Store.pool hvstore) hid₁ (fun k hk => hunused k (hvlisted ▸ hk))
      hnumbered hunknown

open Samples

/-- A session that lists a grey tag of the id that is drawn next. -/
def greyAhead : Session := ⟨[⟨0, .new, .new, []⟩], [⟨"tag", [0], [], [], true⟩], false⟩

/-- A green tag is added to it, and gets the id after that. -/
theorem add_gives_unused_id_after_taken :
    let m : Moment := ⟨redAndBlue [tagNamed (some 3) "grey", tagNamed none "green"], .load "tag"⟩
    (∃ n ≤ 2, ∃ w₂ w₃, Draws "tag" n w₂ (.ok 4) w₃) ∧
      GivenUnused [m] "tag" 1 4 (exec (add 1) ⟨m.after, greyAhead⟩).2 := by
  intro m
  have hrun : Run Entity.SameKey [m] m.after :=
    (Run.start (Run.untouched_redAndBlue _)).ask m.request trivial
  have hcheckout : exec (checkout (m.after.pool.typeName 1)) ⟨m.after, greyAhead⟩
      = (.ok ⟨"tag", [0], [], [], true⟩, ⟨m.after, greyAhead⟩) :=
    exec_checkout_of_some rfl
  obtain ⟨w₂, -, n, hn, outcome, w₃, hdraws, ⟨-, hrefused⟩ | ⟨id, rfl, -, hgiven⟩⟩ :=
    add_gives_unused_id hrun (by decide +kernel) rfl (by decide +kernel) (by decide +kernel)
      hcheckout (by decide +kernel) (by decide +kernel)
  · have hadded : (exec (add 1) ⟨m.after, greyAhead⟩).1 = .ok () := by decide +kernel
    rw [hadded] at hrefused
    cases hrefused
  · have hid : (exec (add 1) ⟨m.after, greyAhead⟩).2.store.pool.id 1 = some 4 := by decide +kernel
    obtain rfl : id = 4 := Option.some.inj (hgiven.given.symm.trans hid)
    exact ⟨⟨n, hn, w₂, w₃, hdraws⟩, hgiven⟩

/-- A session that has added somebody, who has lost the id since. -/
def idLost : Work :=
  (exec (do
    locked (Session.add 0)
    modify fun w =>
      { w with store := { w.store with pool := w.store.pool.edit 0 fun e => e.setId none } })
    ⟨redAndBlue [blank person], .fresh⟩).2

/-- A store whose loader of tags reports a failure, and that has a green tag at large. -/
def unloadable : Store :=
  let s := redAndBlue [tagNamed none "green"]
  { s with repository := s.repository.withLoader "tag" (.failing "gone") }

/-- A session that has renamed its green tag since it looked one up, and has another green one at
large. -/
def greenRenamed : Work :=
  (exec (do
    locked (Session.add 0)
    let _ ← locked (Session.getBySlug "tag" "green")
    modify fun w =>
      { w with store :=
        { w.store with pool := w.store.pool.edit 0 fun e => e.set "name" (.value (.string "lime")) } })
    ⟨redAndBlue [tagNamed none "green", tagNamed none "green"], .fresh⟩).2

/-- **Where an addition gives no id for another reason.** Who is listed already and has lost the id
does not get another; a type that cannot be loaded cannot be added to; and the index that an
addition goes by may still have a slug that nobody listed has. -/
theorem not_gives_unused_id :
    ((idLost.store.pool.id 0 = none ∧ idLost.store.pool.slug 0 = none) ∧
        (exec (add 0) idLost).1 = .ok () ∧ (exec (add 0) idLost).2.store.pool.id 0 = none) ∧
      ((unloadable.pool.id 0 = none ∧ unloadable.repository.settings.autocommit = false) ∧
        (exec (add 0) ⟨unloadable, .fresh⟩).1 = .error (.store (.persist (.loader "gone"))) ∧
        (exec (add 0) ⟨unloadable, .fresh⟩).2.store.pool.id 0 = none) ∧
      (greenRenamed.store.pool.id 1 = none ∧
          ∀ k ∈ greenRenamed.session.listed "tag",
            greenRenamed.store.pool.slug k ≠ greenRenamed.store.pool.slug 1) ∧
        (exec (add 1) greenRenamed).1 = .error (.store (.duplicateSlug "tag" "green")) ∧
        (exec (add 1) greenRenamed).2.store.pool.id 1 = none := by
  decide +kernel

end Session

end EntityStore
