import EntityStore.Proofs.Repository.Upkeep
import EntityStore.Proofs.Session.Steps

/-!
# Giving an entity an id

An entity that has been entered into the cache of its type and has no id is given one. Ids are drawn
until one is not taken in the cache; where none can be drawn the entity is taken out again. All the
while the session has one entity more in one cache, and is what it was otherwise. What is known of
the store stays known, if it outlasts the drawing of ids and their being given.
-/

namespace EntityStore

theorem Caches.put_put {cs : Caches} {c c' : Cache} (htype : c.type = c'.type) :
    (cs.put c).put c' = cs.put c' := by
  induction cs with
  | nil => simp [put, htype]
  | cons d rest ih =>
    by_cases hd : d.type = c.type
    · rw [put, if_pos hd, put, if_pos htype, put, if_pos (hd.trans htype)]
    · rw [put, if_neg hd, put, put, if_neg (htype ▸ hd), if_neg (htype ▸ hd), ih]

namespace Session

variable {R : Store → Prop} {σ : Session} {w : Work} {type : String} {c : Cache} {h : Handle}

/-- What is known of a store after an id has been drawn, and after an entity that had none has been
given one, if it was known before. -/
structure Enduring (R : Store → Prop) : Prop where
  newId : ∀ {s} type, R s → R (exec (Store.newId type) s).2
  setId : ∀ {s h}, R s → s.pool.id h = none → ∀ id,
    R { s with pool := s.pool.edit h fun e => e.setId (some id) }

/-- A session that has entered an entity into the cache of a type, and is `σ` otherwise. -/
structure Entered (R : Store → Prop) (σ : Session) (c : Cache) (h : Handle) (w : Work) : Prop where
  store : R w.store
  cache : ∃ c', w.session = { σ with caches := σ.caches.put c' } ∧
    c'.type = c.type ∧ c'.entities = c.entities ++ [h] ∧ c'.Keyed w.store.pool

/-- **Entering an entity that is not listed** into the cache of its type, which is refused where a key
of it is taken. -/
theorem exec_insert (hR : R w.store) (hfind : w.session.caches.find? type = some c)
    (hkeyed : c.Keyed w.store.pool) (hlive : h < w.store.pool.next)
    (htyped : w.store.pool.typeName h = type) (hmem : h ∉ c.entities) :
    (∃ e, exec (onCache type fun pool c => c.add pool h) w = (.error (.store e), { w with session :=
        { w.session with caches := w.session.caches.put (c.refresh w.store.pool) } })) ∨
      ∃ w', exec (onCache type fun pool c => c.add pool h) w = (.ok (), w') ∧
        w'.store = w.store ∧ Entered R w.session c h w' := by
  have hrun := exec_onCache type (fun pool c => c.add pool h) w
  rw [exec_checkout_of_some hfind] at hrun
  rcases Cache.add_cases w.store.pool h c with
    ⟨hlisted, -⟩ | ⟨-, e, -, hadd⟩ | ⟨-, hconflict, hadd⟩
  · exact absurd hlisted hmem
  · simp only [hadd, Except.mapError] at hrun
    exact .inl ⟨e, hrun⟩
  · have happend : ((c.refresh w.store.pool).append w.store.pool h).Keyed w.store.pool := by
      refine hkeyed.refresh.append hlive ?_ ?_ ?_
      · rw [htyped, Cache.type_refresh]
        exact (Caches.type_of_find? hfind).symm
      · rw [Cache.entities_refresh]
        exact hmem
      · rw [Cache.entities_refresh]
        exact hkeyed.not_mem_ids hconflict
    have hlist : ((c.refresh w.store.pool).append w.store.pool h).entities = c.entities ++ [h] := by
      rw [Cache.entities_append, Cache.entities_refresh]
    simp only [hadd, Except.mapError] at hrun
    exact .inr ⟨_, hrun, rfl, hR, _, rfl, Cache.type_refresh w.store.pool c, hlist, happend⟩

/-- Drawing an id. -/
theorem Entered.newId (hw : Entered R σ c h w) (hR : Enduring R) (type : String) :
    Entered R σ c h (exec (ask (Store.newId type)) w).2 := by
  rw [exec_ask]
  obtain ⟨c', hsession, htype, hlist, hkeyed⟩ := hw.cache
  exact ⟨hR.newId type hw.store, c', hsession, htype, hlist,
    hkeyed.extends (Store.extends_newId w.store type)⟩

/-- The cache of the entity. -/
theorem Entered.exec_onCache {α : Type} (hw : Entered R σ c h w) (hc : c.type = type)
    (f : Pool → Cache → Except StoreError α × Cache) :
    ∃ c', c'.type = c.type ∧ c'.entities = c.entities ++ [h] ∧ c'.Keyed w.store.pool ∧
      exec (checkout type) w = (.ok c', w) ∧
      ∀ _ : (f w.store.pool c').2.type = c.type, exec (onCache type f) w
        = ((f w.store.pool c').1.mapError .store,
          { w with session := { σ with caches := σ.caches.put (f w.store.pool c').2 } }) := by
  obtain ⟨c', hsession, htype, hlist, hkeyed⟩ := hw.cache
  have hfind : w.session.caches.find? type = some c' := by
    rw [hsession, Caches.find?_put_of_eq (htype.trans hc)]
  refine ⟨c', htype, hlist, hkeyed, exec_checkout_of_some hfind, fun hf => ?_⟩
  rw [Session.exec_onCache, exec_checkout_of_some hfind]
  simp only [hsession, Caches.put_put (htype.trans hf.symm)]

/-- Drawing ids until one is free, which changes no entity. -/
theorem Entered.unusedId (hw : Entered R σ c h w) (hR : Enduring R) (hc : c.type = type)
    (draws : Nat) :
    Entered R σ c h (exec (unusedId type draws) w).2 ∧
      w.store.pool.Extends (exec (unusedId type draws) w).2.store.pool ∧
      match (exec (unusedId type draws) w).1 with
      | .ok id => id ∉ ((exec (unusedId type draws) w).2.store.pool.roster (c.entities ++ [h])).ids
      | .error fault => ∃ e, fault = .store e := by
  induction draws generalizing w with
  | zero => exact ⟨hw, .refl _, _, rfl⟩
  | succ draws ih =>
    have hw' := hw.newId hR type
    unfold Session.unusedId
    rw [exec_bind]
    have hask := exec_ask (Store.newId type) w
    have hextends := Store.extends_newId w.store type
    rw [show (exec (Store.newId type) w.store).2 = (exec (ask (Store.newId type)) w).2.store by
      rw [hask]] at hextends
    rcases hrun : exec (ask (Store.newId type)) w with ⟨e | id, w'⟩
    · rw [hrun] at hw' hask hextends
      refine ⟨hw', hextends, ?_⟩
      have houtcome := congrArg Prod.fst hask
      cases hnew : (exec (Store.newId type) w.store).1 with
      | error e' =>
        rw [hnew] at houtcome
        exact ⟨e', Except.error.inj houtcome⟩
      | ok id =>
        rw [hnew] at houtcome
        cases houtcome
    · rw [hrun] at hw' hextends
      obtain ⟨c', htype, hlist, hkeyed, -, honCache⟩ := hw'.exec_onCache hc
        fun pool c => (.ok (c.getById pool id).1, (c.getById pool id).2)
      have hlookup := honCache ((Cache.type_refresh _ _).trans htype)
      have hfound := (hkeyed.getById id).1
      have hw'' : Entered R σ c h { w' with session :=
          { σ with caches := σ.caches.put (c'.refresh w'.store.pool) } } :=
        ⟨hw'.store, _, rfl, (Cache.type_refresh _ _).trans htype,
          (Cache.entities_refresh _ _).trans hlist, hkeyed.refresh⟩
      simp only
      rw [exec_bind, show exec (lookup type id) w' = _ from hlookup]
      simp only [Except.mapError, hfound, hlist]
      -- an id that is taken in the cache has been drawn for nothing, and the next one is tried
      cases hholder : w'.store.pool.holder? id (c.entities ++ [h]) with
      | none =>
        refine ⟨hw'', hextends, ?_⟩
        intro hmem
        obtain ⟨k, hk, hid⟩ := Pool.mem_ids_roster.mp hmem
        exact Pool.holder?_eq_none.mp hholder k hk hid
      | some k =>
        obtain ⟨hlast, hextends', houtcome⟩ := ih hw''
        exact ⟨hlast, hextends.trans hextends', houtcome⟩

/-- Giving the last entity of a list an id that none of the list holds. -/
theorem keyed_setId {p : Pool} {c' : Cache} (hc : c'.Keyed p) {es : List Handle}
    (hlist : c'.entities = es ++ [h]) (hid : p.id h = none) {id : EntityId}
    (hfree : id ∉ (p.roster (es ++ [h])).ids) :
    c'.invalidate.Keyed (p.edit h fun e => e.setId (some id)) where
  live := hc.live
  typed := fun k hk => ((Pool.grows_setId hid id).typeName (hc.live k hk)).trans (hc.typed k hk)
  nodup := hc.nodup
  ids := by
    have hnodup := hc.nodup
    have hids := hc.ids
    rw [hlist, List.nodup_append] at hnodup
    have hnot : h ∉ es := fun hmem => hnodup.2.2 h hmem h (List.mem_singleton_self h) rfl
    rw [hlist, Pool.roster_append, Roster.ids_append, List.nodup_append] at hids
    rw [Pool.roster_append, Roster.ids_append, List.mem_append] at hfree
    have hnew : Roster.ids (Pool.roster (p.edit h fun e => e.setId (some id)) [h]) = [id] := by
      rw [Pool.roster_cons, Roster.ids_cons, Pool.entity_edit_self]
      rfl
    show (Pool.roster _ c'.entities).ids.Nodup
    rw [hlist, Pool.roster_append, Roster.ids_append, Cache.roster_edit hnot, hnew,
      List.nodup_append]
    refine ⟨hids.1, List.nodup_singleton id, ?_⟩
    intro i hi j hj heq
    rw [List.mem_singleton.mp hj] at heq
    exact hfree (.inl (heq ▸ hi))
  byId := .inl rfl

/-- **Giving an entity an id**, or taking it out again. -/
theorem Entered.identify (hw : Entered R σ c h w) (hR : Enduring R) (hc : c.type = type)
    (hid : w.store.pool.id h = none) :
    match exec (identify type h) w with
    | (.ok _, w') => Entered R σ c h w' ∧ w'.store.pool.id h ≠ none
    | (.error fault, w') => (∃ e, fault = .store e) ∧ R w'.store ∧
        ∃ c', w'.session = { σ with caches := σ.caches.put c' } ∧
          c'.type = c.type ∧ c'.entities = c.entities ∧ c'.Keyed w'.store.pool := by
  obtain ⟨c₀, htype₀, hlist₀, hkeyed₀, hcheckout₀, -⟩ :=
    hw.exec_onCache hc fun _ c => ((.ok (), c) : Except StoreError Unit × Cache)
  have hlive : h < w.store.pool.next := hkeyed₀.live h (by simp [hlist₀])
  have hdraw := hw.unusedId hR hc (c₀.size + 1)
  unfold Session.identify
  simp only [exec_bind, hcheckout₀, exec_tryCatch]
  rcases hrun : exec (Session.unusedId type (c₀.size + 1)) w with ⟨fault | id, w'⟩
  · rw [hrun] at hdraw
    obtain ⟨hw', hextends, e, rfl⟩ := hdraw
    have hid' : w'.store.pool.id h = none := (hextends.id hlive).trans hid
    obtain ⟨c', htype, hlist, hkeyed, -, honCache⟩ :=
      hw'.exec_onCache hc fun pool c => c.remove pool h
    have hmem : h ∈ c'.entities := by simp [hlist]
    rcases Cache.remove_cases w'.store.pool h c' with ⟨habsent, -⟩ | ⟨gone, hgone, hsame, hremove⟩
    · exact absurd rfl (habsent h hmem).1
    · obtain rfl : gone = h := by
        rcases hsame with heq | ⟨id, hsome, -⟩
        · exact heq
        · rw [hid'] at hsome
          cases hsome
      have hnodup := hkeyed.nodup
      rw [hlist, List.nodup_append] at hnodup
      have hnot : gone ∉ c.entities :=
        fun hmem => hnodup.2.2 gone hmem gone (List.mem_singleton_self gone) rfl
      have hwithout : (c'.without gone).entities = c.entities := by
        show c'.entities.erase gone = c.entities
        rw [hlist, List.erase_append_right _ hnot, List.erase_cons_head, List.append_nil]
      have hgo := honCache (by rw [hremove]; exact htype)
      rw [hremove] at hgo
      simp only [withdraw, hgo, Except.mapError, exec_throw]
      exact ⟨⟨e, rfl⟩, hw'.store, c'.without gone, rfl, htype, hwithout, hkeyed.without gone hgone⟩
  · rw [hrun] at hdraw
    obtain ⟨hw', hextends, hfree⟩ := hdraw
    have hid' : w'.store.pool.id h = none := (hextends.id hlive).trans hid
    obtain ⟨c', hsession, htype, hlist, hkeyed⟩ := hw'.cache
    have hinvalid : c'.invalidate.type = c.type := htype
    have hfind : ∀ s : Store, (⟨s, w'.session⟩ : Work).session.caches.find? type = some c' := by
      intro s
      rw [hsession, Caches.find?_put_of_eq (htype.trans hc)]
    simp only [exec_modify]
    rw [Session.exec_onCache, exec_checkout_of_some (hfind _)]
    refine ⟨⟨hR.setId hw'.store hid' id, c'.invalidate, ?_, hinvalid, hlist, ?_⟩, ?_⟩
    · rw [show w'.session = { σ with caches := σ.caches.put c' } from hsession]
      simp only [Caches.put_put (htype.trans hinvalid.symm)]
    · exact keyed_setId hkeyed hlist hid' hfree
    · rw [Pool.id, Pool.entity_edit_self]
      exact Option.some_ne_none id

end Session

end EntityStore
