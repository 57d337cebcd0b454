import EntityStore.Proofs.Cache.Shelves
import EntityStore.Proofs.Session.Refusal
import EntityStore.Proofs.Session.Sustaining

/-!
# Refused operations of a session

An addition, a removal and a replacement may be refused: for a key that is taken, for want of an id,
or because there is nothing to take out. An addition has entered the entity into its cache by the
time it draws an id, and takes it out again when there is none. Where nothing commits by itself **a
refused operation leaves everything as it was**: what the session shows and in which order, the
states of all entities, the changes it has to hand over, and the entity itself.
-/

namespace EntityStore.Session

variable {w w' : Work} {p : Pool} {σ : Session} {type : String} {hs : List Handle} {c : Cache}
  {h : Handle} {e : StoreError}

/-- What fails as a whole fails in its first step or after it. -/
theorem of_exec_bind_error {α β : Type} {m : SessionM α} {f : α → SessionM β} {fault : SessionFault}
    (hrun : exec (m >>= f) w = (.error fault, w')) :
    exec m w = (.error fault, w') ∨
      ∃ a w₁, exec m w = (.ok a, w₁) ∧ exec (f a) w₁ = (.error fault, w') := by
  rw [exec_bind] at hrun
  rcases hm : exec m w with ⟨e | a, w₁⟩
  · rw [hm] at hrun
    obtain ⟨hfault, rfl⟩ := Prod.mk.inj hrun
    exact .inl (by rw [Except.error.inj hfault])
  · rw [hm] at hrun
    exact .inr ⟨a, w₁, rfl, hrun⟩

theorem of_exec_bind_ok {α β : Type} {m : SessionM α} {f : α → SessionM β} {b : β}
    (hrun : exec (m >>= f) w = (.ok b, w')) :
    ∃ a w₁, exec m w = (.ok a, w₁) ∧ exec (f a) w₁ = (.ok b, w') := by
  rw [exec_bind] at hrun
  rcases hm : exec m w with ⟨e | a, w₁⟩
  · rw [hm] at hrun
    cases hrun
  · rw [hm] at hrun
    exact ⟨a, w₁, rfl, hrun⟩

/-! ## Steps that leave a session as it was -/

/-- What lived lives on as it was, and the session lists and tracks the same. -/
structure Quiet (w w' : Work) : Prop where
  pool : w.store.pool.Extends w'.store.pool
  ledger : w'.session.ledger = w.session.ledger
  listed : ∀ type, (w'.session.caches.find? type).map Cache.entities
    = (w.session.caches.find? type).map Cache.entities

theorem Quiet.refl (w : Work) : Quiet w w := ⟨.refl _, rfl, fun _ => rfl⟩

theorem Quiet.shown (h : Quiet w w') (hliving : w.session.Living w.store.pool) (type : String) :
    shown w' type = shown w type := by
  have hshown : ∀ v : Work, Session.shown v type =
      ((v.session.caches.find? type).map Cache.entities).map
        (List.map fun k => (k, v.store.pool.entity k)) := by
    intro v
    rw [Option.map_map]
    rfl
  rw [hshown, hshown, h.listed]
  cases hfind : w.session.caches.find? type with
  | none => rfl
  | some c =>
    refine congrArg some (List.map_congr_left fun k hk => ?_)
    rw [h.pool.kept k (hliving.listed c (Caches.mem_of_find? hfind) k hk)]

theorem Quiet.state? (h : Quiet w w') (hliving : w.session.Living w.store.pool)
    (hclosed : w.store.pool.Closed) (k : Handle) : state? k w' = state? k w := by
  rw [Session.state?, Session.state?, h.ledger]
  exact ledgerState_congr h.pool hclosed hliving.tracked k

theorem Quiet.changeset (h : Quiet w w') (hliving : w.session.Living w.store.pool)
    (hclosed : w.store.pool.Closed) : changeset w' = changeset w := by
  rw [Session.changeset, Session.changeset, h.ledger]
  exact changeset_congr h.pool hclosed hliving.tracked

/-- A session as `σ`, but for the cache of one type, which lists `hs`. Nothing that lived in `p` has
changed. -/
structure Lists (p : Pool) (σ : Session) (type : String) (hs : List Handle) (w : Work) : Prop where
  pool : p.Extends w.store.pool
  cache : ∃ c, w.session = { σ with caches := σ.caches.put c } ∧ c.type = type ∧ c.entities = hs

/-- Listing the same as before is a quiet change. -/
theorem Lists.quiet (hw : Lists w.store.pool w.session type c.entities w')
    (hfind : w.session.caches.find? type = some c) : Quiet w w' := by
  obtain ⟨d, hsession, htype, hlist⟩ := hw.cache
  refine ⟨hw.pool, by rw [hsession], fun t => ?_⟩
  rw [hsession, Caches.find?_put]
  split
  next heq => rw [← heq, htype, hfind, Option.map_some, Option.map_some, hlist]
  next => rfl

/-- An operation on the cache of the type. -/
theorem Lists.exec_onCache {α : Type} (hw : Lists p σ type hs w)
    (f : Pool → Cache → Except StoreError α × Cache) :
    ∃ c, c.type = type ∧ c.entities = hs ∧ exec (checkout type) w = (.ok c, w) ∧
      ∀ _ : (f w.store.pool c).2.type = type, ∃ w',
        exec (onCache type f) w = ((f w.store.pool c).1.mapError .store, w') ∧
          Lists p σ type (f w.store.pool c).2.entities w' := by
  obtain ⟨c, hsession, htype, hlist⟩ := hw.cache
  have hfind : w.session.caches.find? type = some c := by
    rw [hsession, Caches.find?_put_of_eq htype]
  refine ⟨c, htype, hlist, exec_checkout_of_some hfind, fun hkept => ?_⟩
  rw [Session.exec_onCache, exec_checkout_of_some hfind]
  refine ⟨_, rfl, hw.pool, (f w.store.pool c).2, ?_, hkept, rfl⟩
  simp only [hsession, Caches.put_put (htype.trans hkept.symm)]

/-- Drawing ids changes nothing that is listed. -/
theorem Lists.unusedId (hw : Lists p σ type hs w) (draws : Nat) :
    Lists p σ type hs (exec (unusedId type draws) w).2 := by
  -- each draw may load the type and refresh the index, neither of which is listed
  induction draws generalizing w with
  | zero => exact hw
  | succ draws ih =>
    have hdrawn : Lists p σ type hs (exec (ask (Store.newId type)) w).2 := by
      rw [exec_ask]
      exact ⟨hw.pool.trans (Store.extends_newId w.store type), hw.cache⟩
    unfold Session.unusedId
    rw [exec_bind]
    rcases hrun : exec (ask (Store.newId type)) w with ⟨e | id, w₁⟩
    · rw [hrun] at hdrawn
      exact hdrawn
    · rw [hrun] at hdrawn
      obtain ⟨c, htype, hlist, -, honCache⟩ := hdrawn.exec_onCache
        fun pool c => (.ok (c.getById pool id).1, (c.getById pool id).2)
      obtain ⟨w₂, hlookup, hlooked⟩ := honCache ((Cache.type_refresh _ _).trans htype)
      have hsame : (c.getById w₁.store.pool id).2.entities = hs :=
        (Cache.entities_refresh _ _).trans hlist
      rw [hsame] at hlooked
      simp only
      rw [exec_bind, show exec (lookup type id) w₁ = _ from hlookup]
      simp only [Except.mapError]
      cases (c.getById w₁.store.pool id).1 with
      | none => exact hlooked
      | some k => exact ih hlooked

/-- The last of a list is taken out again. -/
theorem Lists.withdraw (hw : Lists p σ type (hs ++ [h]) w) (hnew : h ∉ hs) :
    ∃ w', exec (withdraw type h) w = (.ok h, w') ∧ Lists p σ type hs w' := by
  obtain ⟨c, htype, hlist, -, honCache⟩ := hw.exec_onCache fun pool c => c.remove pool h
  have hmem : h ∈ c.entities := hlist ▸ List.mem_append_right _ (List.mem_singleton_self h)
  have hwithout : (c.without h).entities = hs := by
    show c.entities.erase h = hs
    rw [hlist, List.erase_append_right _ hnew, List.erase_cons_head, List.append_nil]
  rw [Cache.remove_of_counterpart (Pool.counterpart?_of_mem hmem), hwithout] at honCache
  exact honCache htype

/-- An entity that cannot be given an id is taken out of the list again. -/
theorem Lists.of_identify_refused (hw : Lists p σ type (hs ++ [h]) w) (hnew : h ∉ hs)
    {fault : SessionFault} (hrun : exec (identify type h) w = (.error fault, w')) :
    Lists p σ type hs w' := by
  obtain ⟨c, -, -, hcheckout, -⟩ :=
    hw.exec_onCache fun _ c => ((.ok (), c) : Except StoreError Unit × Cache)
  have hdraw := hw.unusedId (c.size + 1)
  unfold identify at hrun
  simp only [exec_bind, hcheckout, exec_tryCatch] at hrun
  rcases hdrawn : exec (Session.unusedId type (c.size + 1)) w with ⟨fault' | id, w₁⟩
  · rw [hdrawn] at hdraw hrun
    obtain ⟨w₂, hwithdraw, hlists⟩ := hdraw.withdraw hnew
    simp only [hwithdraw, exec_throw] at hrun
    exact (Prod.mk.inj hrun).2 ▸ hlists
  · -- an id that has been drawn is given, which nothing refuses
    rw [hdrawn] at hdraw hrun
    obtain ⟨d, hsession, htype, -⟩ := hdraw.cache
    simp only [exec_modify] at hrun
    rw [Session.exec_onCache, exec_checkout_of_some (c := d)] at hrun
    · cases hrun
    · show w₁.session.caches.find? type = some d
      rw [hsession, Caches.find?_put_of_eq htype]

/-- A ledger does not refuse, it is violated. -/
theorem not_refused_track (f : Pool → Ledger → Except Violation Ledger) :
    (exec (track f) w).1 ≠ .error (.store e) := by
  rw [exec_track]
  cases f w.store.pool w.session.ledger <;> exact fun h => nomatch h

theorem store_of_exec_track {f : Pool → Ledger → Except Violation Ledger}
    {outcome : Except SessionFault Unit} (hrun : exec (track f) w = (outcome, w')) :
    w'.store = w.store := by
  rw [exec_track] at hrun
  split at hrun <;> exact (Prod.mk.inj hrun).2 ▸ rfl

/-- Where nothing commits by itself, no commit is refused. -/
theorem not_refused_autocommit (hexplicit : w.store.repository.settings.autocommit = false) :
    (exec autocommit w).1 ≠ .error (.store e) := by
  rw [exec_autocommit_of_explicit hexplicit]
  exact fun h => nomatch h

theorem not_refused_succeed (old new : Handle) :
    (exec (succeed old new) w).1 ≠ .error (.store e) := by
  rw [exec_succeed]
  split <;> exact fun h => nomatch h

/-- Whichever way the ledger takes an entity up, nothing else is touched, and it does not refuse. -/
theorem exec_takeUp (revived : Bool) (h : Handle) (w : Work) :
    ∃ outcome ledger, exec (if revived then succeed h h else
        track fun pool l => l.registerNew pool h) w
          = (outcome, { w with session := { w.session with ledger } }) ∧
      ∀ e, outcome ≠ .error (.store e) := by
  cases revived with
  | true =>
    rw [if_pos rfl, exec_succeed]
    split
    · exact ⟨_, _, rfl, fun e he => nomatch he⟩
    · exact ⟨_, _, rfl, fun e he => nomatch he⟩
  | false =>
    rw [if_neg Bool.false_ne_true, exec_track]
    split
    · exact ⟨_, w.session.ledger, rfl, fun e he => nomatch he⟩
    · exact ⟨_, _, rfl, fun e he => nomatch he⟩

/-! ## Refused operations of a session -/

/-- It is only for want of an id that an entity is not settled. -/
theorem Lists.of_settle_refused {revived : Bool} (hw : Lists p σ type (hs ++ [h]) w) (hnew : h ∉ hs)
    (hrun : exec (settle type h revived) w = (.error (.store e), w')) : Lists p σ type hs w' := by
  have htaken : ∀ v, (exec (if revived then succeed h h else
      track fun pool l => l.registerNew pool h) v).1 ≠ .error (.store e) := by
    intro v
    obtain ⟨outcome, ledger, htaking, hnot⟩ := exec_takeUp revived h v
    rw [htaking]
    exact hnot e
  unfold settle at hrun
  rw [exec_bind, exec_get] at hrun
  simp only at hrun
  split at hrun
  · rcases of_exec_bind_error hrun with hidentify | ⟨_, w₁, -, htrack⟩
    · exact hw.of_identify_refused hnew hidentify
    · exact absurd (congrArg Prod.fst htrack) (htaken w₁)
  · exact absurd (congrArg Prod.fst hrun) (htaken w)

theorem keepsFields_of_exec_settle {revived : Bool}
    (hrun : exec (settle type h revived) w = (.ok (), w')) : w.store.KeepsFields w'.store := by
  have htaken : ∀ {v}, exec (if revived then succeed h h else
      track fun pool l => l.registerNew pool h) v = (.ok (), w') → w'.store = v.store := by
    intro v htaking
    obtain ⟨outcome, ledger, htaken, -⟩ := exec_takeUp revived h v
    rw [htaken] at htaking
    exact (Prod.mk.inj htaking).2 ▸ rfl
  unfold settle at hrun
  rw [exec_bind, exec_get] at hrun
  simp only at hrun
  split at hrun
  · obtain ⟨_, w₁, hidentify, htaking⟩ := of_exec_bind_ok hrun
    have hsustains : Sustains type h w w₁ := sustaining_identify type h _ _ _ hidentify
    rw [htaken htaking]
    exact hsustains.store
  · rw [htaken hrun]
    exact .refl _

/-- Whatever it enters, an addition that goes so far leaves the settings alone. -/
theorem keepsFields_of_exec_enter {any : Bool}
    (hfind : w.session.caches.find? (w.store.pool.typeName h) = some c)
    (hrun : exec (enter h) w = (.ok any, w')) : w.store.KeepsFields w'.store := by
  rw [exec_enter] at hrun
  simp only [exec_bind, exec_checkout_of_some hfind] at hrun
  split at hrun
  next => exact (Prod.mk.inj hrun).2 ▸ .refl _
  next =>
    obtain ⟨_, w₁, hinsert, hsettling⟩ := of_exec_bind_ok hrun
    obtain ⟨_, w₂, hsettle, hanswer⟩ := of_exec_bind_ok hsettling
    have hkeeps := keepsFields_of_exec_settle hsettle
    rw [exec_onCache, exec_checkout_of_some hfind] at hinsert
    obtain ⟨-, rfl⟩ := Prod.mk.inj hinsert
    obtain ⟨-, rfl⟩ := Prod.mk.inj hanswer
    exact hkeeps

/-- Entering an entity is refused for a key that is taken, or for want of an id. -/
theorem quiet_of_enter_refused (hfind : w.session.caches.find? (w.store.pool.typeName h) = some c)
    (hrun : exec (enter h) w = (.error (.store e), w')) : Quiet w w' := by
  have htype := Caches.type_of_find? hfind
  have hput : ∀ d : Cache, d.type = c.type → Lists w.store.pool w.session (w.store.pool.typeName h)
      d.entities { w with session := { w.session with caches := w.session.caches.put d } } :=
    fun d hd => ⟨.refl _, d, rfl, hd.trans htype, rfl⟩
  rw [exec_enter] at hrun
  simp only [exec_bind, exec_checkout_of_some hfind] at hrun
  split at hrun
  next => cases hrun
  next hcontains =>
    rw [exec_bind, exec_onCache, exec_checkout_of_some hfind] at hrun
    rcases Cache.add_cases w.store.pool h c with ⟨hmem, -⟩ | ⟨-, e', -, hadd⟩ | ⟨hnew, -, hadd⟩
    · exact absurd (List.contains_iff_mem.mpr hmem) hcontains
    · simp only [hadd, Except.mapError] at hrun
      have hlists := hput (c.refresh w.store.pool) (Cache.type_refresh _ c)
      rw [Cache.entities_refresh] at hlists
      exact (Prod.mk.inj hrun).2 ▸ hlists.quiet hfind
    · simp only [hadd, Except.mapError] at hrun
      have hlists := hput ((c.refresh w.store.pool).append w.store.pool h) (Cache.type_refresh _ c)
      rw [Cache.entities_append, Cache.entities_refresh] at hlists
      rcases of_exec_bind_error hrun with hsettle | ⟨_, w₁, -, hanswer⟩
      · exact (hlists.of_settle_refused hnew hsettle).quiet hfind
      · cases hanswer

/-- Putting an entity in the place of another is refused by the cache, if it is refused. -/
theorem quiet_of_replace_refused
    (hfind : w.session.caches.find? (w.store.pool.typeName h) = some c)
    (hrun : exec (replace h) w = (.error (.store e), w')) : Quiet w w' ∧ w'.store = w.store := by
  have htype := Caches.type_of_find? hfind
  rw [exec_replace] at hrun
  simp only [exec_bind, exec_onCache, exec_checkout_of_some hfind] at hrun
  rcases Cache.replace_outcomes w.store.pool h c with ⟨e', hreplace⟩ | ⟨old, -, -, -, -, -, hreplace⟩
  · rw [hreplace] at hrun
    obtain ⟨-, rfl⟩ := Prod.mk.inj hrun
    refine ⟨Lists.quiet ⟨.refl _, c.refresh w.store.pool, rfl, ?_, ?_⟩ hfind, rfl⟩
    · exact (Cache.type_refresh _ c).trans htype
    · exact Cache.entities_refresh _ c
  · rw [hreplace] at hrun
    exact absurd (congrArg Prod.fst hrun) (not_refused_succeed _ _)

/-- Removing an entity is refused only where it is not listed. -/
theorem of_remove_refused (hexplicit : w.store.repository.settings.autocommit = false)
    (hfind : w.session.caches.find? (w.store.pool.typeName h) = some c)
    (hrun : exec (remove h) w = (.error (.store e), w')) :
    e = .notFound c.type (w.store.pool.id h) ∧ Quiet w w' := by
  unfold remove withdraw at hrun
  simp only [exec_bind, exec_get, exec_onCache, exec_checkout_of_some hfind] at hrun
  cases hgone : w.store.pool.counterpart? h c.entities with
  | none =>
    rw [Cache.remove_of_none hgone] at hrun
    obtain ⟨hfault, rfl⟩ := Prod.mk.inj hrun
    exact ⟨(SessionFault.store.inj (Except.error.inj hfault)).symm,
      Lists.quiet ⟨.refl _, c, rfl, Caches.type_of_find? hfind, rfl⟩ hfind⟩
  | some gone =>
    rw [Cache.remove_of_counterpart hgone] at hrun
    simp only [Except.mapError] at hrun
    split at hrun
    · rcases of_exec_bind_error hrun with hmark | ⟨_, w₁, hmark, hcommit⟩
      · exact absurd (congrArg Prod.fst hmark) (not_refused_track _)
      · refine absurd (congrArg Prod.fst hcommit) (not_refused_autocommit ?_)
        rw [store_of_exec_track hmark]
        exact hexplicit
    · exact absurd (congrArg Prod.fst hrun) (not_refused_autocommit hexplicit)

/-- Adding an entity, whether the session has removed it before or not. -/
theorem quiet_of_add_refused (hexplicit : w.store.repository.settings.autocommit = false)
    (hfind : w.session.caches.find? (w.store.pool.typeName h) = some c)
    (hrun : exec (add h) w = (.error (.store e), w')) : Quiet w w' := by
  rw [add_eq] at hrun
  rcases of_exec_bind_error hrun with henter | ⟨any, w₁, henter, hcommit⟩
  · exact quiet_of_enter_refused hfind henter
  · -- what has been entered is not refused, as nothing is committed
    have hexplicit₁ : w₁.store.repository.settings.autocommit = false :=
      (congrArg Settings.autocommit (keepsFields_of_exec_enter hfind henter).settings).trans hexplicit
    split at hcommit
    · exact absurd (congrArg Prod.fst hcommit) (not_refused_autocommit hexplicit₁)
    · cases hcommit

/-- **A refused operation leaves everything as it was**, where the type is checked out and nothing
commits by itself: what the session shows of every type and in which order, with all ids and fields,
the states of all entities, the changes that a commit would hand over, and whatever lives, the
entity that the operation was about among it. Nothing listed, tracked or referred to is taken to
dangle. -/
theorem unchanged_of_refused {call : Call} (hcall : call ∈ [.add h, .remove h, .replace h])
    (hexplicit : w.store.repository.settings.autocommit = false)
    (hcheckedOut : w.session.caches.find? (w.store.pool.typeName h) ≠ none)
    (hliving : w.session.Living w.store.pool) (hclosed : w.store.pool.Closed)
    (hrun : exec call.run w = (.error (.store e), w')) :
    (∀ type, shown w' type = shown w type) ∧ (∀ k, state? k w' = state? k w) ∧
      changeset w' = changeset w ∧
      ∀ k < w.store.pool.next, w'.store.pool.entity k = w.store.pool.entity k := by
  obtain ⟨c, hfind⟩ := Option.ne_none_iff_exists'.mp hcheckedOut
  have hquiet : Quiet w w' := by
    simp only [List.mem_cons, List.not_mem_nil, or_false] at hcall
    rcases hcall with rfl | rfl | rfl
    · exact quiet_of_add_refused hexplicit hfind hrun
    · exact (of_remove_refused hexplicit hfind hrun).2
    · exact (quiet_of_replace_refused hfind hrun).1
  exact ⟨hquiet.shown hliving, hquiet.state? hliving hclosed, hquiet.changeset hliving hclosed,
    hquiet.pool.kept⟩

open Samples

/-- A grey tag has been committed under the last id there is. Since then the session has removed the
red tag, and there is a green one that has no id. -/
def lastIdTaken : Work :=
  (exec (do
    locked (Session.add 0)
    locked Session.commit
    let _ ← locked (Session.all "tag")
    locked (Session.remove 7))
    ⟨redAndBlue [tagNamed (some EntityId.last) "grey", tagNamed none "green"], .fresh⟩).2

theorem living_lastIdTaken : lastIdTaken.session.Living lastIdTaken.store.pool :=
  ⟨by decide +kernel, by decide +kernel⟩

theorem closed_lastIdTaken : lastIdTaken.store.pool.Closed := by
  have hall : ∀ h < lastIdTaken.store.pool.next,
      (lastIdTaken.store.pool.entity h).RefersBelow lastIdTaken.store.pool.next := by
    decide +kernel
  exact hall

/-- There is no id for the green tag, which stays without one; the removal of the red one stays to be
committed, and nothing else is. -/
theorem unchanged_of_refused_last_id :
    ∃ w', exec (Session.add 1) lastIdTaken = (.error (.store (.idsExhausted "tag")), w') ∧
      shown w' "tag" = shown lastIdTaken "tag" ∧ state? 1 w' = none ∧
      changeset w' = [⟨.remove, 7⟩] ∧ w'.store.pool.id 1 = none := by
  have hrefused : (exec (Session.add 1) lastIdTaken).1 = .error (.store (.idsExhausted "tag")) := by
    decide +kernel
  rcases hrun : exec (Session.add 1) lastIdTaken with ⟨outcome, w'⟩
  rw [hrun] at hrefused
  obtain rfl : outcome = .error (.store (.idsExhausted "tag")) := hrefused
  have hcall : exec (Call.add 1).run lastIdTaken
      = (.error (.store (.idsExhausted "tag")), w') := hrun
  obtain ⟨hshown, hstates, hchanges, hkept⟩ := unchanged_of_refused List.mem_cons_self
    (by decide +kernel) (by decide +kernel) living_lastIdTaken closed_lastIdTaken hcall
  have hstate : state? 1 lastIdTaken = none := by decide +kernel
  have hpending : changeset lastIdTaken = [⟨.remove, 7⟩] := by decide +kernel
  have hgreen : lastIdTaken.store.pool.id 1 = none := by decide +kernel
  have hsame := hkept 1 (by decide +kernel)
  exact ⟨w', rfl, hshown "tag", (hstates 1).trans hstate, hchanges.trans hpending,
    (congrArg Entity.id hsame).trans hgreen⟩

end EntityStore.Session
