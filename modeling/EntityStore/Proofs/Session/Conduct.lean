import EntityStore.Proofs.Session.Coherence
import EntityStore.Proofs.Session.Worlds

/-!
# The conduct of a session

What comes of a call on a coherent session. Whatever it is, the store makes progress, and unless the
call violates the contract of the ledger the session stays coherent. Checking a type out, reading,
removing and committing never violate the contract. An addition does so only about an entity that is
tracked and neither listed nor removed. A replacement does so when it brings back an entity that the
session has removed, in the place of another: the entity's entry is still there, under the state it
was removed in, and is not looked at.
-/

namespace EntityStore.Session

variable {known : Handle → Prop} {bad bad' : Prop} {w w' : Work} {type : String} {c : Cache}
  {h old : Handle} {α β : Type}

/-- A step violates the contract of the ledger. -/
def Faults (m : SessionM α) (w : Work) : Prop := ∃ v, (exec m w).1 = .error (.violation v)

/-- What comes of a step of a coherent session, which violates the contract of the ledger at most in
a case that is `bad`. -/
structure Conducts (known : Handle → Prop) (bad : Prop) (w : Work) (m : SessionM α) : Prop where
  progress : Store.Progress w.store (exec m w).2.store
  coherent : Faults m w ∨ Coherent known (exec m w).2
  fault : Faults m w → bad

theorem Conducts.imp {m : SessionM α} (hm : Conducts known bad w m) (h : bad → bad') :
    Conducts known bad' w m :=
  ⟨hm.progress, hm.coherent, fun hfault => h (hm.fault hfault)⟩

/-- A step that gives an answer does not violate the contract. -/
theorem Conducts.coherent_of_ok {m : SessionM α} (hm : Conducts known bad w m) {a : α}
    (hrun : exec m w = (.ok a, w')) : Coherent known w' := by
  have hcoherent := hm.coherent
  rw [hrun] at hcoherent
  refine hcoherent.resolve_left fun ⟨v, hv⟩ => ?_
  rw [hrun] at hv
  cases hv

/-- A step of which it is known what it gives and leaves. -/
theorem conducts_of_run {m : SessionM α} {outcome : Except SessionFault α}
    (hrun : exec m w = (outcome, w')) (hw' : Coherent known w')
    (hprogress : Store.Progress w.store w'.store) (hlawful : ∀ v, outcome ≠ .error (.violation v)) :
    Conducts known bad w m where
  progress := hrun ▸ hprogress
  coherent := .inr (hrun ▸ hw')
  fault := by
    intro ⟨v, hv⟩
    rw [hrun] at hv
    exact absurd hv (hlawful v)

theorem conducts_of_refused {m : SessionM α} (e : StoreError)
    (hrun : exec m w = (.error (.store e), w')) (hw' : Coherent known w')
    (hprogress : Store.Progress w.store w'.store) : Conducts known bad w m :=
  conducts_of_run hrun hw' hprogress nofun

theorem conducts_of_answer {m : SessionM α} (a : α) (hrun : exec m w = (.ok a, w'))
    (hw' : Coherent known w') (hprogress : Store.Progress w.store w'.store) :
    Conducts known bad w m :=
  conducts_of_run hrun hw' hprogress nofun

theorem conducts_pure (hw : Coherent known w) (a : α) :
    Conducts known bad w (pure a : SessionM α) :=
  conducts_of_answer a (exec_pure w a) hw (.refl _)

/-- A step that goes on as another one, once the store has made progress. -/
theorem Conducts.of_exec {m m' : SessionM α} (hexec : exec m w = exec m' w')
    (hm : Conducts known bad w' m') (hprogress : Store.Progress w.store w'.store) :
    Conducts known bad w m := by
  obtain ⟨hprogress', hcoherent, hfault⟩ := hm
  unfold Faults at hcoherent hfault
  rw [← hexec] at hprogress' hcoherent hfault
  exact ⟨hprogress.trans hprogress', hcoherent, hfault⟩

/-- One step after another. -/
theorem Conducts.bind {m : SessionM α} {f : α → SessionM β} (hm : Conducts known bad w m)
    (hf : ∀ a w', exec m w = (.ok a, w') → Coherent known w' → Conducts known bad w' (f a)) :
    Conducts known bad w (m >>= f) := by
  cases hrun : exec m w with
  | mk outcome w' =>
    cases outcome with
    -- the first step fails, and that is all
    | error fault =>
      have hbind : exec (m >>= f) w = (.error fault, w') := by rw [exec_bind, hrun]
      have hfaults : Faults (m >>= f) w ↔ Faults m w := by
        rw [Faults, Faults, hbind, hrun]
        exact ⟨fun ⟨v, hv⟩ => ⟨v, congrArg Except.error (Except.error.inj hv)⟩,
          fun ⟨v, hv⟩ => ⟨v, congrArg Except.error (Except.error.inj hv)⟩⟩
      obtain ⟨hprogress, hcoherent, hfault⟩ := hm
      rw [hrun] at hprogress hcoherent
      rw [← hfaults] at hcoherent
      exact ⟨hbind ▸ hprogress, hbind ▸ hcoherent, fun h => hfault (hfaults.mp h)⟩
    | ok a =>
      have hbind : exec (m >>= f) w = exec (f a) w' := by rw [exec_bind, hrun]
      have hprogress := hm.progress
      obtain ⟨hprogress', hcoherent, hfault⟩ := hf a w' hrun (hm.coherent_of_ok hrun)
      rw [hrun] at hprogress
      refine ⟨hbind ▸ hprogress.trans hprogress', ?_, ?_⟩
      · rw [Faults, hbind]
        exact hcoherent
      · rw [Faults, hbind]
        exact hfault

/-- A step that every coherent session may make. -/
def Harmless (m : SessionM α) : Prop :=
  ∀ known bad w, Coherent known w → Conducts known bad w m

theorem Harmless.bind {m : SessionM α} {f : α → SessionM β} (hm : Harmless m)
    (hf : ∀ a, Harmless (f a)) : Harmless (m >>= f) :=
  fun known bad w hw => (hm known bad w hw).bind fun a w' _ hw' => hf a known bad w' hw'

theorem harmless_pure (a : α) : Harmless (pure a : SessionM α) :=
  fun _ _ _ hw => conducts_pure hw a

theorem harmless_get : Harmless (get : SessionM Work) :=
  fun _ _ w hw => conducts_of_answer w rfl hw (.refl _)

/-! ## Checking out -/

/-- Entities that a checkout leaves behind are known to nobody, since no checkout of a store that is
tidy leaves any. -/
theorem Coherent.unknown_of_repeated (hw : Coherent known w) {committed : Cache}
    (hfound : w.store.repository.caches.find? type = some committed) {entries : Ledger}
    {out : List Handle × Pool × Ledger}
    (hout : Ledger.Enrolls w.store.pool w.session.ledger committed.entities out entries) {e : StoreError}
    (hrepeated : Cache.repeatedKey? out.2.1 type [] [] out.1 = some e) :
    ∀ e ∈ entries, ¬ known e.entity := by
  intro e he hknown
  rcases hw.calm with hlive | htidy
  · exact absurd (hlive _ hknown) (Nat.not_lt.mpr (hout.fresh e he).1)
  · have hunique := htidy.uniqueKeys hfound
    rw [← hout.roster] at hunique
    rw [Cache.repeatedKey?_eq_none.mpr ⟨hunique, by simp, by simp⟩] at hrepeated
    cases hrepeated

/-- Registering copies of what is committed, of a type that is not checked out, and making a cache of
them, which may fail. -/
theorem Coherent.register (hw : Coherent known w) (hfind : w.session.caches.find? type = none)
    {committed : Cache} (hfound : w.store.repository.caches.find? type = some committed)
    {copies : List Handle} {pool : Pool} {ledger : Ledger}
    (hrun : w.session.ledger.registerAllClean w.store.pool committed.entities = (copies, pool, ledger)) :
    Store.Progress w.store { w.store with pool } ∧
      (∀ e ∈ ledger, e.entity < w.store.pool.next → e ∈ w.session.ledger) ∧
      match Cache.ofEntities pool type copies with
      | .error _ => Coherent known ⟨{ w.store with pool }, { w.session with ledger }⟩
      | .ok c => c.type = type ∧ Coherent known
          ⟨{ w.store with pool }, { w.session with ledger, caches := w.session.caches.put c }⟩ := by
  obtain ⟨entries, hout⟩ := Ledger.registerAllClean_enrolls (l := w.session.ledger)
    (hw.store.keyed hfound).live
  rw [hrun] at hout
  obtain rfl : ledger = w.session.ledger ++ entries := hout.ledger
  have hprogress : Store.Progress w.store { w.store with pool } :=
    Store.progress_of_pool hout.pool.grows fun hP _ hp => hout.holds hP hp
  have hafter : Coherent known ⟨{ w.store with pool }, w.session⟩ := hw.progress hprogress
  have htyped : ∀ k ∈ committed.entities, w.store.pool.typeName k = type := fun k hk =>
    ((hw.store.keyed hfound).typed k hk).trans (Caches.type_of_find? hfound)
  have hformed := hout.formed (hw.store.numbered hfound)
  have hother : ∀ e ∈ entries, ∀ d ∈ w.session.ledger, d.entity ≠ e.entity :=
    fun e he d hd => hout.other (hw.ledger.live d hd).1 he
  have hclean := fun e he => (hout.clean e he).1
  refine ⟨hprogress, fun e he hlive => ?_, ?_⟩
  · refine (List.mem_append.mp he).resolve_right fun he => ?_
    exact absurd hlive (Nat.not_lt.mpr (hout.fresh e he).1)
  · have hspec := Cache.ofEntities_spec pool type copies
    cases hof : Cache.ofEntities pool type copies with
    -- two copies share a key: they are left behind, tracked and not listed
    | error e =>
      rw [hof] at hspec
      exact hafter.enroll w.session.caches hformed hother hclean .inl id fun e he hknown =>
        absurd hknown (hw.unknown_of_repeated hfound hout hspec e he)
    | ok c =>
      obtain ⟨htype, hlist, hkeyed⟩ := hout.keyed htyped hof
      refine ⟨htype, hafter.enroll _ hformed hother hclean ?_ ?_ ?_⟩
      · intro t d hd
        rcases Caches.find?_put_eq_some.mp hd with ⟨-, rfl⟩ | ⟨-, hd⟩
        · exact .inr ⟨hkeyed, hlist⟩
        · exact .inl hd
      · intro t d hd
        rw [Caches.find?_put_of_ne ?_]
        · exact hd
        · rintro rfl
          rw [htype, hfind] at hd
          cases hd
      · intro e he _
        refine ⟨c, ?_, hlist ▸ List.mem_map_of_mem he⟩
        rw [show Pool.typeName pool e.entity = c.type from (hout.typeName htyped he).trans htype.symm]
        exact Caches.find?_put_self _ c

/-- **Checking out a type.** What lived before is tracked as it was before. -/
theorem checkout_conducts (bad : Prop) (hw : Coherent known w) (type : String) :
    Conducts known bad w (checkout type) ∧
      ∀ c w', exec (checkout type) w = (.ok c, w') →
        w'.session.caches.find? type = some c ∧
          ∀ e ∈ w'.session.ledger, e.entity < w.store.pool.next → e ∈ w.session.ledger := by
  cases hfind : w.session.caches.find? type with
  | some c =>
    have hrun := exec_checkout_of_some hfind
    refine ⟨conducts_of_answer c hrun hw (.refl _), ?_⟩
    intro d w' hd
    obtain ⟨hcd, rfl⟩ := Prod.mk.inj (hrun.symm.trans hd)
    obtain rfl := Except.ok.inj hcd
    exact ⟨hfind, fun e he _ => he⟩
  | none =>
    obtain ⟨hprogress, hfound⟩ := hw.store.checkout type
    have hrun := exec_checkout_of_none hfind
    rw [Store.exec_load] at hrun
    rcases hload : exec (Store.checkout type) w.store with ⟨e | committed, s⟩
    · rw [hload] at hrun hprogress
      refine ⟨conducts_of_refused e hrun (hw.progress hprogress) hprogress, ?_⟩
      intro d w' hd
      cases hrun.symm.trans hd
    · rw [hload] at hrun hprogress hfound
      rcases hregister : w.session.ledger.registerAllClean s.pool committed.entities with
        ⟨copies, pool, ledger⟩
      have hloaded : Coherent known { w with store := s } := hw.progress hprogress
      obtain ⟨hcopies, hbefore, hout⟩ := hloaded.register hfind (hfound committed rfl) hregister
      have hpool := hprogress.trans hcopies
      simp only [Except.map, hregister] at hrun
      cases hof : Cache.ofEntities pool type copies with
      | error e =>
        rw [hof] at hrun hout
        refine ⟨conducts_of_refused e hrun hout hpool, ?_⟩
        intro d w' hd
        cases hrun.symm.trans hd
      | ok c =>
        rw [hof] at hrun hout
        obtain ⟨htype, hopened⟩ := hout
        refine ⟨conducts_of_answer c hrun hopened hpool, ?_⟩
        intro d w' hd
        obtain ⟨hcd, rfl⟩ := Prod.mk.inj (hrun.symm.trans hd)
        obtain rfl := Except.ok.inj hcd
        refine ⟨?_, fun e he hlive => hbefore e he (Nat.lt_of_lt_of_le hlive hprogress.pool.next_le)⟩
        exact Caches.find?_put_of_eq htype

/-! ## Reading -/

theorem harmless_checkout (type : String) : Harmless (checkout type) :=
  fun _ bad _ hw => (checkout_conducts bad hw type).1

theorem harmless_onCache (type : String) {f : Pool → Cache → Except StoreError α × Cache}
    (hf : Relisting f) : Harmless (onCache type f) := by
  intro known bad w hw
  unfold onCache
  refine (checkout_conducts bad hw type).1.bind fun c w' hrun hw' => ?_
  obtain ⟨hfind, -⟩ := (checkout_conducts bad hw type).2 c w' hrun
  obtain ⟨hkeyed, htype, hlist⟩ := hf (hw'.keyed hfind)
  have hput := hw'.put hfind htype hlist hkeyed
  have hlawful : ∀ v, (f w'.store.pool c).1.mapError SessionFault.store ≠ .error (.violation v) := by
    cases (f w'.store.pool c).1 <;> exact nofun
  refine conducts_of_run ?_ hput (.refl _) hlawful
  simp only [exec_bind, exec_get, exec_set, exec_ofExcept]

theorem harmless_readThrough (type : String) : Harmless (readThrough type) := by
  refine harmless_get.bind fun w => ?_
  split
  · exact harmless_onCache type relisting_rebuild
  · exact harmless_pure _

theorem harmless_getById (type : String) (id : EntityId) : Harmless (getById type id) :=
  (harmless_readThrough type).bind fun _ => harmless_onCache type (relisting_getById id)

theorem harmless_getBySlug (type slug : String) : Harmless (getBySlug type slug) :=
  (harmless_readThrough type).bind fun _ => harmless_onCache type (relisting_getBySlug slug)

theorem harmless_all (type : String) : Harmless (all type) :=
  (harmless_readThrough type).bind fun _ => (harmless_checkout type).bind fun _ => harmless_pure _

/-! ## Commit and rollback -/

theorem harmless_flush : Harmless flush := fun _ _ _ hw =>
  conducts_of_answer () (exec_flush _) (hw.relist (Caches.relists_rebuild hw.keyed)) (.refl _)

/-- A session that lets go of everything. -/
theorem Coherent.reset (hw : Coherent known w) :
    Coherent known { w with session := { w.session with ledger := [], caches := [] } } :=
  coherent_nil hw.store hw.calm w.session.poisoned

theorem harmless_rollback : Harmless rollback := fun _ _ _ hw =>
  conducts_of_answer () (exec_rollback _) hw.reset (.refl _)

/-- What a session hands over lives. -/
theorem Coherent.live_changeset (hw : Coherent known w) :
    ∀ c ∈ changeset w, c.entity < w.store.pool.next := by
  intro c hc
  obtain ⟨e, he, heq⟩ := entity_of_mem_changeset hc
  rw [heq]
  exact (hw.ledger.live e he).1

theorem harmless_commit : Harmless commit := by
  intro known bad w hw
  have hprogress := hw.store.commit hw.live_changeset
  have hrun := exec_commit w
  -- a commit that is refused leaves the session as it was, its caches re-indexed
  rcases hcommit : exec (Store.commit (changeset w)) w.store with ⟨e | _, s⟩
  · rw [hcommit] at hrun hprogress
    have hrefused := (hw.relist (Caches.relists_rebuild hw.keyed)).progress hprogress
    exact conducts_of_refused e hrun hrefused hprogress
  · rw [hcommit] at hrun hprogress
    exact conducts_of_answer () hrun (hw.progress hprogress).reset hprogress

theorem harmless_autocommit : Harmless autocommit := by
  refine harmless_get.bind fun w => ?_
  split
  · exact harmless_commit
  · exact harmless_pure _

/-! ## Tracking what has come in -/

/-- An entity cannot take over an entry while it has one of its own. -/
theorem faults_succeed_iff {new : Handle} :
    Faults (succeed old new) w ↔ new ≠ old ∧ ∃ e ∈ w.session.ledger, e.entity = new := by
  have htracked : Ledger.contains (List.filter (fun e => e.entity != old) w.session.ledger) new = true ↔
      new ≠ old ∧ ∃ e ∈ w.session.ledger, e.entity = new := by
    rw [← Bool.not_eq_false, not_contains_iff]
    constructor
    · intro h
      by_contra hnone
      refine h fun e he heq => hnone ?_
      obtain ⟨he, hne⟩ := Ledger.mem_filter_ne.mp he
      exact ⟨heq ▸ hne, e, he, heq⟩
    · rintro ⟨hne, e, he, rfl⟩ hnone
      exact hnone e (Ledger.mem_filter_ne.mpr ⟨he, hne⟩) rfl
  rw [← htracked, Faults, exec_succeed, Ledger.register]
  cases Ledger.contains (List.filter (fun e => e.entity != old) w.session.ledger) new with
  | true => exact iff_of_true ⟨_, rfl⟩ rfl
  | false =>
    refine iff_of_false (fun hfault => ?_) Bool.false_ne_true
    obtain ⟨v, hv⟩ := hfault
    cases hv

theorem legacy_origin (pool : Pool) (l : Ledger) (old new : Handle) :
    (legacy pool l old new).1 = .new ∨ (legacy pool l old new).1 = .clean := by
  unfold legacy
  split
  · exact .inr rfl
  · exact .inl rfl

/-- The ledger takes up an entity that has come into a cache in the place of another or its own. -/
theorem succeed_conducts (hw : Coherent known w) (hfind : w.session.caches.find? type = some c)
    {c' : Cache} (htype : c'.type = c.type) (hkeyed : c'.Keyed w.store.pool) {new : Handle}
    (hlist : ∀ k, k ∈ c'.entities ↔ k ∈ c.entities ∧ k ≠ old ∨ k = new)
    (hnumbered : w.store.pool.id new ≠ none) (hold : w.store.pool.typeName old = type) :
    Conducts known (new ≠ old ∧ ∃ e ∈ w.session.ledger, e.entity = new)
      { w with session := { w.session with caches := w.session.caches.put c' } } (succeed old new) := by
  have hfaults : Faults (succeed old new)
        { w with session := { w.session with caches := w.session.caches.put c' } } ↔
      new ≠ old ∧ ∃ e ∈ w.session.ledger, e.entity = new := faults_succeed_iff
  by_cases htracked : new ≠ old ∧ ∃ e ∈ w.session.ledger, e.entity = new
  · refine ⟨?_, .inl (hfaults.mpr htracked), fun _ => htracked⟩
    rw [exec_succeed]
    split <;> exact .refl _
  · have hother : ∀ e ∈ w.session.ledger, e.entity ≠ old → e.entity ≠ new :=
      fun e he hne heq => htracked ⟨heq ▸ hne, e, he, heq⟩
    have hnot : Ledger.contains (List.filter (fun e => e.entity != old) w.session.ledger) new = false :=
      not_contains_iff.mpr fun e he => hother e (Ledger.mem_filter_ne.mp he).1 (Ledger.mem_filter_ne.mp he).2
    have hrun := exec_succeed old new
      { w with session := { w.session with caches := w.session.caches.put c' } }
    rw [Ledger.register, hnot] at hrun
    exact conducts_of_answer () hrun (hw.enter hfind hkeyed htype hlist hnumbered hold hother rfl
      (legacy_origin _ _ _ _)) (.refl _)

/-! ## Adding -/

theorem enduring_progress {s : Store} (hs : s.Upkept) : Enduring (Store.Progress s) where
  newId := fun type h => h.trans ((hs.progress h).newId type)
  setId := fun h hid id => h.trans (Store.progress_of_pool (Pool.grows_setId hid id)
    fun hP _ hp => hp.grows hP (Pool.grows_setId hid id) rfl)

/-- The ledger takes up an entity that has been entered, unless it tracks it already. One that comes
back takes over its own entry. -/
theorem Entered.take {w₁ : Work} (hw : Entered (Store.Progress w₁.store) w₁.session c h w)
    (h₁ : Coherent known w₁) (hfind : w₁.session.caches.find? type = some c)
    (hnumbered : w.store.pool.id h ≠ none) (revived : Bool) :
    Conducts known (revived = false ∧ ∃ e ∈ w₁.session.ledger, e.entity = h) w
      (if revived = true then Session.succeed h h else track fun pool l => l.registerNew pool h) := by
  obtain ⟨hprogress, c', hsession, htype, hlist, hkeyed⟩ := hw
  have hmem : ∀ k, k ∈ c'.entities ↔ k ∈ c.entities ∧ k ≠ h ∨ k = h := by
    intro k
    rw [hlist, List.mem_append, List.mem_singleton]
    by_cases hk : k = h <;> simp [hk]
  have htyped : w.store.pool.typeName h = type :=
    (hkeyed.typed h ((hmem h).mpr (.inr rfl))).trans (htype.trans (Caches.type_of_find? hfind))
  have hsucceed := succeed_conducts (h₁.progress hprogress) hfind htype hkeyed hmem hnumbered htyped
  obtain ⟨s, σ⟩ := w
  obtain rfl : σ = { w₁.session with caches := w₁.session.caches.put c' } := hsession
  split
  · exact hsucceed.imp fun hfault => absurd rfl hfault.1
  · next hnew =>
    by_cases htracked : ∃ e ∈ w₁.session.ledger, e.entity = h
    · have hcontains : w₁.session.ledger.contains h = true := by
        obtain ⟨e, he, heq⟩ := htracked
        rw [← Bool.not_eq_false, not_contains_iff]
        exact fun hnone => hnone e he heq
      have hrun := exec_track (fun pool l => Ledger.registerNew pool h l)
        ⟨s, { w₁.session with caches := w₁.session.caches.put c' }⟩
      rw [Ledger.registerNew, Ledger.register, hcontains] at hrun
      refine ⟨?_, .inl ⟨_, congrArg Prod.fst hrun⟩, fun _ => ⟨by simpa using hnew, htracked⟩⟩
      rw [hrun]
      exact .refl s
    -- to register an entity that is not tracked is to let it take over its own entry, of which
    -- there is none
    · have hnot : w₁.session.ledger.contains h = false :=
        not_contains_iff.mpr fun e he heq => htracked ⟨e, he, heq⟩
      exact .of_exec (exec_registerNew hnot) (hsucceed.imp fun hfault => absurd rfl hfault.1) (.refl s)

/-- What remains of an addition once the entity has been entered. -/
theorem settle_conducts {w₁ : Work} (hw : Entered (Store.Progress w₁.store) w₁.session c h w)
    (hstore : w.store = w₁.store) (h₁ : Coherent known w₁)
    (hfind : w₁.session.caches.find? type = some c) (revived : Bool) :
    Conducts known (revived = false ∧ ∃ e ∈ w₁.session.ledger, e.entity = h) w
      (settle type h revived) := by
  cases hid : w.store.pool.id h with
  | some id =>
    have hnumbered : w.store.pool.id h ≠ none := by
      rw [hid]
      exact Option.some_ne_none id
    refine .of_exec ?_ (hw.take h₁ hfind hnumbered revived) (.refl _)
    unfold settle
    rw [exec_bind, exec_get]
    simp only [hid, Option.isNone_some, Bool.false_eq_true, if_false]
  | none =>
    have hidentify := hw.identify (enduring_progress h₁.store) (Caches.type_of_find? hfind) hid
    have hexec : exec (settle type h revived) w = exec (do
        identify type h
        if revived then succeed h h else track fun pool l => l.registerNew pool h) w := by
      unfold settle
      rw [exec_bind, exec_get]
      simp only [hid, Option.isNone_none, if_true]
    refine .of_exec hexec ?_ (.refl _)
    -- where no id could be drawn the entity has been taken out of the cache again
    rcases hrun : exec (identify type h) w with ⟨fault | _, w'⟩
    · rw [hrun] at hidentify
      obtain ⟨⟨e, rfl⟩, hprogress, c', hsession, htype, hlist, hkeyed⟩ := hidentify
      have hput := (h₁.progress hprogress).put hfind htype hlist hkeyed
      obtain ⟨s, σ⟩ := w'
      obtain rfl : σ = { w₁.session with caches := w₁.session.caches.put c' } := hsession
      exact conducts_of_refused e (by rw [exec_bind, hrun]) hput (hstore ▸ hprogress)
    · rw [hrun] at hidentify
      obtain ⟨hw', hnumbered⟩ := hidentify
      exact .of_exec (by rw [exec_bind, hrun]) (hw'.take h₁ hfind hnumbered revived)
        (hstore ▸ hw'.store)

/-- What has been marked deleted reads as deleted. -/
theorem state?_of_deleted (hw : Coherent known w) {e : LedgerEntry} (he : e ∈ w.session.ledger)
    (hdeleted : e.state = .deleted) : state? e.entity w = some .deleted := by
  rw [state?, Ledger.state?, hw.ledger.find?_eq he, Option.map_some, LedgerEntry.current, hdeleted]
  rfl

/-- Entering an entity that is not listed, and what remains of the addition then. -/
theorem insert_conducts (hw : Coherent known w) (hfind : w.session.caches.find? type = some c)
    (hlive : h < w.store.pool.next) (htyped : w.store.pool.typeName h = type) (hmem : h ∉ c.entities)
    (revived : Bool) :
    Conducts known (revived = false ∧ ∃ e ∈ w.session.ledger, e.entity = h) w (do
      onCache type fun pool c => c.add pool h
      settle type h revived
      return true) := by
  have hkeyed := hw.keyed hfind
  have hsame : w.store.Progress w.store := .refl w.store
  rcases exec_insert hsame hfind hkeyed hlive htyped hmem with ⟨e, hrun⟩ | ⟨w', hrun, hstore, hentered⟩
  · have hput := hw.put hfind (Cache.type_refresh w.store.pool c)
      (Cache.entities_refresh w.store.pool c) hkeyed.refresh
    exact conducts_of_refused e (by rw [exec_bind, hrun]) hput hsame
  · have hrest := (settle_conducts hentered hstore hw hfind revived).bind (f := fun _ => pure true)
      fun _ _ _ hw' => conducts_pure hw' true
    exact .of_exec (by rw [exec_bind, hrun]) hrest hentered.store

/-- **Adding** an entity that lives violates the contract at most if nobody knows of it. -/
theorem enter_conducts (hw : Coherent known w) (hlive : h < w.store.pool.next) :
    Conducts known (¬ known h) w (enter h) := by
  obtain ⟨hcheckout, hout⟩ := checkout_conducts (¬ known h) hw (w.store.pool.typeName h)
  refine .of_exec (exec_enter h w) (hcheckout.bind fun c w₁ hrun h₁ => ?_) (.refl _)
  obtain ⟨hfind, hbefore⟩ := hout c w₁ hrun
  have hprogress := hcheckout.progress
  rw [hrun] at hprogress
  by_cases hmem : h ∈ c.entities
  · rw [if_pos (by simpa [Cache.contains] using hmem)]
    exact conducts_pure h₁ false
  · rw [if_neg (by simpa [Cache.contains] using hmem)]
    have hlive₁ : h < w₁.store.pool.next := Nat.lt_of_lt_of_le hlive hprogress.pool.next_le
    refine (insert_conducts h₁ hfind hlive₁ (hprogress.pool.typeName hlive) hmem _).imp ?_
    -- an entity that is tracked and not listed is known to nobody, unless it has been removed
    rintro ⟨hrevived, e, he, rfl⟩ hknown
    by_cases hdeleted : e.state = .deleted
    · rw [state?_of_deleted hw (hbefore e he hlive) hdeleted] at hrevived
      cases hrevived
    · obtain ⟨d, hd, hmem'⟩ := h₁.listed e he hknown hdeleted
      rw [hprogress.pool.typeName hlive, hfind] at hd
      obtain rfl := Option.some.inj hd
      exact hmem hmem'

/-! ## Removing -/

/-- **Removing** an entity, or the one of its id. -/
theorem harmless_leave (h : Handle) : Harmless (leave h) := by
  intro known bad w hw
  obtain ⟨hcheckout, hout⟩ := checkout_conducts bad hw (w.store.pool.typeName h)
  refine .of_exec (exec_leave h w) ?_ (.refl _)
  unfold withdraw onCache
  simp only [bind_assoc]
  refine hcheckout.bind fun c w₁ hrun h₁ => ?_
  obtain ⟨hfind, -⟩ := hout c w₁ hrun
  have hkeyed := h₁.keyed hfind
  rcases Cache.remove_cases w₁.store.pool h c with ⟨-, hremove⟩ | ⟨gone, hgone, -, hremove⟩
  · have hput := h₁.put hfind rfl rfl hkeyed
    refine conducts_of_refused (.notFound c.type (w₁.store.pool.id h)) ?_ hput (.refl _)
    simp only [exec_bind, exec_get, exec_set, exec_ofExcept, hremove, Except.mapError]
  · obtain ⟨e, he, rfl, hshown⟩ := h₁.shown hfind gone hgone
    have hcontains : w₁.session.ledger.contains e.entity = true := by
      rw [Ledger.contains, h₁.ledger.find?_eq he]
      rfl
    have hdelete := h₁.delete hfind hgone (hkeyed.without e.entity hgone) rfl fun k => by
      show k ∈ c.entities.erase e.entity ↔ _
      rw [hkeyed.nodup.mem_erase_iff, and_comm]
    refine conducts_of_answer () ?_ hdelete (.refl _)
    simp only [exec_bind, exec_get, exec_set, exec_ofExcept, hremove, Except.mapError, hcontains,
      if_true, exec_track, mark_of_shown h₁.ledger he hshown]
    rfl

/-! ## Replacing -/

/-- Whether replacing the entity of its id would bring back an entity that has been removed. -/
def BringsBack (w : Work) (h : Handle) : Prop :=
  state? h w = some .deleted ∧ ∃ c, w.session.caches.find? (w.store.pool.typeName h) = some c ∧
    ∃ old, (c.replace w.store.pool h).1 = .ok old

/-- **Replacing** an entity by one that lives and that somebody knows of violates the contract only
if that brings back what has been removed. -/
theorem replace_conducts (hw : Coherent known w) (hlive : h < w.store.pool.next) :
    Conducts known (known h → BringsBack w h) w (replace h) := by
  obtain ⟨hcheckout, hout⟩ :=
    checkout_conducts (known h → BringsBack w h) hw (w.store.pool.typeName h)
  refine .of_exec (exec_replace h w) ?_ (.refl _)
  unfold onCache
  simp only [bind_assoc]
  refine hcheckout.bind fun c w₁ hrun h₁ => ?_
  obtain ⟨hfind, hbefore⟩ := hout c w₁ hrun
  have hprogress := hcheckout.progress
  rw [hrun] at hprogress
  have hkeyed := h₁.keyed hfind
  have hlive₁ : h < w₁.store.pool.next := Nat.lt_of_lt_of_le hlive hprogress.pool.next_le
  have htyped : w₁.store.pool.typeName h = w.store.pool.typeName h := hprogress.pool.typeName hlive
  rcases Cache.replace_cases hkeyed h with ⟨e, hreplace⟩ | ⟨old, hold, id, hid, hoid, hreplace⟩
  · have hput := h₁.put hfind (Cache.type_refresh w₁.store.pool c)
      (Cache.entities_refresh w₁.store.pool c) hkeyed.refresh
    refine conducts_of_refused e ?_ hput (.refl _)
    simp only [exec_bind, exec_get, exec_set, exec_ofExcept, hreplace, Except.mapError]
  · have hlist : ∀ k, k ∈ ((c.refresh w₁.store.pool).exchange w₁.store.pool old h).entities ↔
        k ∈ c.entities ∧ k ≠ old ∨ k = h := by
      intro k
      rw [Cache.entities_exchange, Cache.entities_refresh, mem_replace hkeyed.nodup hold, or_comm]
    have hkeyed' : ((c.refresh w₁.store.pool).exchange w₁.store.pool old h).Keyed w₁.store.pool := by
      refine hkeyed.refresh.exchange hlive₁ ?_ ?_ hoid hid
      · rw [Cache.type_refresh, htyped]
        exact (Caches.type_of_find? hfind).symm
      · rw [Cache.entities_refresh]
        exact hold
    have hnumbered : w₁.store.pool.id h ≠ none := by
      rw [hid]
      exact Option.some_ne_none id
    have hsucceed := succeed_conducts h₁ hfind
      ((Cache.type_exchange (c := c.refresh w₁.store.pool)).trans (Cache.type_refresh w₁.store.pool c))
      hkeyed' hlist hnumbered (h₁.typeName hfind hold)
    refine .of_exec ?_ (hsucceed.imp ?_) (.refl _)
    · simp only [exec_bind, exec_get, exec_set, exec_ofExcept, hreplace, Except.mapError]
    · rintro ⟨hne, e, he, rfl⟩ hknown
      -- the entity is listed under its id, where another one is, or it has been removed
      have hdeleted : e.state = .deleted := by
        by_contra hdeleted
        obtain ⟨d, hd, hmem⟩ := h₁.listed e he hknown hdeleted
        rw [htyped, hfind] at hd
        obtain rfl := Option.some.inj hd
        exact hne (Pool.eq_of_id_eq hkeyed.ids hmem hold hid hoid)
      have he' := hbefore e he hlive
      obtain ⟨d, hd⟩ := Option.ne_none_iff_exists'.mp (hw.gone e he' hdeleted)
      obtain ⟨hcd, rfl⟩ := Prod.mk.inj ((exec_checkout_of_some hd).symm.trans hrun)
      obtain rfl := Except.ok.inj hcd
      exact ⟨state?_of_deleted hw he' hdeleted, d, hd, old, congrArg Prod.fst hreplace⟩

/-- Bringing back what has been removed violates the contract. -/
theorem Coherent.faults_of_bringsBack (hw : Coherent known w) (hback : BringsBack w h) :
    Faults (replace h) w := by
  obtain ⟨hremoved, c, hfind, taken, htaken⟩ := hback
  obtain ⟨e, he, rfl, hdeleted⟩ := exists_of_state?_eq_deleted hremoved
  rcases Cache.replace_cases (hw.keyed hfind) e.entity with
    ⟨fault, hreplace⟩ | ⟨old, hold, -, -, -, hreplace⟩
  · rw [hreplace] at htaken
    cases htaken
  -- what is listed has not been removed, so it is another entity that is to be replaced, and the
  -- removed one keeps its entry
  · have hne : e.entity ≠ old := by
      obtain ⟨d, hd, rfl, hshown⟩ := hw.shown hfind old hold
      intro heq
      rw [hw.ledger.eq_of_entity_eq he hd heq] at hdeleted
      exact hshown hdeleted
    have hexec : exec (replace e.entity) w = exec (succeed old e.entity) { w with session :=
        { w.session with caches :=
          w.session.caches.put ((c.refresh w.store.pool).exchange w.store.pool old e.entity) } } := by
      rw [exec_replace]
      simp only [exec_bind, exec_onCache, exec_checkout_of_some hfind, hreplace, Except.mapError]
    rw [Faults, hexec]
    exact faults_succeed_iff.mpr ⟨hne, e, he, rfl⟩

/-! ## Calls -/

namespace Call

/-- The entity that a call is to bring in. -/
def newcomer? : Call → Option Handle
  | .add h | .enter h | .replace h => some h
  | _ => none

/-- **What comes of a call** on a coherent session. -/
theorem conducts (c : Call) (hw : Coherent known w) (hlive : ∀ h ∈ c.newcomer?, h < w.store.pool.next) :
    Conducts known ((∃ h ∈ c.newcomer?, ¬ known h) ∨ ∃ h, c = .replace h ∧ BringsBack w h) w c.run := by
  have hread : ∀ {α : Type} {m : SessionM α}, Harmless m → Harmless (do let _ ← m) :=
    fun hm => hm.bind fun _ => harmless_pure _
  cases c with
  | add h =>
    rw [run, add_eq]
    refine ((enter_conducts hw (hlive h rfl)).imp fun hunknown => .inl ⟨h, rfl, hunknown⟩).bind ?_
    intro any w' _ hw'
    split
    · exact harmless_autocommit _ _ _ hw'
    · exact conducts_pure hw' _
  | remove h =>
    rw [run, remove_eq]
    exact (harmless_leave h).bind (fun _ => harmless_autocommit) _ _ _ hw
  | replace h =>
    refine (replace_conducts hw (hlive h rfl)).imp fun hbad => ?_
    by_cases hknown : known h
    · exact .inr ⟨h, rfl, hbad hknown⟩
    · exact .inl ⟨h, rfl, hknown⟩
  | enter h =>
    refine ((enter_conducts hw (hlive h rfl)).imp fun hunknown => .inl ⟨h, rfl, hunknown⟩).bind ?_
    exact fun _ _ _ hw' => conducts_pure hw' _
  | leave h => exact harmless_leave h _ _ _ hw
  | getById type id => exact hread (harmless_getById type id) _ _ _ hw
  | getBySlug type slug => exact hread (harmless_getBySlug type slug) _ _ _ hw
  | all type => exact hread (harmless_all type) _ _ _ hw
  | flush => exact harmless_flush _ _ _ hw
  | commit => exact harmless_commit _ _ _ hw
  | rollback => exact harmless_rollback _ _ _ hw

end Call

end EntityStore.Session
