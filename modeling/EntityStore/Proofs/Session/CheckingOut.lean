import EntityStore.Proofs.Session.Steps
import EntityStore.Proofs.Session.Tracking

/-!
# Checking types out

A call of a session that does not commit changes no committed content: it may load types, draw ids
and make copies. If it does not violate the contract of the ledger it leaves the session in order.
The base is what it was, extended by the content of the types that the call has checked out.
-/

namespace EntityStore

/-! ## Registering copies -/

namespace Ledger

variable {p : Pool} {l : Ledger}

/-- What registering a list of entities leaves: copies of them under new handles, with entries that
hold what the originals showed when they were copied. -/
structure Enrolls (p : Pool) (l : Ledger) (hs : List Handle) (out : List Handle × Pool × Ledger)
    (entries : Ledger) : Prop where
  pool : p.Extends out.2.1
  holds : ∀ {P}, Lasting P → p.Holds P → out.2.1.Holds P
  ledger : out.2.2 = l ++ entries
  copies : out.1 = entries.map LedgerEntry.entity
  nodup : (entries.map LedgerEntry.entity).Nodup
  fresh : ∀ e ∈ entries, p.next ≤ e.entity ∧ e.entity < out.2.1.next
  roster : out.2.1.roster out.1 = p.roster hs
  clean : ∀ e ∈ entries, e.state = .clean ∧ e.origin = .clean ∧
    ∃ q h, q.entity h = out.2.1.entity e.entity ∧ e.snapshot = Snapshot.capture q h

theorem registerAllClean_enrolls {hs : List Handle} (hlive : ∀ h ∈ hs, h < p.next) :
    ∃ entries, Enrolls p l hs (l.registerAllClean p hs) entries := by
  induction hs generalizing p l with
  | nil =>
    exact ⟨[], .refl p, fun _ hp => hp, (List.append_nil l).symm, rfl, List.nodup_nil,
      fun _ h => absurd h List.not_mem_nil, rfl, fun _ h => absurd h List.not_mem_nil⟩
  | cons h rest ih =>
    obtain ⟨hh, hrest⟩ := List.forall_mem_cons.mp hlive
    obtain ⟨q, hq⟩ : ∃ q, q = (p.detach h).2 := ⟨_, rfl⟩
    have hext : p.Extends q := hq ▸ Pool.extends_alloc p _
    have hnext : p.next < q.next := hq ▸ Nat.lt_succ_self _
    have hcopy : q.entity p.next = p.entity h := hq ▸ Pool.entity_alloc_self p _
    have hkept : ∀ k ∈ rest, q.entity k = p.entity k := fun k hk => hext.kept k (hrest k hk)
    obtain ⟨entry, hentity, hstate, horigin, hsnapshot, hrun⟩ : ∃ entry : LedgerEntry,
        entry.entity = p.next ∧ entry.state = .clean ∧ entry.origin = .clean ∧
          entry.snapshot = Snapshot.capture p h ∧
          l.registerAllClean p (h :: rest)
            = (p.next :: (registerAllClean q (l ++ [entry]) rest).1,
              (registerAllClean q (l ++ [entry]) rest).2) :=
      ⟨⟨p.next, .clean, .clean, Snapshot.capture p h⟩, rfl, rfl, rfl, rfl, hq ▸ rfl⟩
    obtain ⟨entries, hpool, hholds, hledger, hcopies, hnodup, hfresh, hroster, hclean⟩ :=
      ih (p := q) (l := l ++ [entry]) fun k hk => Nat.lt_of_lt_of_le (hrest k hk) hext.next_le
    rw [hrun]
    generalize registerAllClean q (l ++ [entry]) rest = out at *
    obtain ⟨copies, q', l'⟩ := out
    have hfound : q'.entity p.next = p.entity h := (hpool.kept _ hnext).trans hcopy
    refine ⟨entry :: entries, hext.trans hpool, ?_, ?_, ?_, ?_, ?_, ?_, ?_⟩
    · exact fun hP hp => hholds hP (hq ▸ hp.detach hP hh)
    · rw [List.append_cons]
      exact hledger
    · exact List.cons_eq_cons.mpr ⟨hentity.symm, hcopies⟩
    · refine List.nodup_cons.mpr ⟨?_, hnodup⟩
      intro hmem
      obtain ⟨e, he, heq⟩ := List.mem_map.mp hmem
      have hle := (hfresh e he).1
      rw [heq, hentity] at hle
      exact absurd hle (Nat.not_le.mpr hnext)
    · refine List.forall_mem_cons.mpr ⟨?_, ?_⟩
      · rw [hentity]
        exact ⟨Nat.le_refl _, Nat.lt_of_lt_of_le hnext hpool.next_le⟩
      · exact fun e he => ⟨Nat.le_trans hext.next_le (hfresh e he).1, (hfresh e he).2⟩
    · rw [Pool.roster_cons, Pool.roster_cons, hfound, ← Pool.roster_congr hkept]
      exact congrArg (p.entity h :: ·) hroster
    · refine List.forall_mem_cons.mpr ⟨⟨hstate, horigin, p, h, ?_, hsnapshot⟩, hclean⟩
      rw [hentity, hfound]

section Enrolls

variable {hs : List Handle} {out : List Handle × Pool × Ledger} {entries : Ledger} {type : String}
  {e : LedgerEntry}

/-- Each copy is one of the entities of the list. -/
theorem Enrolls.original (h : Enrolls p l hs out entries) (he : e ∈ entries) :
    ∃ k ∈ hs, p.entity k = out.2.1.entity e.entity := by
  have hmem : out.2.1.entity e.entity ∈ p.roster hs := by
    rw [← h.roster, h.copies]
    exact List.mem_map_of_mem (List.mem_map_of_mem he)
  exact List.mem_map.mp hmem

theorem Enrolls.typeName (h : Enrolls p l hs out entries) (htyped : ∀ k ∈ hs, p.typeName k = type)
    (he : e ∈ entries) : out.2.1.typeName e.entity = type := by
  obtain ⟨k, hk, heq⟩ := h.original he
  rw [Pool.typeName, ← heq]
  exact htyped k hk

/-- What is registered makes a ledger. -/
theorem Enrolls.formed (h : Enrolls p l hs out entries) (hnumbered : ∀ k ∈ hs, p.id k ≠ none) :
    entries.Formed out.2.1 := by
  refine ⟨h.nodup, fun e he => ⟨(h.fresh e he).2, ?_⟩, fun e he => ?_⟩
  · obtain ⟨k, hk, heq⟩ := h.original he
    rw [Pool.id, ← heq]
    exact hnumbered k hk
  · obtain ⟨hstate, horigin, -⟩ := h.clean e he
    exact ⟨.inr horigin, .inl (hstate.trans horigin.symm)⟩

/-- What is registered differs from whatever lived before. -/
theorem Enrolls.other (h : Enrolls p l hs out entries) {d : LedgerEntry} (hlive : d.entity < p.next)
    (he : e ∈ entries) : d.entity ≠ e.entity :=
  Nat.ne_of_lt (Nat.lt_of_lt_of_le hlive (h.fresh e he).1)

/-- The entries of plain entities hold their state data. -/
theorem Enrolls.snapshot (h : Enrolls p l hs out entries) (hplain : ∀ k ∈ hs, (p.entity k).Plain)
    (he : e ∈ entries) : e.snapshot = (out.2.1.entity e.entity).stateData := by
  obtain ⟨-, -, q, g, horiginal, hsnapshot⟩ := h.clean e he
  obtain ⟨k, hk, heq⟩ := h.original he
  rw [hsnapshot, ← horiginal]
  exact Snapshot.capture_of_plain (horiginal.trans heq.symm ▸ hplain k hk)

/-- A cache of the copies. -/
theorem Enrolls.keyed (h : Enrolls p l hs out entries) (htyped : ∀ k ∈ hs, p.typeName k = type)
    {c : Cache} (hof : Cache.ofEntities out.2.1 type out.1 = .ok c) :
    c.type = type ∧ c.entities = entries.map LedgerEntry.entity ∧ c.Keyed out.2.1 := by
  have hspec := Cache.ofEntities_spec out.2.1 type out.1
  rw [hof] at hspec
  obtain ⟨hnone, hindexed, hlist, rfl⟩ := hspec
  have hids := (Cache.repeatedKey?_eq_none.mp hnone).1.ids
  rw [← hlist] at hids
  rw [h.copies] at hlist
  refine ⟨rfl, hlist, ?_, ?_, ?_, hids, .inr hindexed.byId⟩
  · rw [hlist]
    exact List.forall_mem_map.mpr fun e he => (h.fresh e he).2
  · rw [hlist]
    exact List.forall_mem_map.mpr fun e he => h.typeName htyped he
  · rw [hlist]
    exact h.nodup

end Enrolls

end Ledger

namespace Session

/-! ## Calls that change no content -/

/-- The base after a call: what it was for the types that had been checked out before, and the
content for those that have been since. -/
def rebase (base : Base) (σ : Session) (s' : Store) (σ' : Session) : Base := fun type =>
  match σ'.caches.find? type, σ.caches.find? type with
  | none, _ => fun _ => none
  | some _, none => s'.content type
  | some _, some _ => base type

/-- What a call that does not commit makes of a session in order. -/
structure Advances (base : Base) (w w' : Work) : Prop where
  carries : w.store.Carries w'.store
  poisoned : w'.session.poisoned = w.session.poisoned
  /-- What was checked out still is. -/
  opens : ∀ {type}, w'.session.caches.find? type = none → w.session.caches.find? type = none
  tracks : ∃ strays, Tracks strays (rebase base w.session w'.store w'.session) w'.store w'.session

variable {strays : Handle → Prop} {base : Base} {s s' s'' : Store} {σ σ' σ'' : Session}
  {w w' w'' : Work}

/-- Where nothing has been checked out the base is what it was. -/
theorem Tracks.rebase_of_same (h : Tracks strays base s σ)
    (hsame : ∀ {type}, σ'.caches.find? type = none ↔ σ.caches.find? type = none) :
    rebase base σ s' σ' = base := by
  funext type
  unfold rebase
  cases hfind' : σ'.caches.find? type with
  | none =>
    funext id
    exact (h.unopened (hsame.mp hfind') id).symm
  | some c' =>
    cases hfind : σ.caches.find? type with
    | none =>
      rw [hsame.mpr hfind] at hfind'
      cases hfind'
    | some c => rfl

/-- A type that is checked out has its content for a base. -/
theorem Tracks.rebase_of_put (h : Tracks strays base s σ) {type : String} {c : Cache}
    (hfind : σ.caches.find? type = none) (htype : c.type = type)
    (hput : σ'.caches = σ.caches.put c) :
    rebase base σ s' σ' = Function.update base type (s'.content type) := by
  funext t
  unfold rebase
  rw [hput]
  by_cases ht : t = type
  · rw [ht, Function.update_self, ← htype, Caches.find?_put_self, htype, hfind]
  · rw [Function.update_of_ne ht, Caches.find?_put_of_ne fun heq => ht (heq.symm.trans htype)]
    cases hold : σ.caches.find? t with
    | none => exact funext fun id => (h.unopened hold id).symm
    | some d => rfl

theorem rebase_rebase (hopens : ∀ {type}, σ'.caches.find? type = none → σ.caches.find? type = none)
    (hcontent : ∀ type id, s''.content type id = s'.content type id) :
    rebase (rebase base σ s' σ') σ' s'' σ'' = rebase base σ s'' σ'' := by
  funext type
  unfold rebase
  cases h'' : σ''.caches.find? type with
  | none => rfl
  | some c'' =>
    cases h' : σ'.caches.find? type with
    | none => rw [hopens h']
    | some c' =>
      cases σ.caches.find? type with
      | none => exact funext fun id => (hcontent type id).symm
      | some c => rfl

/-- A call that checks nothing out and leaves the session in order. -/
theorem Tracks.advances (h : Tracks strays base w.store w.session)
    (hcarries : w.store.Carries w'.store) (hpoisoned : w'.session.poisoned = w.session.poisoned)
    (hsame : ∀ {type}, w'.session.caches.find? type = none ↔ w.session.caches.find? type = none)
    {strays' : Handle → Prop} (h' : Tracks strays' base w'.store w'.session) : Advances base w w' where
  carries := hcarries
  poisoned := hpoisoned
  opens := hsame.mp
  tracks := ⟨strays', by rw [h.rebase_of_same hsame]; exact h'⟩

theorem Advances.trans (h : Advances base w w')
    (h' : Advances (rebase base w.session w'.store w'.session) w' w'') : Advances base w w'' where
  carries := h.carries.trans h'.carries
  poisoned := h'.poisoned.trans h.poisoned
  opens := fun hnone => h.opens (h'.opens hnone)
  tracks := by
    obtain ⟨strays, htracks⟩ := h'.tracks
    refine ⟨strays, ?_⟩
    rw [rebase_rebase h.opens h'.carries.content] at htracks
    exact htracks

/-- What remains of a call that began at `w` on a session in order: it changes no content, and
unless it violates the contract of the ledger it leaves the session in order. -/
def Resumes {α : Type} (base : Base) (w v : Work) (m : SessionM α) : Prop :=
  w.store.Carries (exec m v).2.store ∧
    ((∃ fault, (exec m v).1 = .error (.violation fault)) ∨ Advances base w (exec m v).2)

/-- A call on a session in order. -/
def Proceeds {α : Type} (base : Base) (w : Work) (m : SessionM α) : Prop := Resumes base w w m

/-- A call that every session in order may make. -/
def Lawful {α : Type} (m : SessionM α) : Prop :=
  ∀ strays base w, w.store.Orderly → Tracks strays base w.store w.session → Proceeds base w m

variable {α β : Type}

theorem Advances.resumes {v : Work} {m : SessionM α} (h : Advances base w (exec m v).2) :
    Resumes base w v m := ⟨h.carries, .inr h⟩

theorem Advances.then_resumes {v : Work} {m : SessionM α} (h : Advances base w w')
    (hm : Resumes (rebase base w.session w'.store w'.session) w' v m) : Resumes base w v m :=
  ⟨h.carries.trans hm.1, hm.2.imp_right h.trans⟩

/-- Where a violation or an advance leads, an answer of one's own may follow. -/
theorem Resumes.answer {v : Work} {m : SessionM α} (h : Resumes base w v m) (b : β) :
    Resumes base w v (do let _ ← m; return b) := by
  obtain ⟨hcarries, hout⟩ := h
  unfold Resumes
  rw [exec_bind]
  rcases hrun : exec m v with ⟨e | a, v'⟩
  · rw [hrun] at hcarries hout
    refine ⟨hcarries, hout.imp_left ?_⟩
    rintro ⟨fault, hfault⟩
    exact ⟨fault, congrArg Except.error (Except.error.inj hfault)⟩
  · rw [hrun] at hcarries hout
    refine ⟨hcarries, .inr (hout.resolve_left ?_)⟩
    rintro ⟨fault, hfault⟩
    cases hfault

/-- One call after another. -/
theorem Proceeds.bind {m : SessionM α} {f : α → SessionM β} (hm : Proceeds base w m)
    (hf : ∀ a w', exec m w = (.ok a, w') → Advances base w w' →
      Proceeds (rebase base w.session w'.store w'.session) w' (f a)) :
    Proceeds base w (m >>= f) := by
  obtain ⟨hcarries, hm⟩ := hm
  unfold Proceeds Resumes
  rw [exec_bind]
  rcases hrun : exec m w with ⟨e | a, w'⟩
  · rw [hrun] at hcarries hm
    refine ⟨hcarries, hm.imp_left ?_⟩
    rintro ⟨fault, hfault⟩
    exact ⟨fault, congrArg Except.error (Except.error.inj hfault)⟩
  · rw [hrun] at hcarries hm
    have hadvances : Advances base w w' := by
      refine hm.resolve_left ?_
      rintro ⟨fault, hfault⟩
      cases hfault
    exact hadvances.then_resumes (hf a w' hrun hadvances)

theorem Lawful.bind {m : SessionM α} {f : α → SessionM β} (hm : Lawful m)
    (hf : ∀ a, Lawful (f a)) : Lawful (m >>= f) := by
  intro strays base w hs h
  refine (hm strays base w hs h).bind fun a w' _ hadvances => ?_
  obtain ⟨strays', h'⟩ := hadvances.tracks
  exact hf a strays' _ w' hadvances.carries.orderly h'

theorem lawful_pure (a : α) : Lawful (pure a : SessionM α) := by
  intro strays base w hs h
  exact (h.advances (.refl hs) rfl Iff.rfl h).resumes

theorem lawful_get : Lawful (get : SessionM Work) := by
  intro strays base w hs h
  exact (h.advances (.refl hs) rfl Iff.rfl h).resumes

/-! ## Checking out -/

/-- What a checkout registers are copies of what is committed. -/
theorem copies_of_enrolls {committed : Cache} {type : String}
    (hs : s.Orderly) (hfind : s.repository.caches.find? type = some committed) {l : Ledger}
    (hlive : ∀ e ∈ l, e.entity < s.pool.next) {out : List Handle × Pool × Ledger} {entries : Ledger}
    (h : Ledger.Enrolls s.pool l committed.entities out entries) :
    Store.Carries s { s with pool := out.2.1 } ∧ Ledger.Copies out.2.1 l entries := by
  have hcommitted := hs.sound.committed hfind
  have hs' : Store.Orderly { s with pool := out.2.1 } :=
    hs.withPool h.pool.next_le
      (fun hfind k hk => h.pool.kept k ((hs.sound.committed hfind).live k hk))
      (h.holds lasting_refersBelow hs.sound.closed) (h.holds lasting_plain hs.plain.pool)
  refine ⟨hs.carries hs' h.pool.grows rfl fun _ => rfl, h.nodup, ?_, ?_, ?_⟩
  · exact fun e he d hd => h.other (hlive d hd) he
  · exact (h.formed hcommitted.numbered).live
  · intro e he
    obtain ⟨hstate, horigin, -⟩ := h.clean e he
    have hsnapshot := h.snapshot (fun k hk => hs.plain.pool k (hcommitted.live k hk)) he
    exact ⟨hstate, horigin, hsnapshot.trans (hs'.capture (h.fresh e he).2).symm⟩

/-- A list of copies reads as the content of the type. -/
theorem content_eq_some_iff (hs : s.Orderly) {committed : Cache} {type : String}
    (hfind : s.repository.caches.find? type = some committed) {l entries : Ledger}
    {out : List Handle × Pool × Ledger}
    (h : Ledger.Enrolls s.pool l committed.entities out entries)
    (hunique : (out.2.1.roster out.1).ids.Nodup) (id : EntityId) (x : Snapshot) :
    s.content type id = some x ↔
      ∃ e ∈ entries, out.2.1.id e.entity = some id ∧ e.snapshot = x := by
  have hsnapshot := fun e => h.snapshot (e := e)
    fun k hk => hs.plain.pool k ((hs.sound.committed hfind).live k hk)
  have hread : s.content type id
      = (out.2.1.holder? id out.1).map fun k => (out.2.1.entity k).stateData := by
    rw [hs.content_of_some hfind, ← h.roster, ← Pool.map_holder?, Option.map_map]
    rfl
  rw [hread, Option.map_eq_some_iff]
  constructor
  · rintro ⟨k, hk, rfl⟩
    obtain ⟨hmem, hid⟩ := Pool.holder?_eq_some hk
    rw [h.copies] at hmem
    obtain ⟨e, he, rfl⟩ := List.mem_map.mp hmem
    exact ⟨e, he, hid, hsnapshot e he⟩
  · rintro ⟨e, he, hid, rfl⟩
    have hmem : e.entity ∈ out.1 := h.copies ▸ List.mem_map_of_mem he
    exact ⟨e.entity, Pool.holder?_eq hunique hmem hid, (hsnapshot e he).symm⟩

/-- Checking out a type: its cache is there, unless the store or the copies of what it has failed. -/
theorem checkout_spec (hs : w.store.Orderly) (h : Tracks strays base w.store w.session)
    (type : String) :
    Advances base w (exec (checkout type) w).2 ∧
      match (exec (checkout type) w).1 with
      | .ok c => (exec (checkout type) w).2.session.caches.find? type = some c
      | .error fault => ∃ e, fault = .store e := by
  cases hfind : w.session.caches.find? type with
  | some c =>
    rw [exec_checkout_of_some hfind]
    exact ⟨h.advances (.refl hs) rfl Iff.rfl h, hfind⟩
  | none =>
    have hcarries := hs.carries_checkout type
    rw [exec_checkout_of_none hfind, Store.exec_load]
    rcases hrun : exec (Store.checkout type) w.store with ⟨e | committed, s₁⟩
    · rw [hrun] at hcarries
      exact ⟨h.advances hcarries rfl Iff.rfl (h.grows hs hcarries.orderly hcarries.pool), e, rfl⟩
    · rw [hrun] at hcarries
      have hs₁ := hcarries.orderly
      have hfound := (hs.sound.loads hrun).found
      have h₁ := h.grows hs hs₁ hcarries.pool
      have hcommitted := hs₁.sound.committed hfound
      obtain ⟨entries, henrolls⟩ := Ledger.registerAllClean_enrolls (l := w.session.ledger)
        hcommitted.live
      obtain ⟨hcarries', hcopies⟩ :=
        copies_of_enrolls hs₁ hfound (fun e he => (h₁.ledger.live e he).1) henrolls
      have hcontent := fun hunique => content_eq_some_iff hs₁ hfound henrolls hunique
      have hcache := fun c => henrolls.keyed (c := c) fun k hk =>
        (hcommitted.typed k hk).trans (Caches.type_of_find? hfound)
      have hlist := henrolls.copies
      obtain ⟨-, -, hledger, -⟩ := henrolls
      simp only [Except.map]
      generalize w.session.ledger.registerAllClean s₁.pool committed.entities = out at *
      obtain ⟨copies, q, l⟩ := out
      subst hledger
      have hs₂ := hcarries'.orderly
      have h₂ := h₁.grows hs₁ hs₂ hcarries'.pool
      simp only
      cases hof : Cache.ofEntities q type copies with
      | error e =>
        exact ⟨h.advances (hcarries.trans hcarries') rfl Iff.rfl (h₂.strand hcopies), e, rfl⟩
      | ok c =>
        obtain ⟨htype, hentities, hkeyed⟩ := hcache c hof
        have hunique : (q.roster copies).ids.Nodup := by
          rw [show copies = c.entities from hlist.trans hentities.symm]
          exact hkeyed.ids
        have hopened : (w.session.caches.put c).find? type = some c := htype ▸ Caches.find?_put_self _ c
        have hload := h₂.load hfind hcopies hkeyed htype hentities (hcontent hunique)
        refine ⟨⟨hcarries.trans hcarries', rfl, ?_, strays, ?_⟩, hopened⟩
        · exact fun ht => (Caches.find?_put_eq_none.mp ht).2
        · rw [h₂.rebase_of_put hfind htype rfl, funext (hcarries'.content type)]
          exact hload

/-! ## Reading

Reads check types out and bring indexes up to date. Neither changes what the session shows of the
types it had checked out, or what it tracks of them. -/

section Reading

variable {strays : Handle → Prop} {base : Base} {w : Work} {α : Type}

theorem lawful_checkout (type : String) : Lawful (checkout type) := by
  intro strays base w hs h
  exact (checkout_spec hs h type).1.resumes

/-- An operation on a cache that lists the same entities afterwards. -/
def Relisting (f : Pool → Cache → Except StoreError α × Cache) : Prop :=
  ∀ {p c}, c.Keyed p →
    (f p c).2.Keyed p ∧ (f p c).2.type = c.type ∧ (f p c).2.entities = c.entities

/-- Putting back a cache that lists the same entities. -/
theorem Tracks.advances_put (h : Tracks strays base w.store w.session) (hs : w.store.Orderly)
    {w' : Work} (hcarries : w.store.Carries w'.store) {type : String} {c c' : Cache}
    (hfind : w.session.caches.find? type = some c)
    (hsession : w'.session = { w.session with caches := w.session.caches.put c' })
    (htype : c'.type = c.type) (hlist : c'.entities = c.entities) (hkeyed : c'.Keyed w'.store.pool) :
    Advances base w w' := by
  have h' := h.grows hs hcarries.orderly hcarries.pool
  have hrelists : w.session.caches.Relists w'.store.pool (w.session.caches.put c') :=
    Caches.relists_put h'.keyed hfind (htype.trans (Caches.type_of_find? hfind)) hlist hkeyed
  obtain ⟨s', σ'⟩ := w'
  obtain rfl : σ' = { w.session with caches := w.session.caches.put c' } := hsession
  exact h.advances hcarries rfl hrelists.none (h'.relist hrelists)

theorem lawful_onCache (type : String) {f : Pool → Cache → Except StoreError α × Cache}
    (hf : Relisting f) : Lawful (onCache type f) := by
  intro strays base w hs h
  have hcheckout := checkout_spec hs h type
  refine Advances.resumes ?_
  rw [exec_onCache]
  rcases hrun : exec (checkout type) w with ⟨e | c, w₁⟩
  · rw [hrun] at hcheckout
    exact hcheckout.1
  · rw [hrun] at hcheckout
    obtain ⟨hadvances, hfind⟩ := hcheckout
    obtain ⟨strays₁, h₁⟩ := hadvances.tracks
    obtain ⟨hkeyed, htype, hlist⟩ := hf (h₁.keyed hfind)
    have hs₁ := hadvances.carries.orderly
    exact hadvances.trans (h₁.advances_put hs₁ (.refl hs₁) hfind rfl htype hlist hkeyed)

theorem relisting_rebuild : Relisting fun pool c => (.ok (), c.rebuild pool) :=
  fun hc => ⟨hc.rebuild, rfl, rfl⟩

theorem relisting_getById (id : EntityId) : Relisting fun pool c =>
    let (found, c) := c.getById pool id
    (.ok found, c) :=
  fun hc => ⟨hc.refresh, Cache.type_refresh _ _, Cache.entities_refresh _ _⟩

theorem relisting_getBySlug (slug : String) : Relisting fun pool c =>
    let (found, c) := c.getBySlug pool slug
    (.ok found, c) :=
  fun hc => ⟨hc.refresh, Cache.type_refresh _ _, Cache.entities_refresh _ _⟩

theorem lawful_readThrough (type : String) : Lawful (readThrough type) := by
  refine lawful_get.bind fun w => ?_
  split
  · exact lawful_onCache type relisting_rebuild
  · exact lawful_pure _

theorem lawful_getById (type : String) (id : EntityId) : Lawful (getById type id) :=
  (lawful_readThrough type).bind fun _ => lawful_onCache type (relisting_getById id)

theorem lawful_getBySlug (type slug : String) : Lawful (getBySlug type slug) :=
  (lawful_readThrough type).bind fun _ => lawful_onCache type (relisting_getBySlug slug)

theorem lawful_all (type : String) : Lawful (all type) :=
  (lawful_readThrough type).bind fun _ => (lawful_checkout type).bind fun _ => lawful_pure _

/-- Rebuilding all indexes. -/
theorem lawful_flush : Lawful flush := by
  intro strays base w hs h
  have hrelists := Caches.relists_rebuild h.keyed
  refine Advances.resumes ?_
  rw [exec_flush]
  exact h.advances (.refl hs) rfl hrelists.none (h.relist hrelists)

end Reading

end Session

end EntityStore
