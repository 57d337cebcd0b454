import EntityStore.Proofs.Cache.Changes
import EntityStore.Proofs.Repository.Contents
import EntityStore.Proofs.Session.Ledgers

/-!
# What a session tracks is what it shows

In a session that is in order, the ledger is, and its caches show exactly the tracked entities that
are not deleted, strays aside. Nothing that others do to the store disturbs that: what is tracked
has an id, so nobody but its holder touches it. The session itself moves from one such state to the
next: an entity comes in and takes the place of another, one goes, a type is checked out, or a
checkout fails and leaves strays.
-/

namespace EntityStore

/-- Caches that list the same entities as others, under indexes of their own. -/
structure Caches.Relists (pool : Pool) (cs cs' : Caches) : Prop where
  same : ∀ {t c'}, cs'.find? t = some c' →
    c'.Keyed pool ∧ ∃ c, cs.find? t = some c ∧ c'.entities = c.entities
  none : ∀ {t}, cs'.find? t = none ↔ cs.find? t = none

theorem Caches.relists_put {pool : Pool} {cs : Caches} {c c' : Cache}
    (hcs : ∀ {t c}, cs.find? t = some c → c.Keyed pool) {type : String}
    (hfind : cs.find? type = some c) (htype : c'.type = type) (hentities : c'.entities = c.entities)
    (hkeyed : c'.Keyed pool) : cs.Relists pool (cs.put c') where
  same := by
    intro t d hd
    rcases find?_put_eq_some.mp hd with ⟨heq, rfl⟩ | ⟨-, hd⟩
    · exact ⟨hkeyed, c, heq ▸ htype ▸ hfind, hentities⟩
    · exact ⟨hcs hd, d, hd, rfl⟩
  none := by
    intro t
    rw [find?_put_eq_none, htype]
    refine and_iff_right_of_imp fun hnone heq => ?_
    rw [← heq, hfind] at hnone
    cases hnone

theorem Caches.relists_rebuild {pool : Pool} {cs : Caches}
    (hcs : ∀ {t c}, cs.find? t = some c → c.Keyed pool) : cs.Relists pool (cs.rebuild pool) where
  same := by
    intro t c' hc'
    rw [find?_rebuild] at hc'
    obtain ⟨c, hc, rfl⟩ := Option.map_eq_some_iff.mp hc'
    exact ⟨(hcs hc).rebuild, c, hc, rfl⟩
  none := by
    intro t
    rw [find?_rebuild, Option.map_eq_none_iff]

namespace Session

/-- An invariant of sessions. -/
structure Tracks (strays : Handle → Prop) (base : Base) (s : Store) (σ : Session) : Prop where
  ledger : σ.ledger.Sound strays base s.pool
  keyed : ∀ {t c}, σ.caches.find? t = some c → c.Keyed s.pool
  /-- The types of what is tracked are checked out. -/
  checkedOut : ∀ e ∈ σ.ledger, ¬ strays e.entity →
    σ.caches.find? (s.pool.typeName e.entity) ≠ none
  /-- The caches list what is tracked and not deleted. -/
  shown : ∀ {t c}, σ.caches.find? t = some c → ∀ h, h ∈ c.entities ↔
    s.pool.typeName h = t ∧ ∃ e ∈ σ.ledger, e.entity = h ∧ e.state ≠ .deleted ∧ ¬ strays h
  /-- Types that are not checked out have no base. -/
  unopened : ∀ {t}, σ.caches.find? t = none → ∀ id, base t id = none

variable {strays : Handle → Prop} {base : Base} {s s' : Store} {σ : Session} {type : String}
  {c c' : Cache} {old gone : Handle}

/-- A session that tracks nothing. -/
theorem tracks_nil (s : Store) (poisoned : Bool) :
    Tracks (fun _ => False) (fun _ _ => none) s ⟨[], [], poisoned⟩ where
  ledger := Ledger.sound_nil
  keyed := fun h => by cases h
  checkedOut := fun _ he => absurd he List.not_mem_nil
  shown := fun h => by cases h
  unopened := fun _ _ => rfl

/-- What is shown is tracked. -/
theorem Tracks.entry (h : Tracks strays base s σ) (hfind : σ.caches.find? type = some c)
    {k : Handle} (hk : k ∈ c.entities) :
    s.pool.typeName k = type ∧ ∃ e ∈ σ.ledger, e.entity = k ∧ e.state ≠ .deleted ∧ ¬ strays k :=
  (h.shown hfind k).mp hk

/-- The cache of the type of an entry. -/
theorem Tracks.cache (h : Tracks strays base s σ) {e : LedgerEntry} (he : e ∈ σ.ledger)
    (hstray : ¬ strays e.entity) : ∃ c, σ.caches.find? (s.pool.typeName e.entity) = some c :=
  Option.ne_none_iff_exists'.mp (h.checkedOut e he hstray)

/-! ## What others do -/

/-- A session stays in order while what it tracks keeps its types and ids, and strays their
state. -/
theorem Tracks.congr (h : Tracks strays base s σ) (hnext : s.pool.next ≤ s'.pool.next)
    (hid : ∀ e ∈ σ.ledger, s'.pool.id e.entity = s.pool.id e.entity)
    (htype : ∀ e ∈ σ.ledger, s'.pool.typeName e.entity = s.pool.typeName e.entity)
    (hstrays : ∀ e ∈ σ.ledger, strays e.entity →
      Snapshot.capture s'.pool e.entity = Snapshot.capture s.pool e.entity) :
    Tracks strays base s' σ where
  ledger := h.ledger.congr hnext hid htype hstrays
  keyed := by
    intro t c hfind
    refine (h.keyed hfind).congr_keys hnext ?_ ?_
    · intro k hk
      obtain ⟨-, e, he, rfl, -⟩ := h.entry hfind hk
      exact hid e he
    · intro k hk
      obtain ⟨-, e, he, rfl, -⟩ := h.entry hfind hk
      exact htype e he
  checkedOut := fun e he hstray => by
    rw [htype e he]
    exact h.checkedOut e he hstray
  shown := by
    intro t c hfind k
    rw [h.shown hfind]
    constructor
    · rintro ⟨ht, e, he, rfl, hentry⟩
      exact ⟨(htype e he).trans ht, e, he, rfl, hentry⟩
    · rintro ⟨ht, e, he, rfl, hentry⟩
      exact ⟨(htype e he).symm.trans ht, e, he, rfl, hentry⟩
  unopened := h.unopened

/-- What is tracked has ids, so it stays as it is while a store goes on. -/
theorem Tracks.grows (h : Tracks strays base s σ) (hs : s.Orderly) (hs' : s'.Orderly)
    (hpool : s.pool.Grows s'.pool) : Tracks strays base s' σ := by
  have hkept : ∀ e ∈ σ.ledger, s'.pool.entity e.entity = s.pool.entity e.entity :=
    fun e he => hpool.kept_of_id (h.ledger.live e he).1 (h.ledger.live e he).2
  refine h.congr hpool.next_le ?_ ?_ ?_
  · intro e he
    rw [Pool.id, Pool.id, hkept e he]
  · intro e he
    rw [Pool.typeName, Pool.typeName, hkept e he]
  · intro e he _
    have hlive := (h.ledger.live e he).1
    rw [hs.capture hlive, hs'.capture (Nat.lt_of_lt_of_le hlive hpool.next_le), hkept e he]

/-! ## What the session does -/

/-- Only what the caches list matters, not their indexes. -/
theorem Tracks.relist (h : Tracks strays base s σ) {cs : Caches} (hcs : σ.caches.Relists s.pool cs) :
    Tracks strays base s { σ with caches := cs } where
  ledger := h.ledger
  keyed := fun hfind => (hcs.same hfind).1
  checkedOut := fun e he hstray => mt hcs.none.mp (h.checkedOut e he hstray)
  shown := by
    intro t c' hfind k
    obtain ⟨-, c, hc, hentities⟩ := hcs.same hfind
    rw [hentities]
    exact h.shown hc k
  unopened := fun hnone => h.unopened (hcs.none.mp hnone)

/-- A cache is put in, and the ledger changes with it as far as its type is concerned. -/
theorem Tracks.put (h : Tracks strays base s σ) {l : Ledger} {base' : Base}
    (hledger : l.Sound strays base' s.pool) (hkeyed : c'.Keyed s.pool)
    (hbase : ∀ t, t ≠ c'.type → base' t = base t)
    (hothers : ∀ e : LedgerEntry, s.pool.typeName e.entity ≠ c'.type → (e ∈ l ↔ e ∈ σ.ledger))
    (hlist : ∀ k, k ∈ c'.entities ↔ s.pool.typeName k = c'.type ∧
      ∃ e ∈ l, e.entity = k ∧ e.state ≠ .deleted ∧ ¬ strays k) :
    Tracks strays base' s { σ with ledger := l, caches := σ.caches.put c' } where
  ledger := hledger
  keyed := by
    intro t d hd
    rcases Caches.find?_put_eq_some.mp hd with ⟨-, rfl⟩ | ⟨-, hd⟩
    · exact hkeyed
    · exact h.keyed hd
  checkedOut := by
    intro e he hstray hnot
    obtain ⟨hne, hnone⟩ := Caches.find?_put_eq_none.mp hnot
    exact h.checkedOut e ((hothers e (Ne.symm hne)).mp he) hstray hnone
  shown := by
    intro t d hd k
    rcases Caches.find?_put_eq_some.mp hd with ⟨rfl, rfl⟩ | ⟨hne, hd⟩
    · exact hlist k
    · rw [h.shown hd]
      refine and_congr_right fun ht => exists_congr fun e => and_congr_left fun hentry => ?_
      refine (hothers e fun heq => hne ?_).symm
      rw [← heq, hentry.1, ht]
  unopened := by
    intro t hnot id
    obtain ⟨hne, hnone⟩ := Caches.find?_put_eq_none.mp hnot
    rw [hbase t (Ne.symm hne)]
    exact h.unopened hnone id

/-- An entity comes in, and takes the place of another or its own. -/
theorem Tracks.enter (h : Tracks strays base s σ) (hfind : σ.caches.find? type = some c)
    (hkeyed : c'.Keyed s.pool) (htype : c'.type = type) {entry : LedgerEntry}
    (hlist : ∀ k, k ∈ c'.entities ↔ k ∈ c.entities ∧ k ≠ old ∨ k = entry.entity)
    (hnumbered : s.pool.id entry.entity ≠ none)
    (holdType : s.pool.typeName old = type) (hold : ¬ strays old)
    (hother : ∀ e ∈ σ.ledger, e.entity ≠ old → e.entity ≠ entry.entity)
    (hids : ∀ k ∈ c.entities, k ≠ old → s.pool.id k ≠ s.pool.id entry.entity)
    (hstate : entry.state = entry.origin)
    (hinherits : Ledger.Inherits s.pool σ.ledger old entry) :
    Tracks strays base s { σ with
      ledger := List.filter (fun e => e.entity != old) σ.ledger ++ [entry]
      caches := σ.caches.put c' } := by
  subst htype
  have hnew : entry.entity ∈ c'.entities := (hlist _).mpr (.inr rfl)
  have hnewType : s.pool.typeName entry.entity = c'.type := hkeyed.typed _ hnew
  have hsound : Ledger.Sound strays base s.pool
      (List.filter (fun e => e.entity != old) σ.ledger ++ [entry]) := by
    refine h.ledger.enter hold hother (hkeyed.live _ hnew) hnumbered hstate hinherits ?_
    intro e he hstray hne hkey
    by_contra hstate
    have hmem : e.entity ∈ c.entities :=
      (h.shown hfind _).mpr ⟨hkey.1.trans hnewType, e, he, rfl, hstate, hstray⟩
    exact hids _ hmem hne hkey.2
  have hmem : ∀ {e : LedgerEntry},
      e ∈ List.filter (fun e : LedgerEntry => e.entity != old) σ.ledger ++ [entry] ↔
        e ∈ σ.ledger ∧ e.entity ≠ old ∨ e = entry := by
    intro e
    rw [List.mem_append, Ledger.mem_filter_ne, List.mem_singleton]
  have hnotDeleted : entry.state ≠ .deleted := by
    rw [hstate]
    rcases hinherits.origin with horigin | horigin <;> simp [horigin]
  refine h.put hsound hkeyed (fun _ _ => rfl) ?_ ?_
  · intro e hne
    rw [hmem]
    constructor
    · rintro (⟨he, -⟩ | rfl)
      · exact he
      · exact absurd hnewType hne
    · exact fun he => .inl ⟨he, fun heq => hne (heq ▸ holdType)⟩
  · intro k
    rw [hlist]
    constructor
    · rintro (⟨hk, hne⟩ | rfl)
      · obtain ⟨ht, e, he, rfl, hentry⟩ := h.entry hfind hk
        exact ⟨ht, e, hmem.mpr (.inl ⟨he, hne⟩), rfl, hentry⟩
      · exact ⟨hnewType, entry, hmem.mpr (.inr rfl), rfl, hnotDeleted,
          h.ledger.not_strays_entry hold hother⟩
    · rintro ⟨ht, e, he, rfl, hentry⟩
      rcases hmem.mp he with ⟨he, hne⟩ | rfl
      · exact .inl ⟨(h.shown hfind _).mpr ⟨ht, e, he, rfl, hentry⟩, hne⟩
      · exact .inr rfl

/-- An entity goes. -/
theorem Tracks.delete (h : Tracks strays base s σ) (hfind : σ.caches.find? type = some c)
    (hgone : gone ∈ c.entities) (hkeyed : c'.Keyed s.pool) (htype : c'.type = type)
    (hlist : ∀ k, k ∈ c'.entities ↔ k ∈ c.entities ∧ k ≠ gone) :
    Tracks strays base s { σ with
      ledger := List.map (Ledger.deleting gone) σ.ledger
      caches := σ.caches.put c' } := by
  subst htype
  obtain ⟨hgoneType, -, -, -, -, hstray⟩ := h.entry hfind hgone
  -- what is another's than the entity that goes is as it was
  have hmem : ∀ e : LedgerEntry, e.entity ≠ gone →
      (e ∈ List.map (Ledger.deleting gone) σ.ledger ↔ e ∈ σ.ledger) := by
    intro e hne
    constructor
    · intro he
      obtain ⟨d, hd, rfl⟩ := List.mem_map.mp he
      rw [Ledger.entity_deleting] at hne
      rwa [Ledger.deleting, if_neg hne]
    · intro he
      have hdeleting : Ledger.deleting gone e = e := if_neg hne
      exact hdeleting ▸ List.mem_map_of_mem he
  refine h.put (h.ledger.delete hstray) hkeyed (fun _ _ => rfl) ?_ ?_
  · exact fun e hne => hmem e fun heq => hne (heq ▸ hgoneType)
  · intro k
    rw [hlist, h.shown hfind]
    by_cases hk : k = gone
    · subst hk
      refine iff_of_false (fun hshown => hshown.2 rfl) ?_
      rintro ⟨-, e, he, heq, hstate, -⟩
      obtain ⟨e, -, rfl⟩ := List.mem_map.mp he
      rw [Ledger.entity_deleting] at heq
      rw [Ledger.state_deleting, if_pos heq] at hstate
      exact hstate rfl
    · rw [and_iff_left hk]
      refine and_congr_right fun _ => exists_congr fun e => and_congr_left fun hentry => ?_
      exact (hmem e fun heq => hk (hentry.1.symm.trans heq)).symm

variable {entries : Ledger}

/-- A type is checked out. -/
theorem Tracks.load (h : Tracks strays base s σ) (hfind : σ.caches.find? type = none)
    (hentries : Ledger.Copies s.pool σ.ledger entries) (hkeyed : c.Keyed s.pool)
    (htype : c.type = type) (hlist : c.entities = entries.map LedgerEntry.entity)
    {content : EntityId → Option Snapshot}
    (hcontent : ∀ id x, content id = some x ↔
      ∃ e ∈ entries, s.pool.id e.entity = some id ∧ e.snapshot = x) :
    Tracks strays (Function.update base type content) s { σ with
      ledger := σ.ledger ++ entries
      caches := σ.caches.put c } := by
  subst htype
  have htyped : ∀ e ∈ entries, s.pool.typeName e.entity = c.type := fun e he =>
    hkeyed.typed _ (hlist ▸ List.mem_map_of_mem he)
  have huntouched : ∀ e ∈ σ.ledger, ¬ strays e.entity → s.pool.typeName e.entity ≠ c.type :=
    fun e he hstray heq => h.checkedOut e he hstray (heq ▸ hfind)
  have hids : (entries.map fun e => s.pool.id e.entity).Nodup := by
    refine hentries.nodup.of_map.map_on fun a ha b hb heq => ?_
    obtain ⟨id, hid⟩ := Option.ne_none_iff_exists'.mp (hentries.live a ha).2
    have hmem : ∀ e ∈ entries, e.entity ∈ c.entities := fun e he => hlist ▸ List.mem_map_of_mem he
    exact List.inj_on_of_nodup_map hentries.nodup ha hb
      (Pool.eq_of_id_eq hkeyed.ids (hmem a ha) (hmem b hb) hid (heq ▸ hid))
  refine h.put (h.ledger.load hentries htyped huntouched hids hcontent) hkeyed
    (fun t hne => Function.update_of_ne hne _ _) ?_ ?_
  · intro e hne
    rw [List.mem_append]
    exact or_iff_left fun he => hne (htyped e he)
  · intro k
    rw [hlist, List.mem_map]
    constructor
    · rintro ⟨e, he, rfl⟩
      refine ⟨htyped e he, e, List.mem_append_right _ he, rfl, ?_,
        h.ledger.not_strays_copies hentries e he⟩
      rw [(hentries.clean e he).1]
      decide
    · rintro ⟨ht, e, he, rfl, -, hstray⟩
      rcases List.mem_append.mp he with he | he
      · exact absurd ht (huntouched e he hstray)
      · exact ⟨e, he, rfl⟩

/-- A checkout fails, and leaves copies behind. -/
theorem Tracks.strand (h : Tracks strays base s σ)
    (hentries : Ledger.Copies s.pool σ.ledger entries) :
    Tracks (fun h => strays h ∨ ∃ e ∈ entries, e.entity = h) base s
      { σ with ledger := σ.ledger ++ entries } := by
  refine ⟨h.ledger.strand hentries, h.keyed, ?_, ?_, h.unopened⟩
  · refine List.forall_mem_append.mpr ⟨?_, ?_⟩
    · exact fun e he hstray => h.checkedOut e he fun hs => hstray (.inl hs)
    · exact fun e he hstray => absurd (.inr ⟨e, he, rfl⟩) hstray
  · intro t c hfind k
    rw [h.shown hfind]
    refine and_congr_right fun _ => ?_
    constructor
    · rintro ⟨e, he, rfl, hstate, hstray⟩
      exact ⟨e, List.mem_append_left _ he, rfl, hstate,
        fun hs => hstray (hentries.strays_of_mem he hs)⟩
    · rintro ⟨e, he, rfl, hstate, hstray⟩
      rcases List.mem_append.mp he with he | he
      · exact ⟨e, he, rfl, hstate, fun hs => hstray (.inl hs)⟩
      · exact absurd (.inr ⟨e, he, rfl⟩) hstray

end Session

end EntityStore
