import EntityStore.Proofs.Repository.Lookups
import EntityStore.Proofs.Session.Entering

/-!
# Ledger and caches agree

A session keeps two records of the entities it works with: its ledger and its caches. They are
*coherent* when the caches list what is tracked and has not been removed, and nothing else. A type
is checked out by registering copies of what is committed and then making a cache of them; where
that fails, because two copies share a key, copies are left behind that are tracked and not listed.
So what is to be listed is said relative to the handles that somebody knows of, and these are never
the handles of such copies. Where the store is tidy no checkout fails halfway, and all handles may
be known.

Every move of a session keeps it coherent: caches are put back as they were, an entity comes in and
takes the place of another or its own, one goes, or a type is checked out.
-/

namespace EntityStore

/-- A store that keeps no key twice: its caches have been checked, and no slug depends on an id. -/
structure Store.Tidy (s : Store) : Prop where
  checked : s.AllChecked
  slugFixed : s.SlugFixed

namespace Store.Tidy

variable {s s' : Store} {type : String} {c : Cache}

theorem progress (hs : s.Tidy) (h : Progress s s') : s'.Tidy :=
  ⟨AllChecked.progress hs.checked h, hs.slugFixed.progress h⟩

/-- What others do leaves a store tidy, as long as they leave the entities of the repository alone. -/
theorem meanwhile (hs : s.Tidy) (h : s.Meanwhile Eq s') (hfixed : s'.SlugFixed) : s'.Tidy :=
  ⟨AllChecked.meanwhile hs.checked h, hfixed⟩

theorem uniqueKeys (hs : s.Tidy) (hfind : s.repository.caches.find? type = some c) :
    (s.pool.roster c.entities).UniqueKeys :=
  (hs.checked hfind).uniqueKeys fun h hh => hs.slugFixed.pool h ((hs.checked hfind).live h hh)

end Store.Tidy

theorem Store.Untouched.tidy {s : Store} (h : s.Untouched) (hfixed : s.SlugFixed) : s.Tidy :=
  ⟨h.allChecked, hfixed⟩

/-- What is known lives already, or no checkout leaves copies behind. -/
def Store.Calm (known : Handle → Prop) (s : Store) : Prop :=
  (∀ h, known h → h < s.pool.next) ∨ s.Tidy

theorem Store.Calm.progress {known : Handle → Prop} {s s' : Store} (hs : s.Calm known)
    (h : Progress s s') : s'.Calm known :=
  hs.imp (fun hlive k hk => Nat.lt_of_lt_of_le (hlive k hk) h.pool.next_le) fun htidy =>
    htidy.progress h

namespace Session

/-- An invariant of sessions, and of the store they work on. -/
structure Coherent (known : Handle → Prop) (w : Work) : Prop where
  store : w.store.Upkept
  calm : w.store.Calm known
  ledger : w.session.ledger.Formed w.store.pool
  keyed : ∀ {t c}, w.session.caches.find? t = some c → c.Keyed w.store.pool
  /-- What is listed is tracked, and has not been removed. -/
  shown : ∀ {t c}, w.session.caches.find? t = some c → ∀ h ∈ c.entities,
    ∃ e ∈ w.session.ledger, e.entity = h ∧ e.state ≠ .deleted
  /-- What is known and tracked, and has not been removed, is listed. -/
  listed : ∀ e ∈ w.session.ledger, known e.entity → e.state ≠ .deleted →
    ∃ c, w.session.caches.find? (w.store.pool.typeName e.entity) = some c ∧ e.entity ∈ c.entities
  /-- The types of what has been removed are checked out. -/
  gone : ∀ e ∈ w.session.ledger, e.state = .deleted →
    w.session.caches.find? (w.store.pool.typeName e.entity) ≠ none

variable {known : Handle → Prop} {w : Work} {s : Store} {type : String} {c c' : Cache}
  {old gone : Handle} {entries : Ledger}

/-- What is listed still is when the cache of a type is put back, unless that has lost it. -/
theorem lists_put {cs : Caches} {d : Cache} {t : String} {k : Handle}
    (hfind : cs.find? c'.type = some c) (hd : cs.find? t = some d) (hk : k ∈ d.entities)
    (hkept : k ∈ c.entities → k ∈ c'.entities) :
    ∃ d', (cs.put c').find? t = some d' ∧ k ∈ d'.entities := by
  by_cases ht : c'.type = t
  · obtain rfl : c = d := Option.some.inj (hfind.symm.trans (ht ▸ hd))
    exact ⟨c', ht ▸ Caches.find?_put_self cs c', hkept hk⟩
  · refine ⟨d, ?_, hk⟩
    rw [Caches.find?_put_of_ne ht]
    exact hd

/-- A session that tracks nothing. -/
theorem coherent_nil (hs : s.Upkept) (hcalm : s.Calm known) (poisoned : Bool) :
    Coherent known ⟨s, ⟨[], [], poisoned⟩⟩ where
  store := hs
  calm := hcalm
  ledger := ⟨List.nodup_nil, fun _ he => absurd he List.not_mem_nil,
    fun _ he => absurd he List.not_mem_nil⟩
  keyed := fun hfind => by cases hfind
  shown := fun hfind => by cases hfind
  listed := fun _ he => absurd he List.not_mem_nil
  gone := fun _ he => absurd he List.not_mem_nil

/-- Types and ids of what is tracked are all that matters of the pool. -/
theorem Coherent.congr (h : Coherent known w) (hs : s.Upkept) (hcalm : s.Calm known)
    (hnext : w.store.pool.next ≤ s.pool.next)
    (hid : ∀ e ∈ w.session.ledger, s.pool.id e.entity = w.store.pool.id e.entity)
    (htype : ∀ e ∈ w.session.ledger, s.pool.typeName e.entity = w.store.pool.typeName e.entity) :
    Coherent known { w with store := s } where
  store := hs
  calm := hcalm
  ledger := h.ledger.congr hnext hid
  keyed := by
    intro t c hfind
    refine (h.keyed hfind).congr_keys hnext ?_ ?_
    · intro k hk
      obtain ⟨e, he, rfl, -⟩ := h.shown hfind k hk
      exact hid e he
    · intro k hk
      obtain ⟨e, he, rfl, -⟩ := h.shown hfind k hk
      exact htype e he
  shown := h.shown
  listed := fun e he => by
    rw [htype e he]
    exact h.listed e he
  gone := fun e he => by
    rw [htype e he]
    exact h.gone e he

/-- A session stays coherent while the store goes on. -/
theorem Coherent.progress (h : Coherent known w) (hs : Store.Progress w.store s) :
    Coherent known { w with store := s } := by
  refine h.congr (h.store.progress hs) (h.calm.progress hs) hs.pool.next_le ?_ ?_
  · exact fun e he => hs.pool.id (h.ledger.live e he).1 (h.ledger.live e he).2
  · exact fun e he => hs.pool.typeName (h.ledger.live e he).1

/-- Only what the caches list matters, not their indexes. -/
theorem Coherent.relist (h : Coherent known w) {cs : Caches}
    (hcs : w.session.caches.Relists w.store.pool cs) :
    Coherent known { w with session := { w.session with caches := cs } } where
  store := h.store
  calm := h.calm
  ledger := h.ledger
  keyed := fun hfind => (hcs.same hfind).1
  shown := by
    intro t c' hfind k hk
    obtain ⟨-, c, hc, hentities⟩ := hcs.same hfind
    exact h.shown hc k (hentities ▸ hk)
  listed := by
    intro e he hknown hstate
    obtain ⟨c, hc, hmem⟩ := h.listed e he hknown hstate
    cases hfind : cs.find? (w.store.pool.typeName e.entity) with
    | none =>
      rw [hcs.none.mp hfind] at hc
      cases hc
    | some c' =>
      obtain ⟨-, d, hd, hentities⟩ := hcs.same hfind
      obtain rfl : c = d := Option.some.inj (hc.symm.trans hd)
      exact ⟨c', rfl, hentities ▸ hmem⟩
  gone := fun e he hstate => mt hcs.none.mp (h.gone e he hstate)

/-- Putting back a cache that lists the same entities. -/
theorem Coherent.put (h : Coherent known w) (hfind : w.session.caches.find? type = some c)
    (htype : c'.type = c.type) (hlist : c'.entities = c.entities) (hkeyed : c'.Keyed w.store.pool) :
    Coherent known { w with session := { w.session with caches := w.session.caches.put c' } } :=
  h.relist (Caches.relists_put h.keyed hfind (htype.trans (Caches.type_of_find? hfind)) hlist hkeyed)

/-- The entities of a cache are of its type. -/
theorem Coherent.typeName (h : Coherent known w) (hfind : w.session.caches.find? type = some c)
    {k : Handle} (hk : k ∈ c.entities) : w.store.pool.typeName k = type :=
  ((h.keyed hfind).typed k hk).trans (Caches.type_of_find? hfind)

/-- An entity comes in, and takes the place of another or its own. -/
theorem Coherent.enter (h : Coherent known w) (hfind : w.session.caches.find? type = some c)
    (hkeyed : c'.Keyed w.store.pool) (htype : c'.type = c.type) {entry : LedgerEntry}
    (hlist : ∀ k, k ∈ c'.entities ↔ k ∈ c.entities ∧ k ≠ old ∨ k = entry.entity)
    (hnumbered : w.store.pool.id entry.entity ≠ none) (hold : w.store.pool.typeName old = type)
    (hother : ∀ e ∈ w.session.ledger, e.entity ≠ old → e.entity ≠ entry.entity)
    (hstate : entry.state = entry.origin) (horigin : entry.origin = .new ∨ entry.origin = .clean) :
    Coherent known { w with session := { w.session with
      ledger := List.filter (fun e => e.entity != old) w.session.ledger ++ [entry]
      caches := w.session.caches.put c' } } := by
  have hputType : c'.type = type := htype.trans (Caches.type_of_find? hfind)
  have hnew : entry.entity ∈ c'.entities := (hlist _).mpr (.inr rfl)
  have hmem : ∀ {e : LedgerEntry},
      e ∈ List.filter (fun e : LedgerEntry => e.entity != old) w.session.ledger ++ [entry] ↔
        e ∈ w.session.ledger ∧ e.entity ≠ old ∨ e = entry := by
    intro e
    rw [List.mem_append, Ledger.mem_filter_ne, List.mem_singleton]
  have hnotDeleted : entry.state ≠ .deleted := by
    rw [hstate]
    rcases horigin with heq | heq <;> simp [heq]
  refine ⟨h.store, h.calm, ?_, ?_, ?_, ?_, ?_⟩
  · exact h.ledger.enter hother (hkeyed.live _ hnew) hnumbered hstate horigin
  · intro t d hd
    rcases Caches.find?_put_eq_some.mp hd with ⟨-, rfl⟩ | ⟨-, hd⟩
    · exact hkeyed
    · exact h.keyed hd
  · intro t d hd k hk
    rcases Caches.find?_put_eq_some.mp hd with ⟨-, rfl⟩ | ⟨hne, hd⟩
    · rcases (hlist k).mp hk with ⟨hk, hko⟩ | rfl
      · obtain ⟨e, he, rfl, hstate⟩ := h.shown hfind k hk
        exact ⟨e, hmem.mpr (.inl ⟨he, hko⟩), rfl, hstate⟩
      · exact ⟨entry, hmem.mpr (.inr rfl), rfl, hnotDeleted⟩
    -- no other cache lists `old`, which is of the type of this one
    · obtain ⟨e, he, rfl, hstate⟩ := h.shown hd k hk
      refine ⟨e, hmem.mpr (.inl ⟨he, fun heo => ?_⟩), rfl, hstate⟩
      exact hne (by rw [hputType, ← hold, ← heo, h.typeName hd hk])
  · intro e he hknown hstate
    rcases hmem.mp he with ⟨he, heo⟩ | rfl
    · obtain ⟨d, hd, hk⟩ := h.listed e he hknown hstate
      exact lists_put (hputType ▸ hfind) hd hk fun hk => (hlist _).mpr (.inl ⟨hk, heo⟩)
    · exact ⟨c', hkeyed.typed _ hnew ▸ Caches.find?_put_self _ c', hnew⟩
  · intro e he hdeleted hnone
    rcases hmem.mp he with ⟨he, -⟩ | rfl
    · exact h.gone e he hdeleted (Caches.find?_put_eq_none.mp hnone).2
    · exact hnotDeleted hdeleted

/-- An entity goes. -/
theorem Coherent.delete (h : Coherent known w) (hfind : w.session.caches.find? type = some c)
    (hgone : gone ∈ c.entities) (hkeyed : c'.Keyed w.store.pool) (htype : c'.type = c.type)
    (hlist : ∀ k, k ∈ c'.entities ↔ k ∈ c.entities ∧ k ≠ gone) :
    Coherent known { w with session := { w.session with
      ledger := List.map (Ledger.deleting gone) w.session.ledger
      caches := w.session.caches.put c' } } := by
  have hputType : c'.type = type := htype.trans (Caches.type_of_find? hfind)
  have hgoneType := h.typeName hfind hgone
  -- an entity that is another's than the one that goes is tracked as before
  have hentry : ∀ {k}, k ≠ gone → (∃ e ∈ w.session.ledger, e.entity = k ∧ e.state ≠ .deleted) →
      ∃ e ∈ List.map (Ledger.deleting gone) w.session.ledger, e.entity = k ∧ e.state ≠ .deleted := by
    rintro k hk ⟨e, he, rfl, hstate⟩
    refine ⟨_, List.mem_map_of_mem he, Ledger.entity_deleting gone e, ?_⟩
    rw [Ledger.state_deleting, if_neg hk]
    exact hstate
  refine ⟨h.store, h.calm, h.ledger.delete gone, ?_, ?_, ?_, ?_⟩
  · intro t d hd
    rcases Caches.find?_put_eq_some.mp hd with ⟨-, rfl⟩ | ⟨-, hd⟩
    · exact hkeyed
    · exact h.keyed hd
  · intro t d hd k hk
    rcases Caches.find?_put_eq_some.mp hd with ⟨-, rfl⟩ | ⟨hne, hd⟩
    · obtain ⟨hk, hkg⟩ := (hlist k).mp hk
      exact hentry hkg (h.shown hfind k hk)
    · refine hentry (fun heq => hne ?_) (h.shown hd k hk)
      rw [hputType, ← hgoneType, ← heq, h.typeName hd hk]
  · refine List.forall_mem_map.mpr fun e he hknown hstate => ?_
    rw [Ledger.entity_deleting] at hknown ⊢
    rw [Ledger.state_deleting] at hstate
    have hkg : e.entity ≠ gone := fun heq => hstate (if_pos heq)
    rw [if_neg hkg] at hstate
    obtain ⟨d, hd, hk⟩ := h.listed e he hknown hstate
    exact lists_put (hputType ▸ hfind) hd hk fun hk => (hlist _).mpr ⟨hk, hkg⟩
  · refine List.forall_mem_map.mpr fun e he hstate hnone => ?_
    rw [Ledger.entity_deleting] at hnone
    obtain ⟨hne, hnone⟩ := Caches.find?_put_eq_none.mp hnone
    by_cases heg : e.entity = gone
    · exact hne (by rw [hputType, heg, hgoneType])
    · rw [Ledger.state_deleting, if_neg heg] at hstate
      exact h.gone e he hstate hnone

/-! ## Checking out -/

/-- Copies are registered, and listed unless nobody knows of them. -/
theorem Coherent.enroll (h : Coherent known w) (cs : Caches) (hentries : entries.Formed w.store.pool)
    (hfresh : ∀ e ∈ entries, ∀ d ∈ w.session.ledger, d.entity ≠ e.entity)
    (hclean : ∀ e ∈ entries, e.state = .clean)
    (hcs : ∀ {t c}, cs.find? t = some c → w.session.caches.find? t = some c ∨
      c.Keyed w.store.pool ∧ c.entities = entries.map LedgerEntry.entity)
    (hold : ∀ {t c}, w.session.caches.find? t = some c → cs.find? t = some c)
    (hlisted : ∀ e ∈ entries, known e.entity →
      ∃ c, cs.find? (w.store.pool.typeName e.entity) = some c ∧ e.entity ∈ c.entities) :
    Coherent known { w with session := { w.session with
      ledger := w.session.ledger ++ entries
      caches := cs } } where
  store := h.store
  calm := h.calm
  ledger := h.ledger.append hentries hfresh
  keyed := by
    intro t c hc
    rcases hcs hc with hc | ⟨hkeyed, -⟩
    · exact h.keyed hc
    · exact hkeyed
  shown := by
    intro t c hc k hk
    rcases hcs hc with hc | ⟨-, hlist⟩
    · obtain ⟨e, he, hentry⟩ := h.shown hc k hk
      exact ⟨e, List.mem_append_left _ he, hentry⟩
    · rw [hlist] at hk
      obtain ⟨e, he, rfl⟩ := List.mem_map.mp hk
      refine ⟨e, List.mem_append_right _ he, rfl, ?_⟩
      rw [hclean e he]
      decide
  listed := by
    refine List.forall_mem_append.mpr ⟨fun e he hknown hstate => ?_, fun e he hknown _ => ?_⟩
    · obtain ⟨c, hc, hk⟩ := h.listed e he hknown hstate
      exact ⟨c, hold hc, hk⟩
    · exact hlisted e he hknown
  gone := by
    refine List.forall_mem_append.mpr ⟨fun e he hstate => ?_, fun e he hstate => ?_⟩
    · obtain ⟨c, hc⟩ := Option.ne_none_iff_exists'.mp (h.gone e he hstate)
      show cs.find? (w.store.pool.typeName e.entity) ≠ none
      rw [hold hc]
      exact Option.some_ne_none c
    · rw [hclean e he] at hstate
      cases hstate

end Session

end EntityStore
