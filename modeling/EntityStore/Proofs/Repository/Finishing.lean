import EntityStore.Proofs.Repository.Staging

/-!
# Checking and numbering what is staged

The second half of a commit takes the staged caches one after the other. Each is checked for keys
held twice and numbered from its type's sequence, and the sequence is moved on there and then. If
one of them fails, the caches stay as they were; the sequences of those that came before it have
been moved on.
-/

namespace EntityStore

/-- There is an id left, beyond a sequence and the ids that are held, for every entity that has
none. -/
def Roster.Roomy (r : Roster) (last : EntityId) : Prop :=
  (r.latest last).toInt + r.unnumbered ≤ EntityId.last.toInt

instance (r : Roster) (last : EntityId) : Decidable (r.Roomy last) :=
  inferInstanceAs (Decidable ((r.latest last).toInt + r.unnumbered ≤ EntityId.last.toInt))

namespace Store

variable {s s' : Store} {c c' d : Cache} {cs : Caches}

/-- A staged cache can be finished: no key is held twice, and there are ids enough. -/
def Finishable (s : Store) (c : Cache) : Prop :=
  (s.pool.roster c.entities).UniqueKeys ∧
    (s.pool.roster c.entities).Roomy (s.repository.lastId c.type)

/-- What finishing caches changes: sequences of their types, and ids of what they list. -/
structure Finishing (s : Store) (cs : Caches) (s' : Store) : Prop where
  directory : s'.directory = s.directory
  repository : s'.repository = { s.repository with lastId := s'.repository.lastId }
  lastId : ∀ {type}, type ∉ cs.types → s'.repository.lastId type = s.repository.lastId type
  grows : s.pool.Grows s'.pool
  next : s'.pool.next = s.pool.next
  kept : ∀ {k}, (∀ c ∈ cs, k ∉ c.entities) ∨ s.pool.id k ≠ none →
    s'.pool.entity k = s.pool.entity k

theorem Finishing.refl (s : Store) (cs : Caches) : Finishing s cs s :=
  ⟨rfl, rfl, fun _ => rfl, .refl _, rfl, fun _ => rfl⟩

theorem Finishing.cons {s'' : Store} (h : Finishing s [c] s') (h' : Finishing s' cs s'') :
    Finishing s (c :: cs) s'' where
  directory := h'.directory.trans h.directory
  repository := by rw [h'.repository, h.repository]
  lastId := by
    intro type htype
    have hc : type ∉ Caches.types [c] := fun hmem =>
      htype (List.mem_singleton.mp hmem ▸ List.mem_cons_self)
    have hcs : type ∉ cs.types := fun hmem => htype (List.mem_cons_of_mem _ hmem)
    rw [h'.lastId hcs, h.lastId hc]
  grows := h.grows.trans h'.grows
  next := h'.next.trans h.next
  kept := by
    intro k hk
    have hfirst : s'.pool.entity k = s.pool.entity k := by
      refine h.kept (hk.imp_left fun hall => ?_)
      exact List.forall_mem_singleton.mpr (hall c List.mem_cons_self)
    rw [h'.kept, hfirst]
    rcases hk with hall | hid
    · exact .inl fun d hd => hall d (List.mem_cons_of_mem _ hd)
    · rw [Pool.id, hfirst]
      exact .inr hid

/-- Finishing some caches leaves one of another type alone. -/
theorem Finishing.kept_of_typed (h : Finishing s cs s') (hcs : ∀ d ∈ cs, d.Keyed s.pool)
    (hc : c.Keyed s.pool) (htype : c.type ∉ cs.types) :
    ∀ k ∈ c.entities, s'.pool.entity k = s.pool.entity k := by
  intro k hk
  refine h.kept (.inl fun d hd hkd => htype ?_)
  rw [← hc.typed k hk, (hcs d hd).typed k hkd]
  exact List.mem_map_of_mem hd

/-- Finishing one cache leaves the others, of other types, as they are. -/
theorem Finishing.apart {rest : Caches} (h : Finishing s [c] s') (hc : c.Keyed s.pool)
    (htype : c.type ∉ rest.types) (hrest : ∀ d ∈ rest, d.Keyed s.pool) :
    ∀ d ∈ rest, d.type ∉ Caches.types [c] ∧ d.Keyed s'.pool ∧
      ∀ k ∈ d.entities, s'.pool.entity k = s.pool.entity k := by
  intro d hd
  have hother : d.type ∉ Caches.types [c] := by
    intro hmem
    exact htype (List.mem_singleton.mp hmem ▸ List.mem_map_of_mem hd)
  have hkept := h.kept_of_typed (List.forall_mem_singleton.mpr hc) (hrest d hd) hother
  exact ⟨hother, (hrest d hd).congr (Nat.le_of_eq h.next.symm) hkept, hkept⟩

/-- What finishing a cache gives. -/
structure Finished (s : Store) (c c' : Cache) (s' : Store) : Prop where
  finishable : s.Finishable c
  type : c'.type = c.type
  entities : c'.entities = c.entities
  committed : c'.Committed s'.pool
  numbered : Cache.Numbered c.entities s.pool s'.pool
    ((s.pool.roster c.entities).latest (s.repository.lastId c.type)) (s'.repository.lastId c.type)

/-- **Finishing one cache** -/
theorem finish_spec (hc : c.Keyed s.pool) :
    match exec (finish c) s with
    | (.error _, s') => Finishing s [c] s' ∧ s'.repository = s.repository ∧ ¬ s.Finishable c
    | (.ok c', s') => Finishing s [c] s' ∧ Finished s c c' s' := by
  obtain ⟨hgrows, hnext, hkept⟩ := Cache.assignIds_frame (advance c.type) c.entities s.pool
    ((s.pool.roster c.entities).latest (s.repository.lastId c.type))
  have hadvance := Cache.assignIds_advance c.type hc.nodup s.pool
    ((s.pool.roster c.entities).latest (s.repository.lastId c.type))
  rw [exec_finish]
  cases hcheck : c.checkUnique s.pool with
  | error e =>
    refine ⟨.refl s [c], rfl, ?_⟩
    rintro ⟨hunique, -⟩
    rw [Cache.checkUnique_eq_ok.mpr hunique] at hcheck
    cases hcheck
  | ok _ =>
    have hunique := Cache.checkUnique_eq_ok.mp hcheck
    simp only
    rcases hrun : Cache.assignIds (advance c.type) c.entities s.pool
      ((s.pool.roster c.entities).latest (s.repository.lastId c.type)) with ⟨e | n, pool, last⟩
    · rw [hrun] at hgrows hnext hkept hadvance
      refine ⟨⟨rfl, rfl, fun _ => rfl, hgrows, hnext, ?_⟩, rfl, ?_⟩
      · intro k hk
        exact hkept k (hk.imp_left fun h => h c List.mem_cons_self)
      · rintro ⟨-, hroomy⟩
        have hfull := hadvance.2
        unfold Roster.Roomy at hroomy
        omega
    · rw [hrun] at hgrows hnext hkept hadvance
      obtain ⟨-, hnumbered⟩ := hadvance
      have hlast : (s.repository.withLastId c.type last).lastId c.type = last := if_pos rfl
      have hroomy : (s.pool.roster c.entities).Roomy (s.repository.lastId c.type) := by
        have hadvanced := hnumbered.advanced
        have hbound := EntityId.toInt_le_last last
        unfold Roster.Roomy
        omega
      refine ⟨⟨rfl, rfl, ?_, hgrows, hnext, ?_⟩, ⟨hunique, hroomy⟩, rfl, rfl, ?_, ?_⟩
      · intro type htype
        exact if_neg fun heq => htype (List.mem_singleton.mpr heq)
      · intro k hk
        exact hkept k (hk.imp_left fun h => h c List.mem_cons_self)
      · refine Cache.committed_rebuild ?_ ?_ hc.nodup ?_ hnumbered.all
        · intro h hh
          rw [hnext]
          exact hc.live h hh
        · intro h hh
          rw [hgrows.typeName (hc.live h hh)]
          exact hc.typed h hh
        · exact hnumbered.unique hunique.ids fun id hid => Roster.id_le_latest _ hid
      · rw [hlast]
        exact hnumbered

/-- Whether a cache can be finished is not affected by finishing caches of other types. -/
theorem Finishing.finishable_iff (h : Finishing s cs s') (hcs : ∀ d ∈ cs, d.Keyed s.pool)
    (hc : c.Keyed s.pool) (htype : c.type ∉ cs.types) : s'.Finishable c ↔ s.Finishable c := by
  rw [Finishable, Finishable, Pool.roster_congr (h.kept_of_typed hcs hc htype), h.lastId htype]

/-- **Finishing all caches** goes through exactly when each can be finished. -/
theorem finishAll_spec (htypes : cs.types.Nodup) (hcs : ∀ c ∈ cs, c.Keyed s.pool) :
    match exec (cs.mapM finish) s with
    | (.error _, s') => Finishing s cs s' ∧ ¬ ∀ c ∈ cs, s.Finishable c
    | (.ok cs', s') => Finishing s cs s' ∧ (∀ c ∈ cs, s.Finishable c) ∧
        Caches.types cs' = cs.types ∧ ∀ c' ∈ cs', c'.Committed s'.pool ∧
          ∃ c ∈ cs, c'.type = c.type ∧ c'.entities = c.entities := by
  induction cs generalizing s with
  | nil =>
    exact ⟨.refl s [], fun _ h => absurd h List.not_mem_nil, rfl,
      fun _ h => absurd h List.not_mem_nil⟩
  | cons c rest ih =>
    obtain ⟨htype, hrest⟩ := List.nodup_cons.mp htypes
    obtain ⟨hc, hkeyed⟩ := List.forall_mem_cons.mp hcs
    have hfirst := finish_spec hc
    rw [List.mapM_cons, exec_bind]
    rcases hrun : exec (finish c) s with ⟨e | c', s'⟩
    · rw [hrun] at hfirst
      obtain ⟨hfinishing, -, hnot⟩ := hfirst
      exact ⟨hfinishing.cons (.refl s' rest), fun hall => hnot (hall c List.mem_cons_self)⟩
    · rw [hrun] at hfirst
      obtain ⟨hfinishing, hfinished⟩ := hfirst
      have hapart := hfinishing.apart hc htype hkeyed
      have hiff : (∀ d ∈ rest, s'.Finishable d) ↔ ∀ d ∈ rest, s.Finishable d :=
        forall₂_congr fun d hd => hfinishing.finishable_iff (List.forall_mem_singleton.mpr hc)
          (hkeyed d hd) (hapart d hd).1
      have htail := ih hrest fun d hd => (hapart d hd).2.1
      rw [hiff] at htail
      simp only [exec_bind, exec_pure]
      rcases hrun' : exec (rest.mapM finish) s' with ⟨e | cs', s''⟩
      · rw [hrun'] at htail
        obtain ⟨hfinishing', hnot⟩ := htail
        exact ⟨hfinishing.cons hfinishing', fun hall =>
          hnot fun d hd => hall d (List.mem_cons_of_mem _ hd)⟩
      · rw [hrun'] at htail
        obtain ⟨hfinishing', hall, htypes', hcs'⟩ := htail
        refine ⟨hfinishing.cons hfinishing', List.forall_mem_cons.mpr ⟨hfinished.finishable, hall⟩,
          List.cons_eq_cons.mpr ⟨hfinished.type, htypes'⟩, ?_⟩
        intro d' hd'
        rcases List.mem_cons.mp hd' with rfl | hd'
        · exact ⟨hfinished.committed.grows hfinishing'.grows, c, List.mem_cons_self, hfinished.type,
            hfinished.entities⟩
        · obtain ⟨hcommitted, d, hd, hsame⟩ := hcs' d' hd'
          exact ⟨hcommitted, d, List.mem_cons_of_mem _ hd, hsame⟩

end Store

end EntityStore
