import EntityStore.Proofs.Repository.Sequences
import EntityStore.Proofs.Repository.Upkeep

/-!
# Commits keep up the repository

A commit stages its changes on copies of caches, finishes the copies and puts them in the place of
what was there. A copy may list entities without ids until it is finished; the check and the
numbering come between the last change and the moment when it becomes a cache of the repository.
Wherever a commit fails, it has loaded types and moved on sequences, and done nothing else.
-/

namespace EntityStore

theorem Caches.mem_put {cs : Caches} {c d : Cache} (hd : d ∈ cs.put c) : d = c ∨ d ∈ cs := by
  induction cs with
  | nil => exact .inl (List.mem_singleton.mp hd)
  | cons e rest ih =>
    rw [put] at hd
    split at hd
    · exact (List.mem_cons.mp hd).imp_right (List.mem_cons_of_mem e)
    · rcases List.mem_cons.mp hd with rfl | hd
      · exact .inr List.mem_cons_self
      · exact (ih hd).imp_right (List.mem_cons_of_mem e)

namespace Store

variable {s s₀ s' : Store} {staged cs : Caches} {c c' : Cache} {change : Change}
  {changes : Changeset} {type : String}

/-! ## Staging -/

/-- Where a commit stands when some changes are staged. -/
structure Prepared (s₀ : Store) (staged : Caches) (s : Store) : Prop where
  progress : Progress s₀ s
  extended : s₀.pool.Extends s.pool
  /-- No type is staged twice. -/
  types : staged.types.Nodup
  keyed : ∀ c ∈ staged, c.Keyed s.pool
  /-- What is staged has been loaded. -/
  loaded : ∀ type ∈ staged.types, s.repository.caches.find? type ≠ none

theorem prepared_nil (s : Store) : Prepared s [] s :=
  ⟨.refl s, .refl _, List.nodup_nil, fun _ h => absurd h List.not_mem_nil,
    fun _ h => absurd h List.not_mem_nil⟩

/-- The cache that a change is applied to. -/
theorem Prepared.stagedOn (h : Prepared s₀ staged s) (hs : s₀.Upkept) (type : String) :
    Prepared s₀ staged (exec (stagedOn staged type) s).2 ∧
      ∀ c, (exec (Store.stagedOn staged type) s).1 = .ok c → c.type = type ∧
        c.Keyed (exec (Store.stagedOn staged type) s).2.pool ∧
        (exec (Store.stagedOn staged type) s).2.repository.caches.find? type ≠ none := by
  unfold Store.stagedOn
  cases hfind : staged.find? type with
  | some c =>
    refine ⟨h, fun d hd => ?_⟩
    obtain rfl := Except.ok.inj hd
    have htype := Caches.type_of_find? hfind
    have hmem := Caches.mem_of_find? hfind
    exact ⟨htype, h.keyed c hmem, h.loaded type (htype ▸ List.mem_map_of_mem hmem)⟩
  | none =>
    have hup := hs.progress h.progress
    have hextends := extends_checkout s type
    obtain ⟨hprogress, hfound⟩ := hup.checkout type
    have hafter := hup.progress hprogress
    simp only
    refine ⟨⟨h.progress.trans hprogress, h.extended.trans hextends, h.types,
      fun c hc => (h.keyed c hc).extends hextends,
      fun t ht => hprogress.loaded (h.loaded t ht)⟩, fun c hc => ?_⟩
    have hfind' := hfound c hc
    refine ⟨Caches.type_of_find? hfind', hafter.keyed hfind', ?_⟩
    rw [hfind']
    exact Option.some_ne_none c

/-- Staging one change. -/
theorem Prepared.stage (h : Prepared s₀ staged s) (hs : s₀.Upkept)
    (hlive : change.entity < s₀.pool.next) :
    Progress s₀ (exec (stage staged change) s).2 ∧
      ∀ staged', (exec (Store.stage staged change) s).1 = .ok staged' →
        Prepared s₀ staged' (exec (Store.stage staged change) s).2 := by
  obtain ⟨hon, hcache⟩ := h.stagedOn hs (s.pool.typeName change.entity)
  rw [exec_stage]
  rcases hrun : exec (Store.stagedOn staged (s.pool.typeName change.entity)) s with ⟨e | c, s'⟩
  · rw [hrun] at hon
    exact ⟨hon.progress, fun _ hok => by cases hok⟩
  · rw [hrun] at hon hcache
    obtain ⟨htype, hkeyed, hloaded⟩ := hcache c rfl
    have hextends := Cache.extends_apply change c s'.pool
    obtain ⟨htype', hkeyed'⟩ := hkeyed.apply change
    have hlive' : change.entity < s'.pool.next := Nat.lt_of_lt_of_le hlive hon.extended.next_le
    have hholds : ∀ {P : Handle → Entity → Prop}, Lasting P → s'.pool.Holds P →
        (c.apply change s'.pool).2.2.Holds P := by
      intro P hP hp
      rcases Cache.pool_apply change c s'.pool with heq | heq
      · rw [heq]
        exact hp
      · rw [heq]
        exact hp.detach hP hlive'
    simp only at hloaded ⊢
    -- a change that is refused may have made a copy, and nothing else
    rcases happly : c.apply change s'.pool with ⟨e | _, c', pool⟩
    · rw [happly] at hextends hholds
      refine ⟨hon.progress.trans (progress_of_pool hextends.grows fun hP _ hp => hholds hP hp), ?_⟩
      exact fun _ hok => by cases hok
    · rw [happly] at hextends hholds htype' hkeyed'
      have hprogress := hon.progress.trans
        (progress_of_pool hextends.grows fun hP _ hp => hholds hP hp)
      refine ⟨hprogress, fun staged' hok => ?_⟩
      obtain rfl := Except.ok.inj hok
      refine ⟨hprogress, hon.extended.trans hextends, Caches.nodup_types_put staged c' hon.types, ?_, ?_⟩
      · intro d hd
        rcases Caches.mem_put hd with rfl | hd
        · exact hkeyed'
        · exact (hon.keyed d hd).extends hextends
      · intro t ht
        rcases (Caches.mem_types_put staged c').mp ht with rfl | ht
        · rw [htype', htype]
          exact hloaded
        · exact hon.loaded t ht

/-- **Staging a changeset.** -/
theorem Prepared.run (h : Prepared s₀ staged s) (hs : s₀.Upkept)
    (hlive : ∀ c ∈ changes, c.entity < s₀.pool.next) :
    Progress s₀ (exec (changes.foldlM Store.stage staged) s).2 ∧
      ∀ staged', (exec (changes.foldlM Store.stage staged) s).1 = .ok staged' →
        Prepared s₀ staged' (exec (changes.foldlM Store.stage staged) s).2 := by
  induction changes generalizing staged s with
  | nil => exact ⟨h.progress, fun staged' hok => Except.ok.inj hok ▸ h⟩
  | cons change rest ih =>
    obtain ⟨hchange, hrest⟩ := List.forall_mem_cons.mp hlive
    obtain ⟨hprogress, hnext⟩ := h.stage hs hchange
    rw [List.foldlM_cons, exec_bind]
    rcases hrun : exec (Store.stage staged change) s with ⟨e | staged', s'⟩
    · rw [hrun] at hprogress
      exact ⟨hprogress, fun _ hok => by cases hok⟩
    · rw [hrun] at hnext
      exact ih (hnext staged' rfl) hrest

/-! ## Finishing -/

/-- What finishing a cache gives besides: it has been checked, its ids have been reached, and those
that were given were drawn from the sequence. -/
theorem finish_drawn (hc : c.Keyed s.pool) :
    match exec (finish c) s with
    | (.error e, s') => s'.repository = s.repository ∧
        ((s.pool.roster c.entities).UniqueKeys → e = .idsExhausted c.type)
    | (.ok c', s') => c'.Checked s'.pool ∧ c'.type = c.type ∧ c'.entities = c.entities ∧
        (∀ id ∈ (s'.pool.roster c.entities).ids, id.toInt ≤ (s'.repository.lastId c.type).toInt) ∧
        Drawn (s.pool.given s'.pool c.entities)
          ((s.pool.roster c.entities).latest (s.repository.lastId c.type))
          (s'.repository.lastId c.type) := by
  have hspec := finish_spec hc
  have hadvance := Cache.assignIds_advance c.type hc.nodup s.pool
    ((s.pool.roster c.entities).latest (s.repository.lastId c.type))
  rw [exec_finish] at hspec ⊢
  cases hcheck : c.checkUnique s.pool with
  | error e =>
    refine ⟨rfl, fun hunique => ?_⟩
    rw [Cache.checkUnique_eq_ok.mpr hunique] at hcheck
    cases hcheck
  | ok _ =>
    rw [hcheck] at hspec
    simp only at hspec ⊢
    rcases hrun : Cache.assignIds (advance c.type) c.entities s.pool
      ((s.pool.roster c.entities).latest (s.repository.lastId c.type)) with ⟨e | n, pool, last⟩
    · rw [hrun] at hadvance
      exact ⟨rfl, fun _ => hadvance.1⟩
    · rw [hrun] at hspec hadvance
      obtain ⟨hfinishing, hfinished⟩ := hspec
      obtain ⟨-, hnumbered⟩ := hadvance
      have hlast : (s.repository.withLastId c.type last).lastId c.type = last := if_pos rfl
      simp only [hlast]
      refine ⟨hfinished.committed.checked hfinishing.grows hc.live hfinished.finishable.1, rfl, rfl,
        ?_, Cache.assignIds_drawn c.type hc.nodup hrun⟩
      intro id hid
      rcases hnumbered.ids id hid with hold | hnew
      · have hlatest := Roster.id_le_latest (s.repository.lastId c.type) hold
        have hadvanced := hnumbered.advanced
        omega
      · exact hnew.2

/-- What finishing caches gives besides, if it goes through. -/
structure Completed (s : Store) (cs cs' : Caches) (s' : Store) : Prop where
  checked : ∀ c' ∈ cs', c'.Checked s'.pool ∧ ∀ id ∈ (s'.pool.roster c'.entities).ids,
    id.toInt ≤ (s'.repository.lastId c'.type).toInt
  /-- The ids that are given come from the sequences, as they stood after all ids that are held. -/
  drawn : ∀ c ∈ cs, Drawn (s.pool.given s'.pool c.entities)
    ((s.pool.roster c.entities).latest (s.repository.lastId c.type)) (s'.repository.lastId c.type)

/-- Finishing a cache moves no sequence back. -/
theorem advanced_finish (hc : c.Keyed s.pool) (type : String) :
    (s.repository.lastId type).toInt
      ≤ ((exec (finish c) s).2.repository.lastId type).toInt := by
  have hspec := finish_spec hc
  rcases hrun : exec (finish c) s with ⟨e | c', s'⟩
  · rw [hrun] at hspec
    rw [hspec.2.1]
  · rw [hrun] at hspec
    obtain ⟨hfinishing, hfinished⟩ := hspec
    by_cases htype : type = c.type
    · rw [htype]
      have hadvanced := hfinished.numbered.advanced
      have hlatest := Roster.le_latest (s.pool.roster c.entities) (s.repository.lastId c.type)
      simp only
      omega
    · rw [hfinishing.lastId fun hmem => htype (List.mem_singleton.mp hmem)]

/-- **Finishing all caches.** -/
theorem finishAll_completed (htypes : cs.types.Nodup) (hcs : ∀ c ∈ cs, c.Keyed s.pool) :
    (∀ type, (s.repository.lastId type).toInt
      ≤ ((exec (cs.mapM finish) s).2.repository.lastId type).toInt) ∧
      match exec (cs.mapM finish) s with
      | (.error e, _) => (∀ c ∈ cs, (s.pool.roster c.entities).UniqueKeys) →
          ∃ c ∈ cs, e = .idsExhausted c.type
      | (.ok cs', s') => Completed s cs cs' s' := by
  induction cs generalizing s with
  | nil =>
    exact ⟨fun _ => Int.le_refl _, fun _ h => absurd h List.not_mem_nil,
      fun _ h => absurd h List.not_mem_nil⟩
  | cons c rest ih =>
    obtain ⟨htype, hrest⟩ := List.nodup_cons.mp htypes
    obtain ⟨hc, hkeyed⟩ := List.forall_mem_cons.mp hcs
    have hspec := finish_spec hc
    have hdrawn := finish_drawn hc
    have hfirst := advanced_finish hc
    rw [List.mapM_cons, exec_bind]
    rcases hrun : exec (finish c) s with ⟨e | c', s'⟩
    · rw [hrun] at hdrawn hfirst
      exact ⟨hfirst, fun hunique => ⟨c, List.mem_cons_self, hdrawn.2 (hunique c List.mem_cons_self)⟩⟩
    · rw [hrun] at hspec hdrawn hfirst
      obtain ⟨hfinishing, -⟩ := hspec
      obtain ⟨hchecked, htype', hlist, hreached, hdrawnC⟩ := hdrawn
      -- the other caches are of other types, so nothing they list was touched
      have hapart := hfinishing.apart hc htype hkeyed
      have hkept : ∀ d ∈ rest, ∀ k ∈ d.entities, s'.pool.entity k = s.pool.entity k :=
        fun d hd => (hapart d hd).2.2
      have hkeyed' : ∀ d ∈ rest, d.Keyed s'.pool := fun d hd => (hapart d hd).2.1
      obtain ⟨hadvanced, htail⟩ := ih hrest hkeyed'
      have hgrows := (finishing_mapM hrest hkeyed').grows
      simp only [exec_bind, exec_pure]
      rcases hrun' : exec (rest.mapM finish) s' with ⟨e | cs', s''⟩
      · rw [hrun'] at hadvanced htail
        refine ⟨fun t => Int.le_trans (hfirst t) (hadvanced t), fun hunique => ?_⟩
        have hunique' : ∀ d ∈ rest, (s'.pool.roster d.entities).UniqueKeys := by
          intro d hd
          rw [Pool.roster_congr (hkept d hd)]
          exact hunique d (List.mem_cons_of_mem _ hd)
        obtain ⟨d, hd, heq⟩ := htail hunique'
        exact ⟨d, List.mem_cons_of_mem _ hd, heq⟩
      · rw [hrun'] at hadvanced htail hgrows
        have hlisted := hchecked.kept hgrows
        refine ⟨fun t => Int.le_trans (hfirst t) (hadvanced t), ⟨?_, ?_⟩⟩
        · refine List.forall_mem_cons.mpr ⟨⟨hchecked.grows hgrows, fun id hid => ?_⟩, htail.checked⟩
          rw [Pool.roster_congr hlisted, hlist] at hid
          rw [htype']
          exact Int.le_trans (hreached id hid) (hadvanced c.type)
        · refine List.forall_mem_cons.mpr ⟨?_, fun d hd => ?_⟩
          · rw [show s.pool.given s''.pool c.entities = s.pool.given s'.pool c.entities from
              Pool.given_congr (fun _ _ => rfl) fun k hk =>
                congrArg Entity.id (hlisted k (hlist ▸ hk))]
            exact hdrawnC.mono (hadvanced c.type)
          · have hthis := htail.drawn d hd
            rw [Pool.roster_congr (hkept d hd), hfinishing.lastId (hapart d hd).1] at hthis
            rw [show s.pool.given s''.pool d.entities = s'.pool.given s''.pool d.entities from
              Pool.given_congr (fun k hk => (congrArg Entity.id (hkept d hd k hk)).symm)
                fun _ _ => rfl]
            exact hthis

/-- Finishing what is staged is progress, whatever comes of it. -/
theorem Prepared.finishing (h : Prepared s₀ staged s) :
    Progress s (exec (staged.mapM finish) s).2 := by
  obtain ⟨hadvanced, -⟩ := finishAll_completed h.types h.keyed
  have hfinishing := finishing_mapM h.types h.keyed
  have hcaches : (exec (staged.mapM finish) s).2.repository.caches = s.repository.caches := by
    rw [hfinishing.repository]
  refine ⟨hfinishing.grows, by rw [hfinishing.repository], ?_, fun _ => hadvanced _, ?_,
    fun hP _ hs => hs.grows hP hfinishing.grows hfinishing.next⟩
  · intro type hloaded
    rw [hcaches]
    exact hloaded
  · intro type c hfind
    rw [hcaches] at hfind
    exact .inl hfind

/-- The finished caches are put in the place of what was there. -/
theorem progress_of_completed (htypes : cs.types.Nodup)
    (hcs : ∀ c ∈ cs, c.Checked s.pool ∧ ∀ id ∈ (s.pool.roster c.entities).ids,
      id.toInt ≤ (s.repository.lastId c.type).toInt) :
    Progress s { s with repository := cs.foldl .withCache s.repository } := by
  rw [foldl_withCache]
  refine ⟨.refl _, rfl, ?_, fun _ => Int.le_refl _, ?_, fun _ _ hs => hs⟩
  · intro type hloaded
    simp only [Caches.find?_foldl_put type htypes]
    intro hnone
    exact hloaded (Option.or_eq_none_iff.mp hnone).2
  · intro type c hfind
    simp only [Caches.find?_foldl_put type htypes] at hfind
    rcases Option.or_eq_some_iff.mp hfind with hnew | ⟨-, hold⟩
    · obtain ⟨hchecked, hreached⟩ := hcs c (Caches.mem_of_find? hnew)
      rw [Caches.type_of_find? hnew] at hreached
      exact .inr ⟨hchecked, hreached⟩
    · exact .inl hold

/-- Writing a table changes nothing but the table. -/
theorem dump_keeps (c : Cache) (s : Store) :
    (exec (dump c) s).2.pool = s.pool ∧ (exec (dump c) s).2.repository = s.repository := by
  unfold dump
  rw [exec_bind, exec_get]
  simp only
  cases s.repository.format? c.type with
  | none => exact ⟨rfl, rfl⟩
  | some format =>
    simp only [exec_bind, exec_ofExcept]
    rcases (format.dump s.directory (c.entities.map s.pool.entity)).mapError StoreError.persist
      with _ | _ <;>
    exact ⟨rfl, rfl⟩

theorem forM_dump_keeps (cs : Caches) (s : Store) :
    (exec (cs.forM dump) s).2.pool = s.pool ∧ (exec (cs.forM dump) s).2.repository = s.repository := by
  induction cs generalizing s with
  | nil => exact ⟨rfl, rfl⟩
  | cons c rest ih =>
    obtain ⟨hpool, hrepository⟩ := dump_keeps c s
    rw [show exec ((c :: rest).forM dump) s = exec (dump c >>= fun _ => rest.forM dump) s from rfl,
      exec_bind]
    rcases hrun : exec (dump c) s with ⟨e | _, s'⟩
    · rw [hrun] at hpool hrepository
      exact ⟨hpool, hrepository⟩
    · rw [hrun] at hpool hrepository
      obtain ⟨hpool', hrepository'⟩ := ih s'
      exact ⟨hpool'.trans hpool, hrepository'.trans hrepository⟩

/-- Writing tables is no step for the repository. -/
theorem progress_dump (cs : Caches) (s : Store) : Progress s (exec (cs.forM dump) s).2 := by
  obtain ⟨hpool, hrepository⟩ := forM_dump_keeps cs s
  refine ⟨hpool ▸ .refl _, by rw [hrepository], ?_, ?_, ?_, fun _ _ hs => hpool ▸ hs⟩
  · intro type hloaded
    rw [hrepository]
    exact hloaded
  · intro type _
    rw [hrepository]
  · intro type c hfind
    rw [hrepository] at hfind
    exact .inl hfind

/-- Once all is staged, the rest of a commit is progress. -/
theorem Upkept.commit_of_staged (hs : s.Upkept) (hlive : ∀ c ∈ changes, c.entity < s.pool.next) :
    Progress (exec (changes.foldlM Store.stage []) s).2 (exec (commit changes) s).2 := by
  obtain ⟨-, hprepared⟩ := (prepared_nil s).run hs hlive
  unfold Store.commit
  rw [exec_bind, exec_applyAll]
  rcases hrun : exec (changes.foldlM Store.stage []) s with ⟨e | staged, s₁⟩
  · exact .refl s₁
  · rw [hrun] at hprepared
    have hready := hprepared staged rfl
    have hfinishing := hready.finishing
    have hspec := finishAll_spec hready.types hready.keyed
    obtain ⟨-, hcompleted⟩ := finishAll_completed hready.types hready.keyed
    simp only at hfinishing hspec hcompleted ⊢
    rcases hrun' : exec (staged.mapM finish) s₁ with ⟨e | cs, s₂⟩
    · rw [hrun'] at hfinishing
      exact hfinishing
    · rw [hrun'] at hfinishing hspec hcompleted
      have htypes : Caches.types cs = staged.types := hspec.2.2.1
      have hput := progress_of_completed (htypes ▸ hready.types) hcompleted.checked
      exact (hfinishing.trans hput).trans (progress_dump cs _)

/-- **Committing.** -/
theorem Upkept.commit (hs : s.Upkept) (hlive : ∀ c ∈ changes, c.entity < s.pool.next) :
    Progress s (exec (commit changes) s).2 :=
  ((prepared_nil s).run hs hlive).1.trans (hs.commit_of_staged hlive)

end Store

end EntityStore
