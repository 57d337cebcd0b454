import EntityStore.Proofs.Repository.Standing
import EntityStore.Proofs.Repository.Tables

/-!
# What is written of a type

A repository that keeps a type as rows of a table loads it from there, and writes it back whenever a
commit touches it. So at any time one of two things holds. Either nothing has been written, and what
the repository holds is what anybody reads who opens another one over the directory. Or the file of the
table is made of the rows of what the repository holds. Every step of the repository keeps this up,
whatever comes of it: a commit that is refused writes nothing.
-/

namespace EntityStore.Store

variable {format : RowFormat} {d : Directory} {s s' : Store} {type : String} {c : Cache} {cs : Caches}
  {change : Change} {changes : Changeset}

/-- A store on which nothing has been asked, over the directory of another. -/
def reopened (s : Store) (format : RowFormat) : Store :=
  { s with repository := (Repository.empty s.repository.settings).withRows format }

/-- What is read from the table of a type depends on the directory alone. -/
theorem opened_withRows (p : Pool) (settings : Settings) (format : RowFormat) (d : Directory) :
    opened ⟨p, d, (Repository.empty settings).withRows format⟩ format.type.name =
      match format.load d with
      | .error e => .error (.persist e)
      | .ok es => (fill p format.type.name es).1.map fun (c, last) =>
          ((fill p format.type.name es).2.roster c.entities, last) := by
  have hloaded : loaded ⟨p, d, (Repository.empty settings).withRows format⟩ format.type.name
      = (format.load d).mapError .persist := by
    unfold loaded
    rw [show ((Repository.empty settings).withRows format).loader? format.type.name
      = some (.ofRows format) from if_pos rfl]
    rfl
  rw [opened_of_none rfl, hloaded]
  cases format.load d <;> rfl

/-- Whoever opens a repository over a directory reads the same from it. -/
theorem opened_withRows_congr (p q : Pool) (settings settings' : Settings) (format : RowFormat)
    (d : Directory) :
    opened ⟨p, d, (Repository.empty settings).withRows format⟩ format.type.name
      = opened ⟨q, d, (Repository.empty settings').withRows format⟩ format.type.name := by
  rw [opened_withRows, opened_withRows]
  cases format.load d with
  | error e => rfl
  | ok es => exact fill_congr _ _ _ _

/-- A roster that is in order is loaded as it is. -/
theorem fill_of_numbered (pool : Pool) (type : String) {r : Roster} (hunique : r.UniqueKeys)
    (hnumbered : ∀ e ∈ r, e.id ≠ none) :
    ∃ c last, (fill pool type r).1 = .ok (c, last) ∧ (fill pool type r).2.roster c.entities = r := by
  obtain ⟨-, hmap, -, -⟩ := Pool.allocAll_spec pool r
  have hspec := Cache.ofEntities_spec (pool.allocAll r).2 type (pool.allocAll r).1
  unfold fill
  generalize pool.allocAll r = allocated at hmap hspec ⊢
  obtain ⟨handles, pool₁⟩ := allocated
  have hroster : pool₁.roster handles = r := hmap
  cases hof : Cache.ofEntities pool₁ type handles with
  | error e =>
    rw [hof] at hspec
    rw [Cache.repeatedKey?_eq_none.mpr ⟨hroster.symm ▸ hunique, by simp, by simp⟩] at hspec
    cases hspec
  | ok c =>
    rw [hof] at hspec
    obtain ⟨-, -, hlist, -⟩ := hspec
    simp only at hlist
    have hall : ∀ h ∈ c.entities, pool₁.id h ≠ none := by
      intro h hh
      rw [hlist] at hh
      exact hnumbered _ (hroster ▸ List.mem_map_of_mem hh)
    simp only [Cache.assignIds_of_numbered hall]
    refine ⟨_, _, rfl, ?_⟩
    show pool₁.roster c.entities = r
    rw [hlist, hroster]

/-- Nothing has been written of a type, and what is held is what is read. -/
def Unwritten (format : RowFormat) (s : Store) : Prop :=
  s.roster? format.type.name = (s.reopened format).roster? format.type.name

/-- The file of the table is made of what is held. -/
def Written (format : RowFormat) (s : Store) : Prop :=
  ∃ r, s.roster? format.type.name = some r ∧
    s.directory.kept? format.type.table = some (format.file r)

/-- A store that keeps one type as rows of a table in its directory, for which there is room. -/
structure Persists (format : RowFormat) (s : Store) : Prop where
  loader : s.repository.loader? format.type.name = some (.ofRows format)
  formats : ∀ type, s.repository.format? type = if type = format.type.name then some format else none
  plain : Directory.folderName format.type.table = ""
  room : s.directory.full format.type.table = false
  rows : Unwritten format s ∨ Written format s

/-- A repository that has just been opened. -/
theorem persists_withRows (p : Pool) (settings : Settings)
    (hplain : Directory.folderName format.type.table = "")
    (hroom : d.full format.type.table = false) :
    Persists format ⟨p, d, (Repository.empty settings).withRows format⟩ where
  loader := if_pos rfl
  formats := fun _ => rfl
  plain := hplain
  room := hroom
  rows := .inl rfl

/-! ## Steps that write nothing -/

/-- A step that leaves alone how the store is set up, and its files. -/
structure Spares (s s' : Store) : Prop where
  loader : s'.repository.loader? = s.repository.loader?
  format : s'.repository.format? = s.repository.format?
  directory : s'.directory = s.directory

theorem Spares.refl (s : Store) : Spares s s := ⟨rfl, rfl, rfl⟩

theorem Spares.trans {s'' : Store} (h : Spares s s') (h' : Spares s' s'') : Spares s s'' :=
  ⟨h'.loader.trans h.loader, h'.format.trans h.format, h'.directory.trans h.directory⟩

theorem Spares.loaded (h : Spares s s') (type : String) : s'.loaded type = s.loaded type := by
  rw [Store.loaded, Store.loaded, h.loader, h.directory]

/-- What is held stays the same, and so does what is written of it. -/
theorem Persists.spares (hs : s.Persists format) (h : Spares s s')
    (hroster : s'.roster? format.type.name = s.roster? format.type.name) : s'.Persists format where
  loader := by
    rw [h.loader]
    exact hs.loader
  formats := by
    rw [h.format]
    exact hs.formats
  plain := hs.plain
  room := by
    rw [h.directory]
    exact hs.room
  rows := by
    rcases hs.rows with hunwritten | ⟨r, hr, hkept⟩
    · have hreopened := opened_withRows_congr s'.pool s.pool s'.repository.settings
        s.repository.settings format s.directory
      refine .inl (hroster.trans (Eq.trans hunwritten (roster?_congr ?_)))
      unfold reopened
      rw [h.directory]
      exact hreopened.symm
    · refine .inr ⟨r, hroster.trans hr, ?_⟩
      rw [h.directory]
      exact hkept

/-- What is committed of a type stays, as it has ids. -/
theorem Upkept.roster?_of_grows (hs : s.Upkept) (h : Spares s s') (hpool : s.pool.Grows s'.pool)
    (hcaches : s'.repository.caches.find? type = s.repository.caches.find? type) :
    s'.roster? type = s.roster? type :=
  roster?_of_kept hcaches (h.loaded type) fun hfind => hs.kept hpool hfind

/-- Entities are made, and given ids. -/
theorem Persists.pool (hs : s.Persists format) (hup : s.Upkept) {pool : Pool}
    (hpool : s.pool.Grows pool) : Persists format { s with pool } :=
  have h : Spares s { s with pool } := ⟨rfl, rfl, rfl⟩
  hs.spares h (hup.roster?_of_grows h hpool rfl)

/-! ## Loading -/

theorem spares_checkout (s : Store) (type : String) : Spares s (exec (checkout type) s).2 := by
  cases hfind : s.repository.caches.find? type with
  | some c =>
    rw [exec_checkout_of_some hfind]
    exact .refl s
  | none =>
    rw [exec_checkout_of_none hfind]
    cases s.loaded type with
    | error e => exact .refl s
    | ok es =>
      simp only
      rcases fill s.pool type es with ⟨e | ⟨c, last⟩, pool⟩ <;> exact ⟨rfl, rfl, rfl⟩

/-- Loading a type puts no cache in the place of one of another type. -/
theorem Upkept.find?_checkout (hs : s.Upkept) (type : String) :
    ((exec (Store.checkout type) s).2.repository.caches.find? type ≠ none ∨
      (exec (Store.checkout type) s).2.repository.caches = s.repository.caches) ∧
    ∀ t ≠ type, (exec (Store.checkout type) s).2.repository.caches.find? t
      = s.repository.caches.find? t := by
  obtain ⟨-, hfound⟩ := hs.checkout type
  cases hfind : s.repository.caches.find? type with
  | some c =>
    rw [exec_checkout_of_some hfind]
    exact ⟨.inr rfl, fun _ _ => rfl⟩
  | none =>
    rw [exec_checkout_of_none hfind] at hfound ⊢
    cases hes : s.loaded type with
    | error e => exact ⟨.inr rfl, fun _ _ => rfl⟩
    | ok es =>
      rw [hes] at hfound
      simp only at hfound ⊢
      rcases hrun : fill s.pool type es with ⟨e | ⟨c, last⟩, pool⟩
      · exact ⟨.inr rfl, fun _ _ => rfl⟩
      · rw [hrun] at hfound
        have hc := hfound c rfl
        have htype := Caches.type_of_find? hc
        refine ⟨.inl ?_, fun t ht => ?_⟩
        · simp only
          rw [hc]
          exact Option.some_ne_none c
        · exact Caches.find?_put_of_ne fun heq => ht (heq.symm.trans htype)

/-- Loading a type changes no roster. -/
theorem Upkept.roster?_checkout (hs : s.Upkept) (type t : String) :
    (exec (Store.checkout type) s).2.roster? t = s.roster? t := by
  obtain ⟨hprogress, hfound⟩ := hs.checkout type
  obtain ⟨hloaded, hothers⟩ := hs.find?_checkout type
  have hspares := spares_checkout s type
  by_cases ht : t = type
  · subst ht
    rcases hloaded with hsome | hsame
    · obtain ⟨c, hc⟩ := checkout_of_loaded hsome
      rw [roster?_of_opened (opened_of_some (hfound c hc)), roster?_eq, opened]
      rcases hrun : exec (Store.checkout t) s with ⟨e | c', s'⟩
      · rw [hrun] at hc
        cases hc
      · rw [hrun] at hc
        obtain rfl := Except.ok.inj hc
        rfl
    · exact hs.roster?_of_grows hspares hprogress.pool (by rw [hsame])
  · exact hs.roster?_of_grows hspares hprogress.pool (hothers t ht)

theorem Persists.checkout (hs : s.Persists format) (hup : s.Upkept) (type : String) :
    (exec (Store.checkout type) s).2.Persists format :=
  hs.spares (spares_checkout s type) (hup.roster?_checkout type format.type.name)

/-- Drawing an id moves on a sequence, and loads its type. -/
theorem Persists.newId (hs : s.Persists format) (hup : s.Upkept) (type : String) :
    (exec (Store.newId type) s).2.Persists format := by
  have hcheckout := hs.checkout hup type
  rw [exec_newId]
  rcases hrun : exec (Store.checkout type) s with ⟨e | c, s₁⟩
  · rw [hrun] at hcheckout
    exact hcheckout
  · rw [hrun] at hcheckout
    simp only at hcheckout ⊢
    cases (advance type ((s₁.pool.roster c.entities).latest (s₁.repository.lastId type))).1 with
    | error e => exact hcheckout
    | ok id =>
      exact hcheckout.spares ⟨rfl, rfl, rfl⟩ (roster?_of_kept rfl rfl fun _ _ _ => rfl)

/-! ## Committing -/

/-- Staging a change loads its type, and makes at most a copy. -/
theorem Persists.stage {s₀ : Store} {staged : Caches} (hs : s.Persists format)
    (h : Prepared s₀ staged s) (hup : s₀.Upkept) (change : Change) :
    (exec (Store.stage staged change) s).2.Persists format := by
  have hnow := hup.progress h.progress
  obtain ⟨hprogress, hon⟩ : Progress s
        (exec (stagedOn staged (s.pool.typeName change.entity)) s).2 ∧
      (exec (stagedOn staged (s.pool.typeName change.entity)) s).2.Persists format := by
    unfold stagedOn
    cases staged.find? (s.pool.typeName change.entity) with
    | some c => exact ⟨.refl s, hs⟩
    | none => exact ⟨(hnow.checkout _).1, hs.checkout hnow _⟩
  rw [exec_stage]
  rcases hrun : exec (stagedOn staged (s.pool.typeName change.entity)) s with ⟨e | c, s₁⟩
  · rw [hrun] at hon
    exact hon
  · rw [hrun] at hprogress hon
    have hgrows := (Cache.extends_apply change c s₁.pool).grows
    have happlied := hon.pool (hnow.progress hprogress) hgrows
    simp only
    rcases happly : c.apply change s₁.pool with ⟨e | _, c', pool⟩ <;>
    · rw [happly] at happlied
      exact happlied

theorem Persists.staging {s₀ : Store} {staged : Caches} (hs : s.Persists format)
    (h : Prepared s₀ staged s) (hup : s₀.Upkept) (hlive : ∀ c ∈ changes, c.entity < s₀.pool.next) :
    (exec (changes.foldlM Store.stage staged) s).2.Persists format := by
  induction changes generalizing staged s with
  | nil => exact hs
  | cons change rest ih =>
    obtain ⟨hchange, hrest⟩ := List.forall_mem_cons.mp hlive
    have hstaged := hs.stage h hup change
    obtain ⟨-, hnext⟩ := h.stage hup hchange
    rw [List.foldlM_cons, exec_bind]
    rcases hrun : exec (Store.stage staged change) s with ⟨e | staged', s₁⟩
    · rw [hrun] at hstaged
      exact hstaged
    · rw [hrun] at hstaged hnext
      exact ih hstaged (hnext staged' rfl) hrest

/-- Writing caches to their tables, of which only one type has one. -/
theorem exec_forM_dump_of_rows (hformat : ∀ type, s.repository.format? type
      = if type = format.type.name then some format else none)
    (hplain : Directory.folderName format.type.table = "")
    (hroom : s.directory.full format.type.table = false) (htypes : cs.types.Nodup) :
    ∃ d', exec (cs.forM dump) s = (.ok (), { s with directory := d' }) ∧
      d'.full = s.directory.full ∧
      match cs.find? format.type.name with
      | some c => d'.kept? format.type.table = some (format.file (s.pool.roster c.entities))
      | none => d' = s.directory := by
  induction cs generalizing s with
  | nil => exact ⟨s.directory, rfl, rfl, rfl⟩
  | cons c rest ih =>
    obtain ⟨hc, hrest⟩ := List.nodup_cons.mp htypes
    have hcons : exec ((c :: rest).forM dump) s = exec (dump c >>= fun _ => rest.forM dump) s := rfl
    rw [hcons, exec_bind, Caches.find?_cons]
    by_cases htype : c.type = format.type.name
    -- the other caches are of other types, and have no table
    · obtain ⟨d', hdump, hfull, hkept⟩ := Directory.dump_eq_ok hroom
        (s.directory.folderOf?_of_plain hplain) ((s.pool.roster c.entities).map format.encode)
      have hwrite : exec (dump c) s = (.ok (), { s with directory := d' }) := by
        have hrows : format.dump s.directory (c.entities.map s.pool.entity) = .ok d' := hdump
        unfold dump
        rw [exec_bind, exec_get]
        simp only [hformat, htype, if_true, hrows, Except.mapError, exec_bind, exec_ofExcept, exec_set]
      obtain ⟨d'', hrun, hfull', hsame⟩ :=
        ih (s := { s with directory := d' }) hformat (hfull ▸ hroom) hrest
      have hnone : Caches.find? rest format.type.name = none := by
        rw [← Option.not_isSome_iff_eq_none, Caches.isSome_find?, ← htype]
        exact hc
      rw [hnone] at hsame
      simp only at hsame
      rw [if_pos htype, hwrite]
      exact ⟨d'', hrun, hfull'.trans hfull, hsame ▸ hkept⟩
    · have hskip : s.repository.format? c.type = none := by rw [hformat, if_neg htype]
      rw [if_neg htype, exec_dump_of_none hskip]
      exact ih hformat hroom hrest

/-- What is committed takes the place of what was there, and is written. -/
theorem Persists.put (hs : s.Persists format) (htypes : cs.types.Nodup) :
    (exec (cs.forM dump) { s with repository := cs.foldl .withCache s.repository }).2.Persists
      format := by
  rw [foldl_withCache]
  obtain ⟨s', hs'⟩ : ∃ s', s' = { s with repository :=
      { s.repository with caches := cs.foldl Caches.put s.repository.caches } } := ⟨_, rfl⟩
  have hspares : Spares s s' := hs' ▸ ⟨rfl, rfl, rfl⟩
  have hfind : s'.repository.caches.find? format.type.name
      = (cs.find? format.type.name).or (s.repository.caches.find? format.type.name) := by
    rw [hs']
    exact Caches.find?_foldl_put _ htypes _
  have hformat : ∀ type, s'.repository.format? type
      = if type = format.type.name then some format else none := by
    rw [hspares.format]
    exact hs.formats
  have hroom : s'.directory.full format.type.table = false := by
    rw [hspares.directory]
    exact hs.room
  rw [← hs']
  obtain ⟨d', hrun, hfull, hkept⟩ := exec_forM_dump_of_rows hformat hs.plain hroom htypes
  rw [hrun]
  cases hnew : cs.find? format.type.name with
  | some c =>
    rw [hnew] at hfind hkept
    simp only at hkept
    have hroster : roster? { s' with directory := d' } format.type.name
        = some (s'.pool.roster c.entities) := roster?_of_opened (opened_of_some hfind)
    refine ⟨?_, hformat, hs.plain, hfull ▸ hroom, .inr ⟨s'.pool.roster c.entities, hroster, hkept⟩⟩
    show s'.repository.loader? format.type.name = _
    rw [hspares.loader]
    exact hs.loader
  | none =>
    rw [hnew] at hfind hkept
    simp only at hkept
    rw [hkept]
    refine hs.spares hspares (roster?_of_kept hfind (hspares.loaded _) fun _ _ _ => ?_)
    rw [hs']

/-- **A commit**, whatever comes of it. -/
theorem Persists.commit (hs : s.Persists format) (hup : s.Upkept)
    (hlive : ∀ c ∈ changes, c.entity < s.pool.next) :
    (exec (Store.commit changes) s).2.Persists format := by
  obtain ⟨hprogress, hprepared⟩ := (prepared_nil s).run hup hlive
  have hstaging := hs.staging (prepared_nil s) hup hlive
  unfold Store.commit
  rw [exec_bind, exec_applyAll]
  rcases hrun : exec (changes.foldlM Store.stage []) s with ⟨e | staged, s₁⟩
  · rw [hrun] at hstaging
    exact hstaging
  · rw [hrun] at hstaging hprogress hprepared
    have hready := hprepared staged rfl
    have hfinishing := finishing_mapM hready.types hready.keyed
    have hspec := finishAll_spec hready.types hready.keyed
    -- finishing moves on sequences, and gives ids to copies
    have hspares : Spares s₁ (exec (staged.mapM finish) s₁).2 := by
      refine ⟨?_, ?_, hfinishing.directory⟩ <;> rw [hfinishing.repository]
    have hfinished := hstaging.spares hspares
      ((hup.progress hprogress).roster?_of_grows hspares hfinishing.grows
        (by rw [hfinishing.repository]))
    simp only at hspec ⊢
    rcases hrun' : exec (staged.mapM finish) s₁ with ⟨e | cs, s₂⟩
    · rw [hrun'] at hfinished
      exact hfinished
    · rw [hrun'] at hfinished hspec
      obtain ⟨-, -, htypes, -⟩ := hspec
      exact hfinished.put (htypes ▸ hready.types)

/-- **Whatever is asked of the store.** -/
theorem Persists.ask (hs : s.Persists format) (hup : s.Upkept) {r : Request} (hlive : r.Live s) :
    (exec r.run s).2.Persists format := by
  cases r with
  | load type =>
    rw [snd_run_load]
    exact hs.checkout hup type
  | newId type =>
    rw [snd_run_newId]
    exact hs.newId hup type
  | commit changes => exact hs.commit hup hlive
  | rollback changes => exact hs

end EntityStore.Store
