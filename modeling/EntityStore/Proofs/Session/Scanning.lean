import EntityStore.Proofs.Session.Finding
import EntityStore.Proofs.Session.Sustaining

/-!
# Scanning what is listed

A look-up in a session is answered by an index of one type, and the index may be older than the
entities: ids and slugs are edited in place and nobody tells the session. It is rebuilt before every
look-up where the repository is set to, and otherwise when the session is flushed. **From then on a
look-up answers as a scan of the list would**: with the first entity that holds the key at the time,
and with none where none does, whatever has been added, removed, replaced or edited before.
-/

namespace EntityStore

/-! ## Indexes that are up to date -/

/-- Look a key up in a cache. -/
def LookupKey.search (pool : Pool) (c : Cache) : LookupKey → Option Handle × Cache
  | .byId id => c.getById pool id
  | .bySlug slug => c.getBySlug pool slug

namespace Cache

variable {pool : Pool} {c : Cache} {type : String} {hs : List Handle}

/-- The indexes need not be rebuilt to find first holders. -/
def Current (pool : Pool) (c : Cache) : Prop := c.stale = false ∧ Shelf.Exact pool c

theorem current_rebuild (pool : Pool) (c : Cache) : (c.rebuild pool).Current pool :=
  ⟨rfl, .inr (Shelf.first_rebuild pool c)⟩

theorem current_ofEntities (hof : ofEntities pool type hs = .ok c) : c.Current pool := by
  have hspec := ofEntities_spec pool type hs
  rw [hof] at hspec
  exact ⟨hspec.2.1.fresh, Shelf.Started.exact (s := ⟨pool, c⟩) ⟨type, .inr ⟨hs, hof⟩⟩⟩

/-- Where the indexes are up to date, looking a key up is scanning the list, and changes nothing. -/
theorem Current.search (hc : c.Current pool) (key : LookupKey) :
    key.search pool c = (c.entities.find? (key.heldBy pool), c) := by
  obtain ⟨hfresh, hexact⟩ := hc
  have hrefresh : c.refresh pool = c := if_neg (by rw [hfresh]; exact Bool.false_ne_true)
  obtain ⟨hbyId, hbySlug⟩ := hexact.first_refresh
  rw [hrefresh] at hbyId hbySlug
  cases key with
  | byId id =>
    show ((c.refresh pool).byId.get? id, c.refresh pool) = _
    rw [hrefresh, hbyId.get?]
    rfl
  | bySlug slug =>
    show ((c.refresh pool).bySlug.get? slug, c.refresh pool) = _
    rw [hrefresh, hbySlug.get?]
    rfl

end Cache

/-- Putting a cache where it is already. -/
theorem Caches.put_of_find? {cs : Caches} {c : Cache} {type : String}
    (hfind : cs.find? type = some c) : cs.put c = cs := by
  have htype := type_of_find? hfind
  induction cs with
  | nil => cases hfind
  | cons d rest ih =>
    rw [find?_cons] at hfind
    rw [put]
    by_cases hd : d.type = type
    · rw [if_pos hd] at hfind
      obtain rfl := Option.some.inj hfind
      rw [if_pos rfl]
    · rw [if_neg hd] at hfind
      rw [if_neg (htype ▸ hd), ih hfind]

namespace Session

variable {w w' : Work} {type : String} {c : Cache} {hs : List Handle}

/-! ## Consulting a cache -/

/-- The cache that a type is read from. -/
def consult (type : String) : SessionM Cache := do
  readThrough type
  checkout type

/-- To list a type is to consult its cache. -/
theorem exec_all_eq (type : String) (w : Work) :
    exec (all type) w
      = ((exec (consult type) w).1.map Cache.entities, (exec (consult type) w).2) := by
  rw [← exec_map]
  unfold all consult
  simp only [map_bind, bind_pure_comp]

/-- To look a key up is to search the cache that is consulted. -/
theorem exec_inSession_eq (key : LookupKey) (type : String) (w : Work) :
    exec (key.inSession type) w =
      match exec (consult type) w with
      | (.error e, w) => (.error e, w)
      | (.ok c, w) => (.ok (key.search w.store.pool c).1, { w with session :=
          { w.session with caches := w.session.caches.put (key.search w.store.pool c).2 } }) := by
  have hread : key.inSession type = readThrough type >>= fun _ => onCache type fun pool c =>
      (.ok (key.search pool c).1, (key.search pool c).2) := by
    cases key <;> rfl
  rw [hread]
  unfold consult
  simp only [exec_bind, exec_onCache]
  rcases exec (readThrough type) w with ⟨e | _, w⟩
  · rfl
  · rcases exec (checkout type) w with ⟨e | c, w⟩ <;> rfl

theorem exec_readThrough_of_off (hoff : w.store.repository.settings.autoflush = false) :
    exec (readThrough type) w = (.ok (), w) := by
  unfold readThrough
  simp only [exec_bind, exec_get, hoff, Bool.false_eq_true, if_false, exec_pure]

/-- **A cache that is consulted** has been checked out, and has been re-indexed if it is to be. -/
theorem of_exec_consult (hrun : exec (consult type) w = (.ok c, w')) :
    ∃ d w₁, exec (checkout type) w = (.ok d, w₁) ∧
      (w.store.repository.settings.autoflush = false ∧ c = d ∧ w' = w₁ ∨
        w.store.repository.settings.autoflush = true ∧ c = d.rebuild w₁.store.pool ∧
          w' = SessionCollection.reindexed w₁ d) := by
  unfold consult at hrun
  rw [exec_bind] at hrun
  cases hauto : w.store.repository.settings.autoflush with
  | false =>
    rw [exec_readThrough_of_off hauto] at hrun
    exact ⟨c, w', hrun, .inl ⟨rfl, rfl, rfl⟩⟩
  | true =>
    rcases hcheckout : exec (checkout type) w with ⟨e | d, w₁⟩
    · unfold readThrough at hrun
      simp only [exec_bind, exec_get, hauto, if_true, exec_onCache, hcheckout] at hrun
      cases hrun
    · have hfind := SessionCollection.find?_reindexed (find?_of_exec_checkout hcheckout)
      rw [SessionCollection.exec_readThrough hauto hcheckout] at hrun
      simp only [exec_checkout_of_some hfind] at hrun
      obtain ⟨hc, rfl⟩ := Prod.mk.inj hrun
      exact ⟨d, w₁, rfl, .inr ⟨rfl, (Except.ok.inj hc).symm, rfl⟩⟩

theorem find?_of_exec_consult (hrun : exec (consult type) w = (.ok c, w')) :
    w'.session.caches.find? type = some c := by
  obtain ⟨d, w₁, hcheckout, ⟨-, rfl, rfl⟩ | ⟨-, rfl, rfl⟩⟩ := of_exec_consult hrun
  · exact find?_of_exec_checkout hcheckout
  · exact SessionCollection.find?_reindexed (find?_of_exec_checkout hcheckout)

/-- Consulting a cache once more finds it, and everything else, as it was left. -/
theorem exec_consult_again (hrun : exec (consult type) w = (.ok c, w')) :
    exec (consult type) w' = (.ok c, w') := by
  have hfind := find?_of_exec_consult hrun
  obtain ⟨d, w₁, hcheckout, hcases⟩ := of_exec_consult hrun
  have hsustaining : Sustaining type 0 (checkout type) := sustaining_checkout type
  have hsettings : w₁.store.repository.settings.autoflush
      = w.store.repository.settings.autoflush :=
    congrArg Settings.autoflush (hsustaining _ _ _ hcheckout).store.settings
  unfold consult
  rw [exec_bind]
  rcases hcases with ⟨hoff, rfl, rfl⟩ | ⟨hauto, rfl, rfl⟩
  · rw [exec_readThrough_of_off (hsettings.trans hoff)]
    exact exec_checkout_of_some hfind
  · -- the indexes are rebuilt from the same list and the same entities
    have hsame : SessionCollection.reindexed (SessionCollection.reindexed w₁ d)
        (d.rebuild w₁.store.pool) = SessionCollection.reindexed w₁ d :=
      congrArg (fun caches => { w₁ with session := { w₁.session with caches } })
        (Caches.put_of_find? hfind)
    rw [SessionCollection.exec_readThrough (w := SessionCollection.reindexed w₁ d)
      (hsettings.trans hauto) (exec_checkout_of_some hfind), hsame]
    exact exec_checkout_of_some hfind

theorem of_exec_all (hrun : exec (all type) w = (.ok hs, w')) :
    ∃ c, exec (consult type) w = (.ok c, w') ∧ c.entities = hs := by
  rw [exec_all_eq] at hrun
  rcases hconsult : exec (consult type) w with ⟨e | c, w₁⟩
  · rw [hconsult] at hrun
    cases hrun
  · rw [hconsult] at hrun
    obtain ⟨hlist, rfl⟩ := Prod.mk.inj hrun
    exact ⟨c, rfl, Except.ok.inj hlist⟩

theorem exec_all_again (hrun : exec (all type) w = (.ok hs, w')) :
    exec (all type) w' = (.ok hs, w') := by
  obtain ⟨c, hconsult, rfl⟩ := of_exec_all hrun
  rw [exec_all_eq, exec_consult_again hconsult]
  rfl

theorem listed_of_exec_all (hrun : exec (all type) w = (.ok hs, w')) :
    w'.session.listed type = hs := by
  obtain ⟨c, hconsult, rfl⟩ := of_exec_all hrun
  rw [Session.listed, find?_of_exec_consult hconsult]
  rfl

/-- Listing a type poisons no session. -/
theorem poisoned_of_exec_all (hrun : exec (all type) w = (.ok hs, w')) :
    w'.session.poisoned = w.session.poisoned := by
  obtain ⟨c, hconsult, -⟩ := of_exec_all hrun
  obtain ⟨d, w₁, hcheckout, hcases⟩ := of_exec_consult hconsult
  have hpoisoned : w₁.session.poisoned = w.session.poisoned := by
    rcases of_exec_checkout hcheckout with ⟨-, rfl⟩ | ⟨-, _, _, _, _, _, -, -, -, rfl⟩
    · rfl
    · rfl
  rcases hcases with ⟨-, -, rfl⟩ | ⟨-, -, rfl⟩
  · exact hpoisoned
  · exact hpoisoned

/-! ## Look-up against a scan -/

/-- Nothing has been edited since the indexes were last rebuilt, or they are rebuilt whenever they
are needed. -/
inductive Indexed (w : Work) : Prop
  | autoflush (hauto : w.store.repository.settings.autoflush = true)
  | flushed (v : Work) (hflushed : w = (exec flush v).2)

/-- What is consulted is up to date then: it was rebuilt just now, or by the flush, or it has been
made out of what is committed. -/
theorem Indexed.current (hw : Indexed w) (hrun : exec (consult type) w = (.ok c, w')) :
    c.Current w'.store.pool := by
  obtain ⟨d, w₁, hcheckout, hcases⟩ := of_exec_consult hrun
  rcases hcases with ⟨hoff, rfl, rfl⟩ | ⟨-, rfl, rfl⟩
  · cases hw with
    | autoflush hauto =>
      rw [hauto] at hoff
      cases hoff
    | flushed v hflushed =>
      rcases of_exec_checkout hcheckout with ⟨hfind, rfl⟩ | ⟨-, _, _, _, _, _, -, -, hof, rfl⟩
      · rw [hflushed, exec_flush] at hfind ⊢
        rw [Caches.find?_rebuild] at hfind
        obtain ⟨d, -, rfl⟩ := Option.map_eq_some_iff.mp hfind
        exact Cache.current_rebuild _ d
      · exact Cache.current_ofEntities hof
  · exact Cache.current_rebuild _ d

/-- A look-up in a cache that is up to date. -/
theorem exec_inSession_of_current (hrun : exec (consult type) w = (.ok c, w'))
    (hc : c.Current w'.store.pool) (key : LookupKey) :
    exec (key.inSession type) w = (.ok (c.entities.find? (key.heldBy w'.store.pool)), w') := by
  rw [exec_inSession_eq, hrun]
  simp only [hc.search key, Caches.put_of_find? (find?_of_exec_consult hrun)]

/-- **A look-up is a scan of the list.** In a session whose indexes are kept up to date, or that has
just been flushed, a look-up by a key fails where the entities of the type cannot be listed, in the
same way. Else it answers with the first one of the list that holds the key at the time, and with
none only where none does; before the entities are listed and after. -/
theorem inSession_eq_find? (hw : Indexed w) (type : String) (key : LookupKey) :
    match exec (all type) w with
    | (.error e, w') => exec (key.inSession type) w = (.error e, w')
    | (.ok hs, w') =>
      exec (key.inSession type) w = (.ok (hs.find? (key.heldBy w'.store.pool)), w') ∧
        exec (all type) w' = (.ok hs, w') ∧
        exec (key.inSession type) w' = (.ok (hs.find? (key.heldBy w'.store.pool)), w') := by
  rw [exec_all_eq]
  rcases hconsult : exec (consult type) w with ⟨e | c, w'⟩
  · show exec (key.inSession type) w = (.error e, w')
    rw [exec_inSession_eq, hconsult]
  · have hcurrent := hw.current hconsult
    have hagain := exec_consult_again hconsult
    refine ⟨exec_inSession_of_current hconsult hcurrent key, ?_,
      exec_inSession_of_current hagain hcurrent key⟩
    rw [exec_all_eq, hagain]
    rfl

open SessionCollection (twoReds)

/-- The session in which the blue tag has been named red, where indexes are not rebuilt by
themselves; it is flushed now. -/
def twoRedsFlushed : Work :=
  let w := twoReds
  (exec flush { w with store.repository.settings.autoflush := false }).2

/-- A session lists two tags, finds the first of them as the red one, and none as the blue one. -/
def FindsFirstRed (w : Work) : Prop :=
  (exec (all "tag") w).1 = .ok [2, 3] ∧
    (exec (LookupKey.inSession "tag" (.bySlug "red")) w).1 = .ok (some 2) ∧
    (exec (LookupKey.inSession "tag" (.bySlug "blue")) w).1 = .ok none

/-- Of two tags that are named red by now the first is found, and none is found under the name that
the second one had. It does not matter whether the indexes are rebuilt for the look-up or have been
rebuilt by a flush. -/
theorem inSession_eq_find?_twoReds :
    (Indexed twoReds ∧ FindsFirstRed twoReds) ∧ Indexed twoRedsFlushed ∧ FindsFirstRed twoRedsFlushed := by
  have hindexed : ∀ w ∈ [twoReds, twoRedsFlushed], Indexed w := by
    intro w hw
    rcases List.mem_pair.mp hw with rfl | rfl
    · exact .autoflush rfl
    · exact .flushed _ rfl
  have hlisted : ∀ w ∈ [twoReds, twoRedsFlushed], (exec (all "tag") w).1 = .ok [2, 3] ∧
      [2, 3].find? (LookupKey.heldBy (.bySlug "red") (exec (all "tag") w).2.store.pool) = some 2 ∧
      [2, 3].find? (LookupKey.heldBy (.bySlug "blue") (exec (all "tag") w).2.store.pool) = none := by
    decide +kernel
  have hfinds : ∀ w ∈ [twoReds, twoRedsFlushed], Indexed w ∧ FindsFirstRed w := by
    intro w hw
    obtain ⟨hall, hred, hblue⟩ := hlisted w hw
    have hscan := inSession_eq_find? (hindexed w hw) "tag"
    refine ⟨hindexed w hw, hall, ?_⟩
    rcases hrun : exec (all "tag") w with ⟨e | hs, w'⟩
    · rw [hrun] at hall
      cases hall
    · rw [hrun] at hall hred hblue hscan
      obtain rfl := Except.ok.inj hall
      rw [(hscan (.bySlug "red")).1, (hscan (.bySlug "blue")).1]
      exact ⟨congrArg Except.ok hred, congrArg Except.ok hblue⟩
  exact ⟨hfinds _ (.head _), hfinds _ (.tail _ (.head _))⟩

end Session

end EntityStore
