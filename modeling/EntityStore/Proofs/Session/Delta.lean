import EntityStore.Proofs.Session.Worlds

/-!
# What a commit applies

The delta of a session is read off what it shows and what it had checked out, without its ledger:
under an id stands what the session shows there, unless that is what it had loaded and is as it was
then; where it shows nothing it has removed what it had loaded, if anything. A commit that goes
through makes exactly this of the content there is, whatever others have committed in the meantime.

The ledger holds several entries for an id when entities were removed and others added in their
place. Of these the last one that has a change decides, and it is the one of the entity that is
shown; or else the one that was loaded, if that is gone.
-/

namespace EntityStore

namespace Ledger

variable {strays : Handle → Prop} {base : Base} {p : Pool} {l : Ledger} {d e : LedgerEntry}
  {c : Change}

/-! ## The changes of entries -/

theorem changeOf_of_added (horigin : e.origin = .new) (hstate : e.state = .new) :
    changeOf p e = some ⟨.add, e.entity⟩ := by
  simp [changeOf, LedgerEntry.current, horigin, hstate]

theorem changeOf_of_dropped (horigin : e.origin = .new) (hstate : e.state = .deleted) :
    changeOf p e = none := by
  simp [changeOf, LedgerEntry.current, horigin, hstate]

theorem changeOf_of_removed (horigin : e.origin = .clean) (hstate : e.state = .deleted) :
    changeOf p e = some ⟨.remove, e.entity⟩ := by
  simp [changeOf, LedgerEntry.current, horigin, hstate]

theorem changeOf_of_loaded (horigin : e.origin = .clean) (hstate : e.state = .clean) :
    changeOf p e = if (Snapshot.capture p e.entity).same e.snapshot = true then none
      else some ⟨.update, e.entity⟩ := by
  cases hsame : (Snapshot.capture p e.entity).same e.snapshot <;>
  simp [changeOf, LedgerEntry.current, horigin, hstate, hsame]

theorem entity_of_changeOf (hc : changeOf p e = some c) : c.entity = e.entity := by
  unfold changeOf at hc
  split at hc <;> cases hc <;> rfl

/-- The last change of a key. An entry that is loaded and removed, or not removed at all, is behind
all others of its key that have a change, if these are removed. -/
theorem Sound.changeset_split (hl : l.Sound strays base p) (he : e ∈ l) (hc : changeOf p e = some c)
    (hstray : ¬ strays e.entity) (hkeeps : e.state ≠ .deleted ∨ e.origin = .clean)
    (hclean : ∀ d ∈ l, strays d.entity → changeOf p d = none)
    (hgone : ∀ d ∈ l, d ≠ e → ¬ strays d.entity → p.SameKey d.entity e.entity →
      d.state = .deleted) :
    ∃ cs ds, l.changeset p = cs ++ c :: ds ∧ ∀ d ∈ ds, ¬ p.SameKey d.entity e.entity := by
  have hnodup := hl.nodup
  have horder := hl.order
  obtain ⟨l₁, l₂, rfl⟩ := List.append_of_mem he
  refine ⟨changeset p l₁, changeset p l₂, ?_, ?_⟩
  · rw [changeset, List.filterMap_append, List.filterMap_cons_some hc]
    rfl
  · intro d hd hkey
    obtain ⟨b, hb, hchange⟩ := List.mem_filterMap.mp hd
    rw [entity_of_changeOf hchange] at hkey
    have hmem : b ∈ l₁ ++ e :: l₂ := List.mem_append_right _ (List.mem_cons_of_mem _ hb)
    have hne : b ≠ e := by
      intro heq
      rw [List.map_append, List.map_cons] at hnodup
      have hnot := (List.nodup_cons.mp (List.nodup_append.mp hnodup).2.1).1
      exact hnot (heq ▸ List.mem_map_of_mem hb)
    have hb' : ¬ strays b.entity := by
      intro h
      rw [hclean b hmem h] at hchange
      cases hchange
    have hdeleted := hgone b hmem hne hb' hkey
    rcases (hl.states b hmem).1 with hnew | horigin
    · rw [changeOf_of_dropped hnew hdeleted] at hchange
      cases hchange
    · -- it was loaded, so what is before it was added, and is gone
      have hbefore := (List.pairwise_cons.mp (List.pairwise_append.mp horder).2.1).1 b hb
      obtain ⟨hadded, hremoved⟩ := hbefore hstray hb' ⟨hkey.1.symm, hkey.2.symm⟩ horigin
      rcases hkeeps with hkept | hloaded
      · exact hkept hremoved
      · rw [hadded] at hloaded
        cases hloaded

end Ledger

namespace Session

variable {strays : Handle → Prop} {base : Base} {w : Work} {type : String} {id : EntityId}
  {e : LedgerEntry} {h : Handle} {s' : Store}

/-! ## The delta of a session -/

/-- The entity that a session shows under an id of a type. -/
def visible? (w : Work) (type : String) (id : EntityId) : Option Handle :=
  (w.session.caches.find? type).bind fun c => w.store.pool.holder? id c.entities

/-- Content with the delta of a session applied to it. Of what the session shows, that remains as it
is in the content which had been loaded and is as it was when it was loaded. -/
def delta (base : Base) (w : Work) (before : Base) : Base := fun type id =>
  match visible? w type id, base type id with
  | none, none => before type id
  | none, some _ => none
  | some h, none => some (Snapshot.capture w.store.pool h)
  | some h, some loaded =>
    if state? h w ≠ some .new ∧ (Snapshot.capture w.store.pool h).same loaded = true then
      before type id
    else some (Snapshot.capture w.store.pool h)

/-- What is shown under an id is what is tracked under it and not removed. -/
theorem Tracks.visible?_eq_some (hw : Tracks strays base w.store w.session) :
    visible? w type id = some h ↔ ∃ e ∈ w.session.ledger, e.entity = h ∧ e.state ≠ .deleted ∧
      ¬ strays h ∧ w.store.pool.typeName h = type ∧ w.store.pool.id h = some id := by
  rw [visible?, Option.bind_eq_some_iff]
  constructor
  · intro ⟨c, hfind, hholder⟩
    obtain ⟨hmem, hid⟩ := Pool.holder?_eq_some hholder
    obtain ⟨htype, e, he, heq, hstate, hstray⟩ := hw.entry hfind hmem
    exact ⟨e, he, heq, hstate, hstray, htype, hid⟩
  · intro ⟨e, he, heq, hstate, hstray, htype, hid⟩
    obtain ⟨c, hfind⟩ := hw.cache he (heq ▸ hstray)
    rw [heq, htype] at hfind
    have hmem := (hw.shown hfind h).mpr ⟨htype, e, he, heq, hstate, hstray⟩
    exact ⟨c, hfind, Pool.holder?_eq (hw.keyed hfind).ids hmem hid⟩

/-- All others of the key of what is shown are removed. -/
theorem Tracks.deleted_of_visible (hw : Tracks strays base w.store w.session)
    (he : e ∈ w.session.ledger) (hid : w.store.pool.id e.entity = some id)
    (hshown : visible? w (w.store.pool.typeName e.entity) id = some e.entity) :
    ∀ d ∈ w.session.ledger, d ≠ e → ¬ strays d.entity →
      w.store.pool.SameKey d.entity e.entity → d.state = .deleted := by
  intro d hd hne hstray hkey
  by_contra hstate
  have hvisible := hw.visible?_eq_some.mpr
    ⟨d, hd, rfl, hstate, hstray, hkey.1, hkey.2.trans hid⟩
  rw [hshown] at hvisible
  exact hne (hw.ledger.eq_of_entity_eq hd he (Option.some.inj hvisible).symm)

/-- Nothing happens about strays. -/
theorem Tracks.changeOf_stray (hw : Tracks strays base w.store w.session) (hs : w.store.Orderly) :
    ∀ d ∈ w.session.ledger, strays d.entity → Ledger.changeOf w.store.pool d = none := by
  intro d hd hstray
  obtain ⟨hstate, horigin, hsnapshot⟩ := hw.ledger.clean d hd hstray
  have hlive := (hw.ledger.live d hd).1
  rw [Ledger.changeOf_of_loaded horigin hstate, hsnapshot, hs.capture hlive]
  exact if_pos (Snapshot.same_self_of_plain (hs.plain.pool _ hlive))

/-- Under the key of entries that have no changes stands what stood there. -/
theorem Tracks.content_of_unchanged (hw : Tracks strays base w.store w.session)
    (hs : w.store.Orderly) (h : w.store.Committed (changeset w) s')
    (hnone : ∀ d ∈ w.session.ledger, ¬ strays d.entity → w.store.pool.typeName d.entity = type →
      w.store.pool.id d.entity = some id → Ledger.changeOf w.store.pool d = none) :
    s'.content type id = w.store.content type id := by
  refine h.content_of_unchanged hs (fun c hc => (hw.handsOver c hc).2) ?_
  intro c hc htype hid
  obtain ⟨d, hd, hchange⟩ := List.mem_filterMap.mp hc
  rw [Ledger.entity_of_changeOf hchange] at htype hid
  have hno : Ledger.changeOf w.store.pool d = none := by
    by_cases hstray : strays d.entity
    · exact hw.changeOf_stray hs d hd hstray
    · exact hnone d hd hstray htype hid
  rw [hno] at hchange
  cases hchange

/-- Under the key of an entry that is loaded and removed, or not removed at all, stands what its
change puts there, if all others of the key are removed. -/
theorem Tracks.content_of_change (hw : Tracks strays base w.store w.session) (hs : w.store.Orderly)
    (h : w.store.Committed (changeset w) s') (he : e ∈ w.session.ledger) (hstray : ¬ strays e.entity)
    (hid : w.store.pool.id e.entity = some id) {c : Change}
    (hc : Ledger.changeOf w.store.pool e = some c)
    (hkeeps : e.state ≠ .deleted ∨ e.origin = .clean)
    (hgone : ∀ d ∈ w.session.ledger, d ≠ e → ¬ strays d.entity →
      w.store.pool.SameKey d.entity e.entity → d.state = .deleted) :
    s'.content (w.store.pool.typeName e.entity) id
      = (c.edit w.store.pool).outcome.map Entity.stateData := by
  obtain ⟨cs, ds, hsplit, hlast⟩ :=
    hw.ledger.changeset_split he hc hstray hkeeps (hw.changeOf_stray hs) hgone
  have hentity := Ledger.entity_of_changeOf hc
  rw [← hentity] at hid hlast ⊢
  refine h.content_of_last hs (fun c hc => (hw.handsOver c hc).2) hsplit hid ?_
  exact fun d hd htype hid' => hlast d hd ⟨htype, hid'.trans hid.symm⟩

/-- What a session shows as new it has added. -/
theorem Tracks.state?_eq_new (hw : Tracks strays base w.store w.session)
    (he : e ∈ w.session.ledger) (hstate : e.state ≠ .deleted) :
    state? e.entity w = some .new ↔ e.origin = .new := by
  have hsame : e.state = e.origin := (hw.ledger.states e he).2.resolve_right hstate
  rw [state?, Ledger.state?, hw.ledger.find?_eq he, Option.map_some, Option.some_inj,
    LedgerEntry.current, hsame]
  rcases (hw.ledger.states e he).1 with hnew | hclean
  · simp [hnew]
  · rw [hclean]
    split <;> simp

/-- Where a session shows nothing, what it had loaded is gone. -/
theorem Tracks.content_of_hidden (hw : Tracks strays base w.store w.session) (hs : w.store.Orderly)
    (h : w.store.Committed (changeset w) s') (hhidden : visible? w type id = none) :
    s'.content type id = if base type id = none then w.store.content type id else none := by
  have hgone : ∀ d ∈ w.session.ledger, ¬ strays d.entity → w.store.pool.typeName d.entity = type →
      w.store.pool.id d.entity = some id → d.state = .deleted := by
    intro d hd hstray htype hid
    by_contra hstate
    rw [hw.visible?_eq_some.mpr ⟨d, hd, rfl, hstate, hstray, htype, hid⟩] at hhidden
    cases hhidden
  split
  · next hbase =>
    -- what is tracked under the id was added and removed again
    refine hw.content_of_unchanged hs h fun d hd hstray htype hid => ?_
    rcases (hw.ledger.states d hd).1 with hnew | hclean
    · exact Ledger.changeOf_of_dropped hnew (hgone d hd hstray htype hid)
    · obtain ⟨id', hid', hloaded⟩ := hw.ledger.origins d hd hstray hclean
      rw [hid] at hid'
      rw [htype, ← Option.some.inj hid', hbase] at hloaded
      cases hloaded
  · next hbase =>
    obtain ⟨x, hx⟩ := Option.ne_none_iff_exists'.mp hbase
    obtain ⟨e, he, hstray, hclean, rfl, hid⟩ := hw.ledger.covered hx
    have hchange := Ledger.changeOf_of_removed (p := w.store.pool) hclean (hgone e he hstray rfl hid)
    rw [hw.content_of_change hs h he hstray hid hchange (.inr hclean)
      fun d hd _ hd' hkey => hgone d hd hd' hkey.1 (hkey.2.trans hid)]
    rfl

/-- Where a session shows an entity that has a change to be made, stands its state. -/
theorem Tracks.content_of_shown (hw : Tracks strays base w.store w.session) (hs : w.store.Orderly)
    (h : w.store.Committed (changeset w) s') (he : e ∈ w.session.ledger)
    (hstate : e.state ≠ .deleted) (hstray : ¬ strays e.entity)
    (hid : w.store.pool.id e.entity = some id)
    (hshown : visible? w (w.store.pool.typeName e.entity) id = some e.entity) {kind : ChangeKind}
    (hchange : Ledger.changeOf w.store.pool e = some ⟨kind, e.entity⟩) (hkind : kind ≠ .remove) :
    s'.content (w.store.pool.typeName e.entity) id
      = some (Snapshot.capture w.store.pool e.entity) := by
  rw [hw.content_of_change hs h he hstray hid hchange (.inl hstate)
    (hw.deleted_of_visible he hid hshown), hs.capture (hw.ledger.live e he).1]
  cases kind with
  | remove => exact absurd rfl hkind
  | add => rfl
  | update => rfl

/-- Where a session shows an entity that was loaded and has no change, stands what stood there. -/
theorem Tracks.content_of_unedited (hw : Tracks strays base w.store w.session)
    (hs : w.store.Orderly) (h : w.store.Committed (changeset w) s') (he : e ∈ w.session.ledger)
    (hclean : e.origin = .clean) (hstray : ¬ strays e.entity)
    (hid : w.store.pool.id e.entity = some id)
    (hshown : visible? w (w.store.pool.typeName e.entity) id = some e.entity)
    (hchange : Ledger.changeOf w.store.pool e = none) :
    s'.content (w.store.pool.typeName e.entity) id
      = w.store.content (w.store.pool.typeName e.entity) id := by
  refine hw.content_of_unchanged hs h fun d hd hd' htype hdid => ?_
  by_cases hde : d = e
  · rw [hde]
    exact hchange
  · have hkey : w.store.pool.SameKey d.entity e.entity := ⟨htype, hdid.trans hid.symm⟩
    have hdeleted := hw.deleted_of_visible he hid hshown d hd hde hd' hkey
    rcases (hw.ledger.states d hd).1 with hnew | hloaded
    · exact Ledger.changeOf_of_dropped hnew hdeleted
    · -- one id is not loaded twice
      rcases hw.ledger.before_or_before hd he hde with hbefore | hafter
      · rw [(hbefore hd' hstray hkey hclean).1] at hloaded
        cases hloaded
      · rw [(hafter hstray hd' ⟨hkey.1.symm, hkey.2.symm⟩ hloaded).1] at hclean
        cases hclean

/-- A commit that goes through applies the delta of the session. -/
theorem Tracks.content_eq_delta (hw : Tracks strays base w.store w.session) (hs : w.store.Orderly)
    (h : w.store.Committed (changeset w) s') (type : String) (id : EntityId) :
    s'.content type id = delta base w w.store.content type id := by
  cases hshown : visible? w type id with
  | none =>
    rw [hw.content_of_hidden hs h hshown, delta, hshown]
    cases base type id <;> rfl
  | some k =>
    obtain ⟨e, he, rfl, hstate, hstray, rfl, hid⟩ := hw.visible?_eq_some.mp hshown
    have hsame : e.state = e.origin := (hw.ledger.states e he).2.resolve_right hstate
    have hnew := hw.state?_eq_new he hstate
    rcases (hw.ledger.states e he).1 with hadded | hloaded
    · rw [hw.content_of_shown hs h he hstate hstray hid hshown
        (Ledger.changeOf_of_added hadded (hsame.trans hadded)) (by decide), delta, hshown]
      cases base (w.store.pool.typeName e.entity) id with
      | none => rfl
      | some loaded => simp [hnew.mpr hadded]
    · have hstored : state? e.entity w ≠ some .new := by
        rw [ne_eq, hnew, hloaded]
        decide
      obtain ⟨id', hid', hbase⟩ := hw.ledger.origins e he hstray hloaded
      obtain rfl : id = id' := Option.some.inj (hid.symm.trans hid')
      have hchange := Ledger.changeOf_of_loaded (p := w.store.pool) hloaded (hsame.trans hloaded)
      rw [delta, hshown, hbase]
      simp only
      by_cases hunedited : (Snapshot.capture w.store.pool e.entity).same e.snapshot = true
      · rw [if_pos hunedited] at hchange
        rw [if_pos ⟨hstored, hunedited⟩]
        exact hw.content_of_unedited hs h he hloaded hstray hid hshown hchange
      · rw [if_neg hunedited] at hchange
        rw [if_neg fun h => hunedited h.2]
        exact hw.content_of_shown hs h he hstate hstray hid hshown hchange (by decide)

/-- What a commit under the lock leaves when it goes through. -/
theorem exec_locked_commit_of_ok (hok : (exec (locked commit) w).1 = .ok ()) :
    w.session.poisoned = false ∧ ∃ s', exec (Store.commit (changeset w)) w.store = (.ok (), s') ∧
      (exec (locked commit) w).2 = ⟨s', { w.session with ledger := [], caches := [] }⟩ := by
  rw [exec_locked] at hok ⊢
  cases hpoisoned : w.session.poisoned with
  | true =>
    rw [hpoisoned] at hok
    cases hok
  | false =>
    rw [hpoisoned, if_neg Bool.false_ne_true, exec_run, exec_commit] at hok
    rw [if_neg Bool.false_ne_true, exec_run, exec_commit]
    rcases hrun : exec (Store.commit (changeset w)) w.store with ⟨e | _, s'⟩
    · rw [hrun] at hok
      cases hok
    · exact ⟨rfl, s', rfl, rfl⟩

end Session

namespace World

open Session

variable {w : World} {k : Nat}

/-- **A commit applies the delta of its session**, and nothing else: whatever the session and others
have done before, when the commit goes through then the content of every type is the content there
was with the delta applied, and the session tracks nothing any more. -/
theorem commit_applies_delta (hw : w.Reachable)
    (hok : (exec (locked commit) (w.work k)).1 = .ok ()) :
    (∀ type id, (w.call k commit).store.content type id
        = delta (w.base k) (w.work k) w.store.content type id) ∧
      ((w.call k commit).session k).ledger = [] ∧ ((w.call k commit).session k).caches = [] := by
  obtain ⟨hfree, s', hrun, hafter⟩ := exec_locked_commit_of_ok hok
  obtain ⟨strays, hk⟩ := hw.inOrder.sessions k hfree
  have hs : (w.work k).store.Orderly := hw.inOrder.store
  have hspec := Store.commit_spec hs.sound hs.inMemory fun c hc => (Tracks.handsOver hk c hc).1
  rw [hrun] at hspec
  have hstore : (w.call k commit).store = s' := congrArg Work.store hafter
  have hsession : (w.call k commit).session k
      = { (w.work k).session with ledger := [], caches := [] } :=
    (Function.update_self k _ w.session).trans (congrArg Work.session hafter)
  rw [hstore, hsession]
  exact ⟨Tracks.content_eq_delta hk hs hspec, rfl, rfl⟩

open Samples

theorem plain_redAndBlue {made : List Entity} (hmade : ∀ e ∈ made, e.Plain) :
    (redAndBlue made).Plain where
  yields := by
    intro type es hes e he
    revert e
    rcases Store.loaded_redAndBlue hes with rfl | ⟨rfl, rfl⟩
    · exact fun _ he => absurd he List.not_mem_nil
    · decide
  pool := Pool.Holds.allocAll (fun h hh => absurd hh (Nat.not_lt_zero h)) lasting_plain hmade

/-- While one session has the tags checked out, another removes the blue one. The first adds a green
one, has the red one become crimson and commits: the blue one does not come back. -/
theorem commit_applies_delta_beside_removal :
    let w := (((((((opening (redAndBlue [])).make (tagNamed none "green")).call 0
      (Call.getById "tag" 1).run).call 1 (Call.getBySlug "tag" "blue").run).call 1
      (Call.remove 6).run).call 1 Call.commit.run).call 0 (Call.add 0).run).edit 3
      fun e => e.set "name" (.value (.string "crimson"))
    (∀ type id, (w.call 0 commit).store.content type id
        = delta (w.base 0) (w.work 0) w.store.content type id) ∧
      (w.call 0 commit).store.content "tag" 2 = none ∧ ((w.call 0 commit).session 0).ledger = [] := by
  intro w
  have hstore : (redAndBlue []).Initial := Store.initial_redAndBlue (by decide)
  have hopening := (Reachable.opening hstore (plain_redAndBlue (by decide))).make
    (e := tagNamed none "green") (by decide)
  have hremoved := ((hopening.call 0 (.getById "tag" 1) (by decide)).call 1
    (.getBySlug "tag" "blue") (by decide)).call 1 (.remove 6) (by decide +kernel)
  have hadded := (hremoved.call 1 .commit (by decide)).call 0 (.add 0) (by decide +kernel)
  have hw : w.Reachable := by
    refine hadded.edit (not_withheld (by decide +kernel) fun k => ?_) rfl rfl (by decide +kernel)
    rcases k with _ | _ | k
    · decide +kernel
    · decide +kernel
    · -- the other sessions have not been called
      have hzero : k + 2 ≠ 0 := by omega
      have hone : k + 2 ≠ 1 := by omega
      simp only [session_call_of_ne hzero, session_call_of_ne hone]
      exact fun ⟨⟨_, he, _⟩, _⟩ => absurd he List.not_mem_nil
  obtain ⟨hcontent, hledger, -⟩ := commit_applies_delta hw (k := 0) (by decide +kernel)
  refine ⟨hcontent, ?_, hledger⟩
  rw [hcontent]
  exact Option.isNone_iff_eq_none.mp (by decide +kernel)

end World

end EntityStore
