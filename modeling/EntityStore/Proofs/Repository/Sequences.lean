import EntityStore.Proofs.Repository.Acceptance

/-!
# Sequences and commits that fail

A commit moves a type's sequence on when it finishes the type, and does not know then whether the
types that come after will pass. If one of them does not, the sequences that were moved on stay
so. Whether that can be noticed is settled by the ids of what had been finished: none of them may
lie beyond the last id that was drawn for its type or is held in it.
-/

namespace EntityStore

/-- Where the ids of a roster are those of another and new ones of a sequence, and the last one
drawn is among them, that is the latest there is. -/
theorem Cache.Numbered.latest {hs : List Handle} {p q : Pool} {last last' : EntityId}
    (h : Numbered hs p q ((p.roster hs).latest last) last') (hpq : p.Grows q)
    (hlive : ∀ k ∈ hs, k < p.next) : last' = (q.roster hs).latest last := by
  have hmono : (p.roster hs).latest last = last ∨
      (p.roster hs).latest last ∈ (q.roster hs).ids := by
    refine (Roster.latest_eq_or_mem _ _).imp_right fun hmem => ?_
    obtain ⟨k, hk, hid⟩ := Pool.mem_ids_roster.mp hmem
    refine Pool.mem_ids_roster.mpr ⟨k, hk, ?_⟩
    rw [hpq.id (hlive k hk) (by rw [hid]; exact Option.some_ne_none _), hid]
  have hadvanced := h.advanced
  have hlast := Roster.le_latest (p.roster hs) last
  refine Int64.toInt_inj.mp (Int.le_antisymm ?_ (Roster.latest_le (by omega) ?_))
  · rcases h.reached with heq | hmem
    · rw [heq]
      rcases hmono with heq' | hmem
      · rw [heq']
        exact Roster.le_latest _ _
      · exact Roster.id_le_latest _ hmem
    · exact Roster.id_le_latest _ hmem
  · intro id hid
    rcases h.ids id hid with hold | hnew
    · have hle := Roster.id_le_latest last hold
      omega
    · exact hnew.2

namespace Store

variable {s s' : Store} {cs : Caches} {changes : Changeset} {type : String}

/-- The last id that was drawn for a type or is held in it. The next one to be drawn follows it. -/
def lastDrawn (s : Store) (type : String) : Except StoreError EntityId :=
  (s.opened type).map fun (r, last) => r.latest last

/-- An id lies beyond the last one that was drawn for a type or is held in it. -/
def Beyond (s : Store) (type : String) (id : EntityId) : Prop :=
  match s.lastDrawn type with
  | .ok last => last.toInt < id.toInt
  | .error _ => False

instance (s : Store) (type : String) (id : EntityId) : Decidable (s.Beyond type id) := by
  unfold Beyond
  split <;> infer_instance

/-- A list of ids is looked through; there are too many ids to look through them all. -/
instance (priority := 2000) {P : EntityId → Prop} [DecidablePred P] (ids : List EntityId) :
    Decidable (∀ id ∈ ids, P id) := List.decidableBAll P ids

/-- The caches that are finished, one after the other, before one fails. -/
def finishedOf : Caches → Store → Caches
  | [], _ => []
  | c :: rest, s =>
    match exec (finish c) s with
    | (.ok c', s) => c' :: finishedOf rest s
    | (.error _, _) => []

/-- The caches that a commit finishes before it fails, if it does. -/
def finished (s : Store) (changes : Changeset) : Caches :=
  match exec (changes.foldlM stage []) s with
  | (.ok staged, s) => finishedOf staged s
  | (.error _, _) => []

/-! ## What is drawn next -/

theorem newId_outcome (s : Store) (type : String) :
    (exec (newId type) s).1 = (s.lastDrawn type).bind fun last => (advance type last).1 := by
  rw [exec_newId, lastDrawn, opened]
  rcases exec (checkout type) s with ⟨e | c, s'⟩
  · rfl
  · show _ = (advance type ((s'.pool.roster c.entities).latest (s'.repository.lastId type))).1
    simp only
    cases (advance type ((s'.pool.roster c.entities).latest (s'.repository.lastId type))).1 <;> rfl

/-- Where an id was drawn last can be told from the next one. -/
theorem advance_inj {a b : EntityId} (h : (advance type a).1 = (advance type b).1) : a = b := by
  refine EntityId.next?_inj ?_
  unfold advance at h
  cases ha : a.next? with
  | none =>
    cases hb : b.next? with
    | none => rfl
    | some _ => rw [ha, hb] at h; cases h
  | some _ =>
    cases hb : b.next? with
    | none => rw [ha, hb] at h; cases h
    | some _ => rw [ha, hb] at h; exact congrArg some (Except.ok.inj h)

/-! ## What finishing moves on -/

/-- However far it comes, finishing changes sequences and ids and nothing else. -/
theorem finishing_mapM (htypes : cs.types.Nodup) (hcs : ∀ c ∈ cs, c.Keyed s.pool) :
    Finishing s cs (exec (cs.mapM finish) s).2 := by
  have hspec := finishAll_spec htypes hcs
  rcases hrun : exec (cs.mapM finish) s with ⟨e | cs', s'⟩
  · rw [hrun] at hspec
    exact hspec.1
  · rw [hrun] at hspec
    exact hspec.1

theorem snd_mapM_of_error {c : Cache} {rest : Caches} {e : StoreError}
    (hrun : exec (finish c) s = (.error e, s')) :
    (exec ((c :: rest).mapM finish) s).2 = s' := by
  rw [List.mapM_cons, exec_bind, hrun]

theorem snd_mapM_of_ok {c c' : Cache} {rest : Caches}
    (hrun : exec (finish c) s = (.ok c', s')) :
    (exec ((c :: rest).mapM finish) s).2 = (exec (rest.mapM finish) s').2 := by
  rw [List.mapM_cons, exec_bind, hrun]
  show (exec (rest.mapM finish >>= fun cs => pure (c' :: cs)) s').2 = _
  rw [exec_bind]
  rcases exec (rest.mapM finish) s' with ⟨_ | _, _⟩ <;> rfl

/-- Finishing some caches moves on the sequences of those that are finished, to the latest of
their ids, and no others. -/
theorem finishedOf_spec (htypes : cs.types.Nodup) (hcs : ∀ c ∈ cs, c.Keyed s.pool) :
    (finishedOf cs s).types.Sublist cs.types ∧
      (∀ type, type ∉ (finishedOf cs s).types →
        (exec (cs.mapM finish) s).2.repository.lastId type = s.repository.lastId type) ∧
      ∀ c ∈ finishedOf cs s, (exec (cs.mapM finish) s).2.repository.lastId c.type
        = ((exec (cs.mapM finish) s).2.pool.roster c.entities).latest (s.repository.lastId c.type) := by
  induction cs generalizing s with
  | nil => exact ⟨.slnil, fun _ _ => rfl, fun _ h => absurd h List.not_mem_nil⟩
  | cons c rest ih =>
    obtain ⟨htype, hrest⟩ := List.nodup_cons.mp htypes
    obtain ⟨hc, hkeyed⟩ := List.forall_mem_cons.mp hcs
    have hfirst := finish_spec hc
    rw [finishedOf]
    rcases hrun : exec (finish c) s with ⟨e | c', s'⟩
    · rw [hrun] at hfirst
      refine ⟨List.nil_sublist _, ?_, fun _ h => absurd h List.not_mem_nil⟩
      intro type _
      rw [snd_mapM_of_error hrun, hfirst.2.1]
    · rw [hrun] at hfirst
      obtain ⟨hfinishing, hfinished⟩ := hfirst
      have hkeyed' : ∀ d ∈ rest, d.Keyed s'.pool :=
        fun d hd => (hfinishing.apart hc htype hkeyed d hd).2.1
      obtain ⟨hsub, hsame, hmoved⟩ := ih hrest hkeyed'
      have htail := finishing_mapM hrest hkeyed'
      have hfresh : c.type ∉ (finishedOf rest s').types := fun hmem => htype (hsub.mem hmem)
      rw [snd_mapM_of_ok hrun]
      refine ⟨?_, ?_, ?_⟩
      · show (c'.type :: (finishedOf rest s').types).Sublist (c.type :: Caches.types rest)
        rw [hfinished.type]
        exact hsub.cons_cons _
      · intro type hnot
        have hne : type ∉ Caches.types [c] := by
          intro hmem
          refine hnot ?_
          rw [List.mem_singleton.mp hmem, ← hfinished.type]
          exact List.mem_cons_self
        rw [hsame type fun hmem => hnot (List.mem_cons_of_mem _ hmem), hfinishing.lastId hne]
      · intro d hd
        rcases List.mem_cons.mp hd with rfl | hd
        · have hkept := hfinished.committed.kept htail.grows
          rw [Pool.roster_congr hkept, hfinished.type, hsame _ hfresh, hfinished.entities]
          exact hfinished.numbered.latest hfinishing.grows hc.live
        · have hne : d.type ∉ Caches.types [c] := by
            intro hmem
            exact hfresh (List.mem_singleton.mp hmem ▸ List.mem_map_of_mem hd)
          rw [hmoved d hd, hfinishing.lastId hne]

/-! ## Commits that fail -/

/-- A loaded type reads the same when finishing fails, but for its sequence. -/
theorem Finishing.opened_of_some {s₁ : Store} (h : Finishing s₁ cs s') (hs : s₁.Sound) {c : Cache}
    (hfind : s₁.repository.caches.find? type = some c) :
    s'.opened type = .ok (s₁.pool.roster c.entities, s'.repository.lastId type) := by
  have hfind' : s'.repository.caches.find? type = some c := by
    rw [h.repository]
    exact hfind
  rw [Store.opened_of_some hfind', Pool.roster_congr ((hs.committed hfind).kept h.grows)]

/-- What a commit that fails leaves of what its types open to: the rosters stay, and the sequences
of the types it had finished stand at the latest id of these. -/
theorem opened_of_refused (hs : s.Sound) (hmemory : s.InMemory)
    (hlive : ∀ c ∈ changes, c.entity < s.pool.next) {e : StoreError}
    (hfail : exec (commit changes) s = (.error e, s')) :
    (∀ type, type ∉ (s.finished changes).types → s'.opened type = s.opened type) ∧
      ∀ c ∈ s.finished changes, ∃ r last, s.opened c.type = .ok (r, last) ∧
        s'.opened c.type = .ok (r, (s'.pool.roster c.entities).latest last) := by
  have hstaging := (staging_nil hs).run hlive
  rw [List.nil_append] at hstaging
  unfold commit at hfail
  unfold finished
  rw [exec_bind, exec_applyAll] at hfail
  rcases hrun : exec (changes.foldlM stage []) s with ⟨e₁ | staged, s₁⟩
  · rw [hrun] at hstaging hfail
    obtain rfl : s₁ = s' := (Prod.mk.inj hfail).2
    exact ⟨fun type _ => hstaging.1.opened type, fun _ h => absurd h List.not_mem_nil⟩
  · rw [hrun] at hstaging hfail
    have hkeyed : ∀ c ∈ staged, c.Keyed s₁.pool := fun c hc => (hstaging.copies c hc).toKeyed
    have hfinish := finishAll_spec hstaging.types hkeyed
    obtain ⟨hsub, hsame, hmoved⟩ := finishedOf_spec hstaging.types hkeyed
    simp only at hfail ⊢
    rcases hrun' : exec (staged.mapM finish) s₁ with ⟨e₂ | cs, s₂⟩
    · rw [hrun'] at hfinish hfail hsame hmoved
      obtain rfl : s₂ = s' := (Prod.mk.inj hfail).2
      obtain ⟨hfinishing, -⟩ := hfinish
      refine ⟨?_, ?_⟩
      · intro type hnot
        rw [← hstaging.opened]
        cases hfind : s₁.repository.caches.find? type with
        | some c =>
          rw [hfinishing.opened_of_some hstaging.sound hfind, Store.opened_of_some hfind,
            hsame type hnot]
        | none =>
          have hfirst := hstaging.toRetains.find?_eq_none hfind
          have hfind' : s₂.repository.caches.find? type = none := by
            rw [hfinishing.repository]
            exact hfind
          rw [(hstaging.frame_finishing hfinishing).opened_of_none hfirst hfind',
            hstaging.toFrame.opened_of_none hfirst hfind]
      · intro c hc
        obtain ⟨d, hd⟩ := hstaging.loaded c.type (hsub.mem (List.mem_map_of_mem hc))
        refine ⟨_, _, (hstaging.opened c.type).symm.trans (Store.opened_of_some hd), ?_⟩
        rw [hfinishing.opened_of_some hstaging.sound hd, hmoved c hc]
    · rw [hrun'] at hfinish hfail
      obtain ⟨hfinishing, hall, htypes, hcs⟩ := hfinish
      have hcommitted := hstaging.committed hfinishing hs hall htypes hcs
      simp only at hfail
      rw [exec_forM_dump (hcommitted.toFrame.inMemory hmemory)] at hfail
      cases hfail

/-- A sequence that is moved on to the ids of a roster goes on as before if and only if these do
not lie beyond it. -/
theorem latest_latest_iff {r q : Roster} {last : EntityId} :
    r.latest (q.latest last) = r.latest last ↔ ∀ id ∈ q.ids, id.toInt ≤ (r.latest last).toInt := by
  constructor
  · intro heq id hid
    rw [← heq]
    exact Int.le_trans (Roster.id_le_latest _ hid) (Roster.le_latest _ _)
  · intro hids
    refine Int64.toInt_inj.mp (Int.le_antisymm (Roster.latest_le ?_ ?_) (Roster.latest_le ?_ ?_))
    · exact Roster.latest_le (Roster.le_latest _ _) hids
    · exact fun id hid => Roster.id_le_latest _ hid
    · exact Int.le_trans (Roster.le_latest q last) (Roster.le_latest _ _)
    · exact fun id hid => Roster.id_le_latest _ hid

theorem not_beyond_iff {r : Roster} {last : EntityId} (hopened : s.opened type = .ok (r, last))
    {id : EntityId} : ¬ s.Beyond type id ↔ id.toInt ≤ (r.latest last).toInt := by
  have hdrawn : s.lastDrawn type = .ok (r.latest last) := by rw [lastDrawn, hopened]; rfl
  rw [Beyond, hdrawn]
  exact Int.not_lt

/-- **Sequences after a commit that fails.** For every type the next id to be drawn is the one
that would have been drawn before, if and only if nothing the commit had finished when it failed
holds an id beyond the last one drawn for its type or held in it. -/
theorem newId_after_refusal_iff (hs : s.Reachable)
    (hlive : ∀ c ∈ changes, c.entity < s.pool.next) {e : StoreError}
    (hfail : (exec (commit changes) s).1 = .error e) :
    (∀ type, (exec (newId type) (exec (commit changes) s).2).1 = (exec (newId type) s).1) ↔
      ∀ c ∈ s.finished changes, ∀ id ∈ ((exec (commit changes) s).2.pool.roster c.entities).ids,
        ¬ s.Beyond c.type id := by
  obtain ⟨s', hs'⟩ : ∃ s', (exec (commit changes) s).2 = s' := ⟨_, rfl⟩
  obtain ⟨hsame, hmoved⟩ :=
    opened_of_refused hs.sound.1 hs.sound.2 hlive (Prod.ext hfail hs')
  rw [hs']
  simp only [newId_outcome]
  constructor
  · intro hnext c hc id hid
    obtain ⟨r, last, hopened, hopened'⟩ := hmoved c hc
    have hequal := hnext c.type
    rw [lastDrawn, lastDrawn, hopened, hopened'] at hequal
    rw [not_beyond_iff hopened]
    exact latest_latest_iff.mp (advance_inj hequal) id hid
  · intro hids type
    by_cases htype : type ∈ (s.finished changes).types
    · obtain ⟨c, hc, rfl⟩ := List.mem_map.mp htype
      obtain ⟨r, last, hopened, hopened'⟩ := hmoved c hc
      have hlatest : r.latest ((s'.pool.roster c.entities).latest last) = r.latest last :=
        latest_latest_iff.mpr fun id hid => (not_beyond_iff hopened).mp (hids c hc id hid)
      rw [lastDrawn, lastDrawn, hopened, hopened']
      show (advance c.type (r.latest ((s'.pool.roster c.entities).latest last))).1 = _
      rw [hlatest]
      rfl
    · rw [lastDrawn, lastDrawn, hsame type htype]

open Samples

/-- A tag is renamed, and people come of whom two go by one name: the commit fails when it has
finished the tags, and all that is drawn next is what it would have been. -/
theorem newId_after_refused_people :
    let s := redAndBlue [tagNamed (some 1) "crimson", personCalled 7 "al", personCalled 8 "bo",
      personCalled 8 "al"]
    ∀ type, (exec (newId type)
        (exec (commit [⟨.update, 0⟩, ⟨.add, 1⟩, ⟨.add, 2⟩, ⟨.update, 3⟩]) s).2).1
      = (exec (newId type) s).1 :=
  (newId_after_refusal_iff (e := .duplicateSlug "person" "al")
    (.initial (initial_redAndBlue (by decide))) (by decide) (by decide +kernel)).mpr
    (by decide +kernel)

/-- A person with the last id there is comes, and a tag takes the name of another. The commit
fails when it has finished the people, and no person gets an id any more. -/
theorem not_newId_after_refused_tags :
    let s := (exec (load "person") (exec (load "tag")
      (redAndBlue [personCalled EntityId.last "al", tagNamed (some 1) "blue"])).2).2
    s.Reachable ∧
      (exec (commit [⟨.add, 0⟩, ⟨.update, 1⟩]) s).1 = .error (.duplicateSlug "tag" "blue") ∧
      (exec (newId "person") s).1 = .ok 1 ∧
      (exec (newId "person") (exec (commit [⟨.add, 0⟩, ⟨.update, 1⟩]) s).2).1
        = .error (.idsExhausted "person") := by
  refine ⟨?_, by decide +kernel, by decide +kernel, by decide +kernel⟩
  exact .load (.load (.initial (initial_redAndBlue (by decide))) "tag") "person"

end Store

end EntityStore
