import EntityStore.Proofs.Repository.Loading

/-!
# Staging the changes of a commit

The first half of a commit applies the changes one by one to copies of the caches they touch. It
changes nothing that was there: it may load types, and it makes entities of its own. Each copy
reads as the opened type with the changes of that type made to it.
-/

namespace EntityStore

/-- The changes that concern a type, by what they say. -/
def Changeset.editsOf (pool : Pool) (type : String) (cs : Changeset) : List Edit :=
  (cs.filter fun c => pool.typeName c.entity = type).map (Change.edit pool)

/-- A changeset touches a type. -/
def Changeset.Touches (pool : Pool) (cs : Changeset) (type : String) : Prop :=
  ∃ c ∈ cs, pool.typeName c.entity = type

namespace Changeset

variable {pool : Pool} {type : String} {c : Change} {cs ds : Changeset}

theorem editsOf_append :
    editsOf pool type (cs ++ ds) = editsOf pool type cs ++ editsOf pool type ds := by
  rw [editsOf, List.filter_append, List.map_append]
  rfl

theorem editsOf_singleton (h : pool.typeName c.entity = type) :
    editsOf pool type [c] = [c.edit pool] := by
  rw [editsOf, List.filter_cons_of_pos (by simpa using h)]
  rfl

theorem editsOf_singleton_of_ne (h : pool.typeName c.entity ≠ type) :
    editsOf pool type [c] = [] := by
  rw [editsOf, List.filter_cons_of_neg (by simpa using h)]
  rfl

theorem touches_append_singleton :
    Touches pool (cs ++ [c]) type ↔ Touches pool cs type ∨ pool.typeName c.entity = type := by
  unfold Touches
  simp [or_and_right, exists_or]

theorem editsOf_eq_nil (h : ¬ Touches pool cs type) : editsOf pool type cs = [] := by
  rw [editsOf, List.filter_eq_nil_iff.mpr]
  · rfl
  · intro c hc htype
    exact h ⟨c, hc, by simpa using htype⟩

end Changeset

/-- A condition on the rosters that the changes meet holds of every change that a changeset makes
to a type, which has a roster. -/
def Store.Meets (p : Roster → Edit → Prop) (s : Store) (cs : Changeset) (type : String) : Prop :=
  ∃ r last, s.opened type = .ok (r, last) ∧ r.Throughout p (cs.editsOf s.pool type)

namespace Store

variable {s₀ s s' : Store} {done : Changeset} {change : Change} {staged : Caches}

/-- Where a commit stands when some changes are staged. -/
structure Staging (s₀ : Store) (done : Changeset) (staged : Caches) (s : Store) : Prop
    extends Retains s₀ s where
  sound : s.Sound
  opened : ∀ type, s.opened type = s₀.opened type
  /-- No type is staged twice. -/
  types : staged.types.Nodup
  /-- What is staged is what is touched. -/
  touched : ∀ type, type ∈ staged.types ↔ done.Touches s₀.pool type
  /-- What is staged has been loaded. -/
  loaded : ∀ type ∈ staged.types, ∃ c, s.repository.caches.find? type = some c
  copies : ∀ c ∈ staged, c.Staged s₀.pool.next s.pool
  /-- A staged cache reads as the type with its changes made, all of which fit. -/
  reads : ∀ c ∈ staged, ∃ r last, s₀.opened c.type = .ok (r, last) ∧
    r.Throughout Roster.Fits (done.editsOf s₀.pool c.type) ∧
    s.pool.roster c.entities = r.edits (done.editsOf s₀.pool c.type)

/-- A staged type has been loaded, and its sequence stands where it stood when it was opened. -/
theorem Staging.lastId (h : Staging s₀ done staged s) {type : String} (htype : type ∈ staged.types)
    {r : Roster} {last : EntityId} (hopened : s₀.opened type = .ok (r, last)) :
    s.repository.lastId type = last := by
  obtain ⟨c, hc⟩ := h.loaded type htype
  rw [← h.opened, opened_of_some hc] at hopened
  exact (Prod.mk.inj (Except.ok.inj hopened)).2

theorem staging_nil (hs : s.Sound) : Staging s [] [] s where
  toRetains := .refl s
  sound := hs
  opened := fun _ => rfl
  types := List.nodup_nil
  touched := fun _ => iff_of_false List.not_mem_nil fun ⟨_, h, _⟩ => absurd h List.not_mem_nil
  loaded := fun _ h => absurd h List.not_mem_nil
  copies := fun _ h => absurd h List.not_mem_nil
  reads := fun _ h => absurd h List.not_mem_nil

/-- What stays the same when a commit fails to stage its changes. -/
structure Unstaged (s₀ s : Store) : Prop extends Retains s₀ s where
  sound : s.Sound
  opened : ∀ type, s.opened type = s₀.opened type

theorem Staging.unstaged (h : Staging s₀ done staged s) : Unstaged s₀ s :=
  ⟨h.toRetains, h.sound, h.opened⟩

/-- A step that makes entities of its own and changes nothing else. -/
theorem Staging.extends (h : Staging s₀ done staged s) (hr : Retains s s') (hsound : s'.Sound)
    (hopened : ∀ type, s'.opened type = s.opened type) : Staging s₀ done staged s' where
  toRetains := h.toRetains.trans hr
  sound := hsound
  opened := fun type => (hopened type).trans (h.opened type)
  types := h.types
  touched := h.touched
  loaded := by
    intro type htype
    obtain ⟨c, hc⟩ := h.loaded type htype
    exact ⟨c, hr.caches hc⟩
  copies := fun c hc => (h.copies c hc).extends hr.pool
  reads := by
    intro c hc
    rw [hr.pool.roster (h.copies c hc).live]
    exact h.reads c hc

/-- The cache that a change is applied to reads as its type with the changes so far. -/
theorem Staging.stagedOn (h : Staging s₀ done staged s) (type : String) :
    match exec (stagedOn staged type) s with
    | (.error _, s') => Unstaged s₀ s' ∧ ∃ e, s₀.opened type = .error e
    | (.ok c, s') => Staging s₀ done staged s' ∧ c.type = type ∧ c.Staged s₀.pool.next s'.pool ∧
        (∃ d, s'.repository.caches.find? type = some d) ∧ ∃ r last,
          s₀.opened type = .ok (r, last) ∧ r.Throughout Roster.Fits (done.editsOf s₀.pool type) ∧
          s'.pool.roster c.entities = r.edits (done.editsOf s₀.pool type) := by
  unfold Store.stagedOn
  cases hfind : staged.find? type with
  | some c =>
    have hc := Caches.mem_of_find? hfind
    have htype := Caches.type_of_find? hfind
    refine ⟨h, htype, h.copies c hc, ?_, htype ▸ h.reads c hc⟩
    exact h.loaded type (htype ▸ List.mem_map_of_mem hc)
  | none =>
    have huntouched : ¬ done.Touches s₀.pool type := by
      rw [← h.touched, ← Caches.isSome_find?, hfind]
      exact Bool.false_ne_true
    simp only
    rcases hrun : exec (checkout type) s with ⟨e | c, s'⟩
    · have hspec := h.sound.failsToLoad hrun
      refine ⟨⟨h.toRetains.trans hspec.toRetains, hspec.sound, fun t => ?_⟩, e, ?_⟩
      · rw [opened_of_checkout h.sound hrun, h.opened]
      · rw [← h.opened, Store.opened, hrun]
    · have hspec := h.sound.loads hrun
      have hc := hspec.sound.committed hspec.found
      have hopened : s₀.opened type
          = .ok (s'.pool.roster c.entities, s'.repository.lastId type) := by
        rw [← h.opened, Store.opened, hrun]
      refine ⟨h.extends hspec.toRetains hspec.sound (opened_of_checkout h.sound hrun),
        Caches.type_of_find? hspec.found, hc.staged _, ⟨c, hspec.found⟩, _, _, hopened, ?_⟩
      rw [Changeset.editsOf_eq_nil huntouched]
      exact ⟨trivial, rfl⟩

/-- A cache is staged that reads as its type with the change made to it. -/
theorem Staging.put (h : Staging s₀ done staged s) {c : Cache}
    (htype : s₀.pool.typeName change.entity = c.type)
    (hloaded : ∃ d, s.repository.caches.find? c.type = some d) (hc : c.Staged s₀.pool.next s.pool)
    {r : Roster} {last : EntityId} (hopened : s₀.opened c.type = .ok (r, last))
    (hfits : r.Throughout Roster.Fits (done.editsOf s₀.pool c.type ++ [change.edit s₀.pool]))
    (hreads : s.pool.roster c.entities
      = r.edits (done.editsOf s₀.pool c.type ++ [change.edit s₀.pool])) :
    Staging s₀ (done ++ [change]) (staged.put c) s where
  toRetains := h.toRetains
  sound := h.sound
  opened := h.opened
  types := Caches.nodup_types_put staged c h.types
  touched := by
    intro t
    rw [Caches.mem_types_put, h.touched, Changeset.touches_append_singleton, htype, or_comm,
      eq_comm (a := t)]
  loaded := by
    intro t ht
    rcases (Caches.mem_types_put staged c).mp ht with rfl | ht
    · exact hloaded
    · exact h.loaded t ht
  copies := by
    intro d hd
    rcases Caches.eq_or_mem_of_mem_put h.types hd with rfl | ⟨hd, -⟩
    · exact hc
    · exact h.copies d hd
  reads := by
    intro d hd
    rw [Changeset.editsOf_append]
    rcases Caches.eq_or_mem_of_mem_put h.types hd with rfl | ⟨hd, hne⟩
    · rw [Changeset.editsOf_singleton htype]
      exact ⟨r, last, hopened, hfits, hreads⟩
    · rw [Changeset.editsOf_singleton_of_ne fun heq => hne (heq.symm.trans htype), List.append_nil]
      exact h.reads d hd

/-- **Staging one change** -/
theorem Staging.stage (h : Staging s₀ done staged s) (hlive : change.entity < s₀.pool.next) :
    match exec (stage staged change) s with
    | (.ok staged', s') => Staging s₀ (done ++ [change]) staged' s'
    | (.error _, s') => Unstaged s₀ s' ∧ ∀ r last,
        s₀.opened (s₀.pool.typeName change.entity) = .ok (r, last) →
        ¬ ((r.edits (done.editsOf s₀.pool (s₀.pool.typeName change.entity))).Fits
            (change.edit s₀.pool) ∧
          (r.edits (done.editsOf s₀.pool (s₀.pool.typeName change.entity))).SlugFree
            (change.edit s₀.pool)) := by
  have htypeName : s.pool.typeName change.entity = s₀.pool.typeName change.entity :=
    h.pool.typeName hlive
  generalize htype : s₀.pool.typeName change.entity = type at *
  have hon := h.stagedOn type
  rw [exec_stage, htypeName]
  rcases hrun : exec (Store.stagedOn staged type) s with ⟨e | c, s'⟩
  · rw [hrun] at hon
    obtain ⟨hunstaged, e', he'⟩ := hon
    refine ⟨hunstaged, ?_⟩
    intro r last hopened
    rw [he'] at hopened
    cases hopened
  · rw [hrun] at hon
    obtain ⟨h', rfl, hc, hloaded, r, last, hopened, hfits, hreads⟩ := hon
    have hedit : change.edit s'.pool = change.edit s₀.pool := by
      rw [Change.edit, Change.edit, h'.pool.kept _ hlive]
    have happlied := Cache.applied hc h'.pool.next_le hlive ((h'.pool.typeName hlive).trans htype)
    rw [hedit] at happlied
    have hedited := happlied.edited
    have hrefused := happlied.refused
    rw [hreads] at hedited hrefused
    simp only
    have hframe : Frame s' { s' with pool := (c.apply change s'.pool).2.2 } :=
      ⟨rfl, rfl, rfl, rfl, happlied.extended, fun hP _ hp => happlied.holds hP hp⟩
    have h'' := h'.extends ⟨hframe, fun hd => hd⟩
      (h'.sound.frame hframe .inl)
      (h'.sound.opened_of_pool hframe rfl)
    rcases hout : c.apply change s'.pool with ⟨e | _, c', pool⟩
    · rw [hout] at h'' hrefused
      refine ⟨h''.unstaged, ?_⟩
      intro r' last' hopened'
      rw [hopened] at hopened'
      obtain ⟨rfl, rfl⟩ := Prod.mk.inj (Except.ok.inj hopened')
      exact hrefused fun hok => by cases hok
    · rw [hout] at happlied h'' hedited
      have hctype : c'.type = c.type := happlied.type
      obtain ⟨hfit, hedited⟩ := hedited rfl
      rw [← hctype] at htype hloaded hopened hfits hfit hedited
      refine h''.put htype hloaded happlied.staged hopened ?_ ?_
      · exact Roster.throughout_append.mpr ⟨hfits, hfit, trivial⟩
      · rw [Roster.edits_append]
        exact hedited

/-- **Staging a changeset.** It goes through if all types can be opened, all changes fit and no
addition takes a slug that is held at its turn; what is staged then reads as edited. -/
theorem Staging.run (h : Staging s₀ done staged s) {changes : Changeset}
    (hlive : ∀ c ∈ changes, c.entity < s₀.pool.next) :
    match exec (changes.foldlM Store.stage staged) s with
    | (.ok staged', s') => Staging s₀ (done ++ changes) staged' s'
    | (.error _, s') => Unstaged s₀ s' ∧ ¬ ∀ type, changes.Touches s₀.pool type →
        s₀.Meets Roster.Fits (done ++ changes) type ∧
          s₀.Meets Roster.SlugFree (done ++ changes) type := by
  induction changes generalizing done staged s with
  | nil =>
    rw [List.foldlM_nil, exec_pure, List.append_nil]
    exact h
  | cons c rest ih =>
    obtain ⟨hc, hrest⟩ := List.forall_mem_cons.mp hlive
    have hstep := h.stage hc
    rw [List.foldlM_cons, exec_bind]
    rcases hrun : exec (Store.stage staged c) s with ⟨e | staged', s'⟩
    · rw [hrun] at hstep
      obtain ⟨hunstaged, hrefused⟩ := hstep
      refine ⟨hunstaged, ?_⟩
      intro hall
      obtain ⟨⟨r, last, hopened, hfits⟩, ⟨r', last', hopened', hfree⟩⟩ :=
        hall (s₀.pool.typeName c.entity) ⟨c, List.mem_cons_self, rfl⟩
      rw [hopened] at hopened'
      obtain ⟨rfl, rfl⟩ := Prod.mk.inj (Except.ok.inj hopened')
      rw [List.append_cons, Changeset.editsOf_append, Changeset.editsOf_append,
        Changeset.editsOf_singleton rfl, Roster.throughout_append, Roster.throughout_append]
        at hfits hfree
      exact hrefused r last hopened ⟨hfits.1.2.1, hfree.1.2.1⟩
    · rw [hrun] at hstep
      have htail := ih hstep hrest
      rw [← List.append_cons] at htail
      simp only
      rcases hrest' : exec (rest.foldlM Store.stage staged') s' with ⟨e | staged'', s''⟩
      · rw [hrest'] at htail
        refine ⟨htail.1, ?_⟩
        intro hall
        refine htail.2 fun type htouched => hall type ?_
        obtain ⟨d, hd, hdt⟩ := htouched
        exact ⟨d, List.mem_cons_of_mem _ hd, hdt⟩
      · rw [hrest'] at htail
        exact htail

end Store

end EntityStore
