import EntityStore.Proofs.Repository.Owning
import EntityStore.Proofs.Repository.Persisting
import EntityStore.Proofs.Repository.TagRows
import EntityStore.Proofs.Session.Abiding

/-!
# Tags that are kept

A repository keeps tags as rows of a table, and sessions work on it in any order; in between others
make entities, edit them, and ask things of the repository themselves. Whoever opens another repository
over the directory finds the tags that are held now, in order and with all they have, **exactly if
their weights are finite**. Otherwise the table cannot be opened any more, though the commit that wrote
it went through: a weight that is not finite is kept as null, which is no weight.

This assumes that finite weights are read back from their digits, and that the file can be written.
-/

namespace EntityStore

namespace Samples

/-- A store that keeps tags as rows of a table, and that has just been opened. -/
def tagStore (p : Pool) (settings : Settings) (d : Directory) : Store :=
  ⟨p, d, (Repository.empty settings).withRows tagRows⟩

/-- What is called a tag is one. -/
def TagIfNamed (e : Entity) : Prop := e.type.name = "tag" → IsTag e

theorem lasting_tagIfNamed : Lasting fun _ e => TagIfNamed e where
  mono := fun _ h => h
  setId := by
    intro n e id h htype
    obtain ⟨_, name, weight, rfl⟩ := h htype
    exact ⟨id, name, weight, rfl⟩

theorem lasting_hasFiniteWeight : Lasting fun _ e => HasFiniteWeight e where
  mono := fun _ h => h
  setId := fun _ h => h

variable {p : Pool} {settings : Settings} {d : Directory} {r : Roster} {last : EntityId}

/-- What is loaded are tags of finite weights. -/
theorem supplies_tagStore : (tagStore p settings d).Supplies fun type e =>
    type = "tag" ∧ IsTag e ∧ HasFiniteWeight e := by
  intro type loader directory es hloader hes e he
  have hloader : (if type = "tag" then some (Loader.ofRows tagRows) else none) = some loader := hloader
  split at hloader
  · next htype =>
    obtain rfl := Option.some.inj hloader
    cases hload : tagRows.load directory with
    | error fault =>
      rw [Loader.ofRows, hload] at hes
      cases hes
    | ok es' =>
      rw [Loader.ofRows, hload] at hes
      obtain rfl := Except.ok.inj hes
      exact ⟨htype, isTag_of_load hload e he⟩
  · cases hloader

theorem untouched_tagStore : (tagStore p settings d).Untouched where
  caches := rfl
  typed := by
    intro type loader directory es hloader hes e he
    obtain ⟨htype, htag, -⟩ := supplies_tagStore hloader hes e he
    rw [htype, htag.type]
    rfl

/-- Who can open a directory finds finite weights only. -/
theorem hasFiniteWeight_of_opened (hopened : (tagStore p settings d).opened "tag" = .ok (r, last)) :
    ∀ e ∈ r, HasFiniteWeight e := by
  -- what lives in the store need not have finite weights, so the directory is opened in an empty one
  have hopened : (tagStore .empty settings d).opened "tag" = .ok (r, last) :=
    (Store.opened_withRows_congr _ _ _ _ _ _).trans hopened
  have hupkept : (tagStore .empty settings d).Upkept := untouched_tagStore.upkept
  obtain ⟨hprogress, -⟩ := hupkept.checkout "tag"
  have hfinite := hprogress.holds lasting_hasFiniteWeight
    (fun hloader hes e he => (supplies_tagStore hloader hes e he).2.2)
    fun h hh => absurd hh (Nat.not_lt_zero h)
  obtain ⟨c, hfind, rfl⟩ := hupkept.checkout_of_opened hopened
  have hkeyed := (hupkept.progress hprogress).keyed hfind
  exact List.forall_mem_map.mpr fun h hh => hfinite h (hkeyed.live h hh)

/-- **What is read from the file of tags** that are in order. -/
theorem opened_tagStore (htags : ∀ e ∈ r, IsTag e) (hunique : r.UniqueKeys)
    (hnumbered : ∀ e ∈ r, e.id ≠ none)
    (hreads : ∀ e ∈ r, ∀ x ∈ weight? e, x.isFinite = true → Json.ReadsBack x)
    (hkept : d.kept? "tags" = some (tagRows.file r)) :
    ((∀ e ∈ r, HasFiniteWeight e) → ∃ last, (tagStore p settings d).opened "tag" = .ok (r, last)) ∧
    ((∃ e ∈ r, ¬ HasFiniteWeight e) →
      (tagStore p settings d).opened "tag" = .error (.persist (.unfitRow "tags"))) := by
  have hopened := Store.opened_withRows p settings tagRows d
  have hload : tagRows.load d = tagRows.decodeAll (r.map tagRows.encode) :=
    RowFormat.load_of_file hkept fun e he => (htags e he).faithful (hreads e he)
  rw [hload] at hopened
  refine ⟨fun hfinite => ?_, fun ⟨e, he, hinfinite⟩ => ?_⟩
  · have hdecode : tagRows.decodeAll (r.map tagRows.encode) = .ok r :=
      RowFormat.decodeAll_encode fun e he => (htags e he).decodeTag?_encodeTag (hfinite e he)
    obtain ⟨c, last, hfill, hroster⟩ := Store.fill_of_numbered p "tag" hunique hnumbered
    rw [hdecode] at hopened
    refine ⟨last, hopened.trans ?_⟩
    show (Store.fill p "tag" r).1.map _ = _
    rw [hfill]
    exact congrArg (fun held => Except.ok (held, last)) hroster
  · have hdecode : tagRows.decodeAll (r.map tagRows.encode) = .error (.unfitRow "tags") :=
      RowFormat.decodeAll_of_unfit
        ⟨_, List.mem_map_of_mem he, (htags e he).decodeTag?_eq_none hinfinite⟩
    rw [hdecode] at hopened
    exact hopened

end Samples

namespace World

open Samples Session

variable {w : World} {k : Nat}

/-- The worlds over a store that keeps tags, in a directory in which there is room for them. -/
inductive KeepsTags : World → Prop
  | opening (settings : Settings) {p : Pool} {d : Directory} (hp : p.Holds fun _ => TagIfNamed)
    (hroom : d.full "tags" = false) : KeepsTags (opening (tagStore p settings d))
  | call {w : World} (hw : KeepsTags w) (k : Nat) (c : Call)
    (hlive : ∀ h ∈ c.entity?, h < w.store.pool.next) : KeepsTags (w.call k c.run)
  /-- Others ask something of the store. -/
  | ask {w : World} (hw : KeepsTags w) (r : Request) (hlive : r.Live w.store) :
    KeepsTags { w with store := (exec r.run w.store).2 }
  | make {w : World} (hw : KeepsTags w) {e : Entity} (he : TagIfNamed e) : KeepsTags (w.make e)
  /-- Whoever has an entity edits it in place, though not those of the repository. -/
  | edit {w : World} (hw : KeepsTags w) {h : Handle} {f : Entity → Entity}
    (howned : ¬ w.store.Owns h) (hkey : (w.store.pool.entity h).SameKey (f (w.store.pool.entity h)))
    (hf : TagIfNamed (f (w.store.pool.entity h))) : KeepsTags (w.edit h f)

/-- That tags are kept abides. -/
theorem abiding_persists {format : RowFormat} : Abiding (Store.Persists format) where
  checkout := fun type hup hs => hs.checkout hup type
  newId := fun type hup hs => hs.newId hup type
  commit := fun hup hlive hs => hs.commit hup hlive
  pool := fun hup hpool hs => hs.pool hup hpool

/-- An invariant of these worlds. -/
structure Tagged (w : World) : Prop where
  store : w.store.Upkept
  checked : w.store.AllChecked
  rows : w.store.Persists tagRows
  supplies : w.store.Supplies fun _ => TagIfNamed
  pool : w.store.pool.Holds fun _ => TagIfNamed
  sessions : ∀ k, (w.session k).poisoned = false → Coherent (fun _ => False) (w.work k)

theorem tagged_opening (settings : Settings) {p : Pool} {d : Directory}
    (hp : p.Holds fun _ => TagIfNamed) (hroom : d.full "tags" = false) :
    Tagged (opening (tagStore p settings d)) where
  store := untouched_tagStore.upkept
  checked := untouched_tagStore.allChecked
  rows := Store.persists_withRows p settings (by decide) hroom
  supplies := fun hloader hes e he _ => (supplies_tagStore hloader hes e he).2.1
  pool := hp
  sessions := fun _ _ => coherent_nil untouched_tagStore.upkept (.inl fun _ => False.elim) false

/-- The store goes on, and every session stays as it is. -/
theorem Tagged.goesOn (hw : w.Tagged) {s : Store} (h : w.store.Progress s)
    (hrows : s.Persists tagRows) : Tagged { w with store := s } where
  store := hw.store.progress h
  checked := Store.AllChecked.progress hw.checked h
  rows := hrows
  supplies := Store.Supplies.imp hw.supplies (fun _ _ he => he) h.loader
  pool := h.holds lasting_tagIfNamed hw.supplies hw.pool
  sessions := fun k hfree => (hw.sessions k hfree).progress h

/-- **Preserved by calls**, whatever comes of them. -/
theorem Tagged.call (hw : w.Tagged) (c : Call) (hlive : ∀ h ∈ c.entity?, h < w.store.pool.next) :
    Tagged (w.call k c.run) := by
  obtain ⟨hprogress, hk⟩ := c.conducts_locked (w := w.work k) (hw.sessions k) hlive
  have hrows := c.keeps_locked (w := w.work k) abiding_persists (hw.sessions k) hlive hw.rows
  have hothers := hw.goesOn hprogress hrows
  -- for all but the session that is called the store has merely gone on
  refine ⟨hothers.store, hothers.checked, hothers.rows, hothers.supplies, hothers.pool,
    fun j hfree => ?_⟩
  by_cases hj : j = k
  · have hself : (w.call k c.run).work j = (exec (locked c.run) (w.work k)).2 := by
      rw [hj]
      exact congrArg (Work.mk _) (Function.update_self k _ _)
    rw [hself]
    exact hk (congrArg Work.session hself ▸ hfree)
  · have hsame := session_call_of_ne (w := w) hj c.run
    have hother : (w.call k c.run).work j
        = { w.work j with store := (exec (locked c.run) (w.work k)).2.store } :=
      congrArg (Work.mk _) hsame
    rw [hother]
    exact hothers.sessions j (hsame ▸ hfree)

/-- Others make entities and edit them, and leave those of the repository alone. -/
theorem Tagged.outside (hw : w.Tagged) {pool : Pool} (hnext : w.store.pool.next ≤ pool.next)
    (howned : ∀ h, w.store.Owns h → pool.entity h = w.store.pool.entity h)
    (hkey : ∀ h < w.store.pool.next, (w.store.pool.entity h).SameKey (pool.entity h))
    (hpool : pool.Holds fun _ => TagIfNamed) :
    Tagged { w with store := { w.store with pool } } := by
  -- sessions only rely on ids and types, which stay; the repository on what it owns
  have hmeanwhile : w.store.Meanwhile Eq { w.store with pool } :=
    ⟨hnext, fun h hh => (howned h hh).symm, rfl, rfl, hw.store.typed⟩
  have hupkept := hw.store.meanwhile hmeanwhile fun heq => heq ▸ ⟨rfl, rfl⟩
  have hkept : ∀ {c}, w.store.repository.caches.find? "tag" = some c →
      ∀ h ∈ c.entities, pool.entity h = w.store.pool.entity h :=
    fun hfind h hh => howned h ⟨"tag", _, hfind, hh⟩
  refine ⟨hupkept, Store.AllChecked.meanwhile hw.checked hmeanwhile, ?_, ?_, hpool, fun k hfree => ?_⟩
  · exact hw.rows.spares ⟨rfl, rfl, rfl⟩ (Store.roster?_of_kept rfl rfl hkept)
  · exact Store.Supplies.imp hw.supplies (fun _ _ he => he) rfl
  · have hk := hw.sessions k hfree
    have hlive := fun e he => (hk.ledger.live e he).1
    refine hk.congr hupkept (.inl fun _ => False.elim) hnext ?_ ?_
    · exact fun e he => (hkey e.entity (hlive e he)).1
    · exact fun e he => (hkey e.entity (hlive e he)).2

/-- **Every world that comes about.** -/
theorem KeepsTags.tagged (hw : w.KeepsTags) : w.Tagged := by
  induction hw with
  | opening settings hp hroom => exact tagged_opening settings hp hroom
  | call _ k c hlive ih => exact ih.call c hlive
  | ask _ r hlive ih =>
    obtain ⟨hready, hafter⟩ := ih.store.ask hlive
    exact ih.goesOn (hready.trans hafter) (ih.rows.ask ih.store hlive)
  | @make w _ e he ih =>
    have hextends := Pool.extends_alloc w.store.pool e
    refine ih.outside hextends.next_le ?_ ?_ (ih.pool.alloc lasting_tagIfNamed he)
    · exact fun h hh => hextends.kept h (ih.store.alive h hh)
    · exact fun h hh => hextends.kept h hh ▸ ⟨rfl, rfl⟩
  | edit _ howned hkey hf ih =>
    refine ih.outside (Nat.le_refl _) ?_ (fun g _ => Pool.sameKey_edit hkey g)
      (ih.pool.edit fun _ => hf)
    exact fun g hg => Pool.entity_edit_of_ne fun heq => howned (heq ▸ hg)

/-! ## What is held -/

/-- What is held of tags are tags that have ids, and no key twice. -/
theorem Tagged.held (hw : w.Tagged) {r : Roster} {last : EntityId}
    (hopened : w.store.opened "tag" = .ok (r, last)) :
    (∀ e ∈ r, IsTag e) ∧ r.UniqueKeys ∧ ∀ e ∈ r, e.id ≠ none := by
  obtain ⟨hprogress, -⟩ := hw.store.checkout "tag"
  have hloaded := hw.goesOn hprogress (hw.rows.checkout hw.store "tag")
  obtain ⟨c, hfind, rfl⟩ := hw.store.checkout_of_opened hopened
  have hkeyed := hloaded.store.keyed hfind
  have htags : ∀ h ∈ c.entities,
      IsTag ((exec (Store.checkout "tag") w.store).2.pool.entity h) := by
    intro h hh
    -- the cache is the one of tags, so what it lists is called a tag
    have htype := (hkeyed.typed h hh).trans (Caches.type_of_find? hfind)
    exact hloaded.pool h (hkeyed.live h hh) htype
  refine ⟨List.forall_mem_map.mpr htags, ?_, List.forall_mem_map.mpr (hloaded.store.numbered hfind)⟩
  refine Cache.Checked.uniqueKeys (hloaded.checked hfind) fun h hh => ?_
  rw [(htags h hh).type]
  exact Run.slugFixed_tag

/-- **Tags are there again.** Let a directory be opened, and whatever happen to the repository and its
sessions. If the weights of all tags that are held are finite, the directory can be opened again, and
the same tags are loaded in the same order. If one is not, the directory cannot be opened. -/
theorem KeepsTags.opened_again (hw : w.KeepsTags) {r : Roster} {last : EntityId}
    (hopened : w.store.opened "tag" = .ok (r, last))
    (hreads : ∀ e ∈ r, ∀ x ∈ weight? e, x.isFinite = true → Json.ReadsBack x)
    (p : Pool) (settings : Settings) :
    ((∀ e ∈ r, HasFiniteWeight e) →
      ∃ last', (tagStore p settings w.store.directory).opened "tag" = .ok (r, last')) ∧
    ((∃ e ∈ r, ¬ HasFiniteWeight e) →
      (tagStore p settings w.store.directory).opened "tag" = .error (.persist (.unfitRow "tags"))) := by
  have htagged := hw.tagged
  obtain ⟨htags, hunique, hnumbered⟩ := htagged.held hopened
  have hroster : w.store.roster? "tag" = some r := Store.roster?_of_opened hopened
  rcases htagged.rows.rows with hunwritten | ⟨r', hr', hcontent⟩
  · -- what is held is what is read from the file, which is still the one that was there at first
    have hread : (w.store.reopened tagRows).roster? "tag" = some r :=
      Eq.trans (Eq.symm hunwritten) hroster
    obtain ⟨last', hread⟩ := Store.opened_of_roster? hread
    have hagain : (tagStore p settings w.store.directory).opened "tag" = .ok (r, last') :=
      (Store.opened_withRows_congr p w.store.pool settings w.store.repository.settings tagRows
        w.store.directory).trans hread
    refine ⟨fun _ => ⟨last', hagain⟩, fun ⟨e, he, hinfinite⟩ => ?_⟩
    exact absurd (hasFiniteWeight_of_opened hagain e he) hinfinite
  · obtain rfl : r = r' := Option.some.inj (hroster.symm.trans hr')
    exact opened_tagStore htags hunique hnumbered hreads hcontent

/-- Somebody has made a tag and added it to a session. -/
def brought (weight : Binary64) : World :=
  ((opening (tagStore .empty .defaults (.empty "."))).make (tagOf none "a \"b\"\nc" weight)).call 0
    (Call.add 0).run

/-- The session has committed it. -/
def keeping (weight : Binary64) : World := (brought weight).call 0 Call.commit.run

theorem keepsTags_keeping (weight : Binary64) : KeepsTags (keeping weight) := by
  have hopening : KeepsTags (opening (tagStore .empty .defaults (.empty "."))) :=
    .opening .defaults (fun h hh => absurd hh (Nat.not_lt_zero h)) rfl
  have hmade := hopening.make (e := tagOf none "a \"b\"\nc" weight) fun _ => ⟨_, _, _, rfl⟩
  refine (hmade.call 0 (.add 0) ?_).call 0 .commit nofun
  intro h hh
  obtain rfl := Option.some.inj hh
  exact Nat.zero_lt_one

/-- The ids, the names and the weights of tags. -/
def shape (r : Roster) : List (Option EntityId × Option String × Option Binary64) :=
  r.map fun e => (e.id, e.slug, weight? e)

/-- A tag of a finite weight is there again, line break and all. -/
theorem opened_again_keeping :
    let w := keeping ⟨0x3FF8000000000000⟩
    w.KeepsTags ∧ ∃ r last last', w.store.opened "tag" = .ok (r, last) ∧
      shape r = [(some 1, some "a \"b\"\nc", some ⟨0x3FF8000000000000⟩)] ∧
      (tagStore .empty .defaults w.store.directory).opened "tag" = .ok (r, last') := by
  intro w
  have hw : w.KeepsTags := keepsTags_keeping _
  obtain ⟨r, hr, hshape⟩ : ∃ r, w.store.roster? "tag" = some r ∧
      shape r = [(some 1, some "a \"b\"\nc", some ⟨0x3FF8000000000000⟩)] :=
    Option.map_eq_some_iff.mp (by decide +kernel)
  obtain ⟨last, hopened⟩ := Store.opened_of_roster? hr
  obtain ⟨e, rfl, he⟩ := List.map_eq_singleton_iff.mp hshape
  have hweight : ∀ x ∈ weight? e, x = ⟨0x3FF8000000000000⟩ := by
    intro x hx
    rw [(Prod.mk.inj (Prod.mk.inj he).2).2] at hx
    exact (Option.some.inj hx).symm
  have hreads : Json.ReadsBack ⟨0x3FF8000000000000⟩ := by decide +kernel
  obtain ⟨hagain, -⟩ := hw.opened_again hopened
    (List.forall_mem_singleton.mpr fun x hx _ => hweight x hx ▸ hreads) .empty .defaults
  obtain ⟨last', hagain⟩ := hagain <| List.forall_mem_singleton.mpr fun x hx => by
    rw [hweight x hx]
    decide
  exact ⟨hw, [e], last, last', hopened, hshape, hagain⟩

/-- A tag whose weight is no number is committed, and is held. Then the table cannot be opened any
more. -/
theorem not_opened_again_of_nan :
    let w := keeping .nan
    w.KeepsTags ∧
      (exec (locked Call.commit.run) ((brought .nan).work 0)).1 = .ok () ∧
      (w.store.roster? "tag").map shape = some [(some 1, some "a \"b\"\nc", some .nan)] ∧
      (tagStore .empty .defaults w.store.directory).opened "tag"
        = .error (.persist (.unfitRow "tags")) := by
  intro w
  have hfault : ((tagStore .empty .defaults w.store.directory).opened "tag").map (fun _ => ())
      = .error (.persist (.unfitRow "tags")) := by decide +kernel
  refine ⟨keepsTags_keeping .nan, by decide +kernel, by decide +kernel, ?_⟩
  rcases hopened : (tagStore .empty .defaults w.store.directory).opened "tag" with fault | out
  · rw [hopened] at hfault
    exact congrArg Except.error (Except.error.inj hfault)
  · rw [hopened] at hfault
    cases hfault

end World

end EntityStore
