import EntityStore.Proofs.Repository.Runs
import Mathlib.Data.List.Pairwise

/-!
# Looking up what is committed

A commit checks ids and slugs before it numbers what it adds, and a load does so too. A slug that
does not depend on the id is the same after the numbering, so what was checked still holds; and the
ids that are given are new. Every cache of a repository therefore holds no key twice, under indexes
that find each entity by its keys and nothing else, as long as nobody else edits its entities.
-/

namespace EntityStore

/-- An entity type whose slug does not depend on the id. -/
def EntityType.SlugFixed (t : EntityType) : Prop :=
  ∀ e : Entity, e.type = t → ∀ id, (e.setId id).slug = e.slug

theorem Entity.Completes.slug {e e' : Entity} (h : e.Completes e') (hfixed : e'.type.SlugFixed) :
    e'.slug = e.slug := by
  rcases h with rfl | ⟨-, id, rfl⟩
  · rfl
  · exact hfixed e rfl (some id)

/-- Being given ids leaves the slugs of a roster as they are. -/
theorem Roster.slugs_of_completes {r r' : Roster} (h : List.Forall₂ Entity.Completes r r')
    (hfixed : ∀ e ∈ r', e.type.SlugFixed) : r'.slugs = r.slugs := by
  induction h with
  | nil => rfl
  | cons hhead htail ih =>
    obtain ⟨hfirst, hrest⟩ := List.forall_mem_cons.mp hfixed
    rw [slugs_cons, slugs_cons, hhead.slug hfirst, ih hrest]

/-- Where slugs are unique, a slug has one holder. -/
theorem Pool.eq_of_slug_eq {p : Pool} {hs : List Handle} (hunique : (p.roster hs).slugs.Nodup)
    {g h : Handle} (hg : g ∈ hs) (hh : h ∈ hs) {slug : String} (hgslug : p.slug g = some slug)
    (hhslug : p.slug h = some slug) : g = h := by
  rw [slugs_roster, List.Nodup, List.pairwise_filterMap] at hunique
  have hsymm : Std.Symm fun g h : Handle =>
      ∀ a, p.slug g = some a → ∀ b, p.slug h = some b → a ≠ b :=
    ⟨fun _ _ hne a ha b hb => (hne b hb a ha).symm⟩
  by_contra hne
  exact hunique.forall hg hh hne slug hgslug slug hhslug rfl

namespace Cache

variable {pool : Pool} {c : Cache}

theorem Checked.uniqueKeys (hc : c.Checked pool)
    (hfixed : ∀ h ∈ c.entities, (pool.entity h).type.SlugFixed) :
    (pool.roster c.entities).UniqueKeys := by
  obtain ⟨r, hunique, hcompletes⟩ := hc.unique
  refine ⟨hc.ids, ?_⟩
  rw [Roster.slugs_of_completes hcompletes (List.forall_mem_map.mpr hfixed)]
  exact hunique.slugs

theorem Committed.refresh (hc : c.Committed pool) : c.refresh pool = c := by
  rw [Cache.refresh, hc.fresh]
  rfl

/-- Look-up by id finds the listed entity of the id, and changes nothing. -/
theorem Committed.getById_iff (hc : c.Committed pool) (id : EntityId) :
    (c.getById pool id).2 = c ∧
      ∀ h, (c.getById pool id).1 = some h ↔ h ∈ c.entities ∧ pool.id h = some id := by
  obtain ⟨hfound, hafter⟩ := hc.toKeyed.getById id
  rw [hfound, hafter, hc.refresh]
  exact ⟨rfl, fun h => ⟨Pool.holder?_eq_some, fun ⟨hh, hid⟩ => Pool.holder?_eq hc.ids hh hid⟩⟩

/-- Look-up by slug finds the listed entity of the slug, and changes nothing. -/
theorem Checked.getBySlug_iff (hc : c.Checked pool)
    (hunique : (pool.roster c.entities).slugs.Nodup) (slug : String) :
    (c.getBySlug pool slug).2 = c ∧
      ∀ h, (c.getBySlug pool slug).1 = some h ↔ h ∈ c.entities ∧ pool.slug h = some slug := by
  unfold getBySlug
  rw [hc.toCommitted.refresh]
  refine ⟨rfl, fun h => ⟨hc.bySlug.sound, fun ⟨hh, hslug⟩ => ?_⟩⟩
  exact hc.bySlug.get?_eq hh hslug fun g hg hgslug => Pool.eq_of_slug_eq hunique hg hh hgslug hslug

end Cache

/-- All entities, those at hand and those that loaders yield, are of types whose slug does not depend
on the id. -/
structure Store.SlugFixed (s : Store) : Prop where
  pool : s.pool.Holds fun _ e => e.type.SlugFixed
  supplies : s.Supplies fun _ e => e.type.SlugFixed

theorem lasting_slugFixed : Lasting fun _ e => e.type.SlugFixed where
  mono := fun _ h => h
  setId := fun _ h => h

theorem Store.SlugFixed.progress {s s' : Store} (hs : s.SlugFixed) (h : Progress s s') :
    s'.SlugFixed where
  pool := h.holds lasting_slugFixed hs.supplies hs.pool
  supplies := Supplies.imp hs.supplies (fun _ _ he => he) h.loader

/-- All caches of the repository have been checked. -/
def Store.AllChecked (s : Store) : Prop :=
  ∀ {type c}, s.repository.caches.find? type = some c → c.Checked s.pool

namespace Store.AllChecked

variable {s s' : Store}

/-- **Preserved by every step.** -/
theorem progress (hs : s.AllChecked) (h : Progress s s') : s'.AllChecked := by
  intro type c hfind
  rcases h.caches hfind with hold | hnew
  · exact (hs hold).grows h.pool
  · exact hnew.1

/-- What others do keeps caches checked, as long as they leave the entities of the repository
alone. -/
theorem meanwhile (hs : s.AllChecked) (h : s.Meanwhile Eq s') : s'.AllChecked := by
  intro type c hfind
  rw [h.caches] at hfind
  exact (hs hfind).congr h.next_le fun k hk => (h.owned k ⟨type, c, hfind, hk⟩).symm

end Store.AllChecked

theorem Store.Untouched.allChecked {s : Store} (h : s.Untouched) : s.AllChecked := by
  intro type c hfind
  rw [h.caches] at hfind
  cases hfind

namespace Run

variable {ms : List Moment} {s : Store} {type : String} {c : Cache}

/-- After a run in which nobody else edits its entities, every cache of the repository is checked. -/
theorem checked (h : Run Eq ms s) : s.AllChecked := by
  induction h with
  | start h => exact h.allChecked
  | @ask ms s hrun r hlive ih =>
    obtain ⟨hs, -⟩ := hrun.upkept fun heq => heq ▸ ⟨rfl, rfl⟩
    obtain ⟨hready, hafter⟩ := hs.ask hlive
    exact ih.progress (hready.trans hafter)
  | meanwhile _ h' ih => exact ih.meanwhile h'

/-- **What is committed can be looked up.** After any run in which nobody else edits the entities of
the repository, every entity of a loaded type whose slug does not depend on the id has an id, no two
of them share an id or a slug, the indexes are up to date, and look-up by id and by slug finds the
listed entity that holds the key and no other. -/
theorem lookup_iff (h : Run Eq ms s) (hfind : s.repository.caches.find? type = some c)
    (hfixed : ∀ h ∈ c.entities, (s.pool.entity h).type.SlugFixed) :
    (∀ h ∈ c.entities, s.pool.id h ≠ none) ∧ (s.pool.roster c.entities).UniqueKeys ∧
      c.entities.Nodup ∧ c.stale = false ∧
      (∀ id, (c.getById s.pool id).2 = c ∧
        ∀ h, (c.getById s.pool id).1 = some h ↔ h ∈ c.entities ∧ s.pool.id h = some id) ∧
      ∀ slug, (c.getBySlug s.pool slug).2 = c ∧
        ∀ h, (c.getBySlug s.pool slug).1 = some h ↔ h ∈ c.entities ∧ s.pool.slug h = some slug := by
  have hc := h.checked hfind
  have hunique := hc.uniqueKeys hfixed
  exact ⟨hc.numbered, hunique, hc.nodup, hc.fresh, fun id => hc.toCommitted.getById_iff id,
    fun slug => hc.getBySlug_iff hunique.slugs slug⟩

open Samples

/-- The name of a tag is its slug, whatever its id is. -/
theorem slugFixed_tag : tag.SlugFixed := by
  rintro ⟨type, id, fields⟩ rfl id'
  rfl

theorem slugFixed_redAndBlue {made : List Entity} (hmade : ∀ e ∈ made, e.type.SlugFixed) :
    (redAndBlue made).SlugFixed where
  pool := Pool.Holds.allocAll (fun h hh => absurd hh (Nat.not_lt_zero h)) lasting_slugFixed hmade
  supplies := supplies_redAndBlue (P := fun _ e => e.type.SlugFixed)
    (List.forall_mem_cons.mpr ⟨slugFixed_tag, List.forall_mem_singleton.mpr slugFixed_tag⟩)

/-- A tag without an id is committed beside two that were loaded, and then one that is refused. Each
is found by its keys. -/
theorem lookup_iff_redAndBlue :
    let s := redAndBlue [tagNamed none "green", tagNamed none "red"]
    let m₁ : Moment := ⟨s, .commit [⟨.add, 0⟩]⟩
    let m₂ : Moment := ⟨m₁.after, .commit [⟨.add, 1⟩]⟩
    (exec (Store.commit [⟨.add, 1⟩]) m₂.store).1 = .error (.duplicateSlug "tag" "red") ∧
      ∃ c, m₂.after.repository.caches.find? "tag" = some c ∧ c.entities = [2, 3, 4] ∧
        (c.getById m₂.after.pool 3).1 = some 4 ∧
        (c.getBySlug m₂.after.pool "green").1 = some 4 ∧
        (c.getBySlug m₂.after.pool "red").1 = some 2 := by
  intro s m₁ m₂
  have hrun : Run Eq [m₁, m₂] m₂.after :=
    ((Run.start (untouched_redAndBlue _)).ask m₁.request (by decide +kernel)).ask m₂.request
      (by decide +kernel)
  obtain ⟨c, hfind, hlist⟩ : ∃ c, m₂.after.repository.caches.find? "tag" = some c ∧
      c.entities = [2, 3, 4] :=
    Option.map_eq_some_iff.mp (by decide +kernel)
  have hkeeps : ∀ {e e' : Entity}, e = e' → e.SameKey e' := fun heq => heq ▸ ⟨rfl, rfl⟩
  have hfirst : m₁.store.SlugFixed := slugFixed_redAndBlue
    (List.forall_mem_cons.mpr ⟨slugFixed_tag, List.forall_mem_singleton.mpr slugFixed_tag⟩)
  have hsecond : m₂.store.SlugFixed := by
    simp only [m₂]
    exact hfirst.progress (hrun.progress hkeeps List.mem_cons_self)
  have hfixed : m₂.after.SlugFixed := hsecond.progress (hrun.progress hkeeps (by simp))
  obtain ⟨-, -, -, -, hids, hslugs⟩ := hrun.lookup_iff hfind
    fun h hh => hfixed.pool h ((hrun.checked hfind).live h hh)
  have hmem : ∀ k ∈ [2, 3, 4], k ∈ c.entities := fun k hk => hlist ▸ hk
  refine ⟨by decide +kernel, c, hfind, hlist, ?_, ?_, ?_⟩
  · exact ((hids 3).2 4).mpr ⟨hmem 4 (by decide), by decide +kernel⟩
  · exact ((hslugs "green").2 4).mpr ⟨hmem 4 (by decide), by decide +kernel⟩
  · exact ((hslugs "red").2 2).mpr ⟨hmem 2 (by decide), by decide +kernel⟩

end Run

end EntityStore
