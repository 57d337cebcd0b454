import EntityStore.Proofs.Repository.Writing
import EntityStore.Samples.Stores
import EntityStore.Samples.TagRows

/-!
# Commits whose tables cannot all be written

A commit takes effect in memory before tables are written, and it is not undone where one of them
cannot be. So a store that keeps tables holds what it would hold if it kept none, however often
writing fails. Each table is as it was found, or else it is made of what was held of its type right
after some commit, as a whole. And a commit that goes through brings the tables of all types that it
touches up to what is held, with what earlier commits had failed to write.
-/

namespace EntityStore

/-! ## Two ways to set up a repository -/

/-- Two formats of different types, whose tables are not kept in one file of a directory. -/
def RowFormat.Apart (d : Directory) (f g : RowFormat) : Prop :=
  f.type.name ≠ g.type.name ∧ d.Apart f.type.table g.type.table

instance (d : Directory) (f g : RowFormat) : Decidable (RowFormat.Apart d f g) :=
  inferInstanceAs (Decidable (f.type.name ≠ g.type.name ∧ _))

instance (d : Directory) : Std.Symm (RowFormat.Apart d) where
  symm _ _ h := ⟨h.1.symm, fun place hplace hplace' => h.2 place hplace' hplace⟩

namespace Repository

/-- A repository that keeps types as rows of tables. -/
def keeping (settings : Settings) (formats : List RowFormat) : Repository :=
  formats.foldl withRows (empty settings)

/-- A repository that keeps no tables, and loads whatever another finds in a directory. -/
def remembering (r : Repository) (d : Directory) : Repository :=
  { r with
    loader? := fun type => (r.loader? type).map fun loader _ => loader d
    format? := fun _ => none }

variable {settings : Settings} {formats : List RowFormat} {r : Repository} {type : String}
  {format : RowFormat}

theorem format?_foldl_withRows (hformats : formats.Pairwise fun f g => f.type.name ≠ g.type.name) :
    (formats.foldl withRows r).format? type = some format ↔
      (format ∈ formats ∧ format.type.name = type) ∨
        (∀ f ∈ formats, f.type.name ≠ type) ∧ r.format? type = some format := by
  induction formats generalizing r with
  | nil => simp
  | cons f rest ih =>
    obtain ⟨hfirst, hrest⟩ := List.pairwise_cons.mp hformats
    have hformat : (r.withRows f).format? type = if type = f.type.name then some f else r.format? type :=
      rfl
    rw [List.foldl_cons, ih hrest, hformat]
    by_cases htype : type = f.type.name
    · rw [if_pos htype]
      constructor
      · rintro (⟨hmem, hname⟩ | ⟨-, hsome⟩)
        · exact .inl ⟨List.mem_cons_of_mem f hmem, hname⟩
        · obtain rfl := Option.some.inj hsome
          exact .inl ⟨List.mem_cons_self, htype.symm⟩
      · rintro (⟨hmem, hname⟩ | ⟨hnone, -⟩)
        · rcases List.mem_cons.mp hmem with rfl | hmem
          · exact .inr ⟨fun g hg heq => hfirst g hg (htype.symm.trans heq.symm), rfl⟩
          · exact .inl ⟨hmem, hname⟩
        · exact absurd htype.symm (hnone f List.mem_cons_self)
    · rw [if_neg htype]
      constructor
      · rintro (⟨hmem, hname⟩ | ⟨hnone, hr⟩)
        · exact .inl ⟨List.mem_cons_of_mem f hmem, hname⟩
        · exact .inr ⟨List.forall_mem_cons.mpr ⟨Ne.symm htype, hnone⟩, hr⟩
      · rintro (⟨hmem, hname⟩ | ⟨hnone, hr⟩)
        · rcases List.mem_cons.mp hmem with rfl | hmem
          · exact absurd hname.symm htype
          · exact .inl ⟨hmem, hname⟩
        · exact .inr ⟨(List.forall_mem_cons.mp hnone).2, hr⟩

/-- The formats of a repository are those it was set up with. -/
theorem format?_keeping (hformats : formats.Pairwise fun f g => f.type.name ≠ g.type.name) :
    (keeping settings formats).format? type = some format ↔
      format ∈ formats ∧ format.type.name = type := by
  unfold keeping
  rw [format?_foldl_withRows hformats]
  refine or_iff_left ?_
  rintro ⟨-, hformat⟩
  cases hformat

theorem loader?_keeping (settings : Settings) (formats : List RowFormat) (type : String) :
    (keeping settings formats).loader? type
      = ((keeping settings formats).format? type).map .ofRows := by
  have hfold : ∀ r : Repository, r.loader? type = (r.format? type).map .ofRows →
      (formats.foldl withRows r).loader? type
        = ((formats.foldl withRows r).format? type).map .ofRows := by
    induction formats with
    | nil => exact fun r hr => hr
    | cons f rest ih =>
      intro r hr
      refine ih _ ?_
      show (if type = f.type.name then some (Loader.ofRows f) else r.loader? type)
        = (if type = f.type.name then some f else r.format? type).map .ofRows
      split
      · rfl
      · exact hr
  exact hfold (empty settings) rfl

end Repository

namespace Store

variable {s t : Store} {changes : Changeset} {settings : Settings} {formats : List RowFormat}

/-- A store that keeps types of several formats. -/
theorem tabular_keeping {d : Directory} (hformats : formats.Pairwise (RowFormat.Apart d)) (p : Pool) :
    Tabular ⟨p, d, .keeping settings formats⟩ where
  loader := Repository.loader?_keeping settings formats
  apart := by
    intro type format other format' hformat hformat' hne
    have hnames := hformats.imp And.left
    obtain ⟨hmem, rfl⟩ := (Repository.format?_keeping hnames).mp hformat
    obtain ⟨hmem', rfl⟩ := (Repository.format?_keeping hnames).mp hformat'
    exact (hformats.forall hmem hmem' fun heq => hne (heq ▸ rfl)).2

/-- The store in memory that holds what another does, and that keeps no tables. -/
def memoryTwin (s : Store) : Store := { s with repository := s.repository.remembering s.directory }

/-! ## Beside a store that keeps no tables -/

/-- A store that keeps no tables, and whose loaders yield the same whatever is in the directory. -/
structure Remembers (t : Store) : Prop where
  inMemory : t.InMemory
  fixed : ∀ {type loader}, t.repository.loader? type = some loader → ∀ d d', loader d = loader d'

theorem Remembers.congr {t' : Store} (ht : t.Remembers)
    (hloader : t'.repository.loader? = t.repository.loader?)
    (hformat : t'.repository.format? = t.repository.format?) : t'.Remembers where
  inMemory := by
    unfold InMemory
    rw [hformat]
    exact ht.inMemory
  fixed := by
    rw [hloader]
    exact ht.fixed

/-- A store that keeps tables, and a twin that keeps none. -/
structure Mirrors (s t : Store) : Prop extends Twins s t where
  tabular : s.Tabular
  remembers : t.Remembers

theorem mirrors_memoryTwin (hs : s.Tabular) : Mirrors s s.memoryTwin where
  pool := rfl
  caches := rfl
  lastId := rfl
  loaded := by
    intro type _
    unfold loaded memoryTwin Repository.remembering
    cases hloader : s.repository.loader? type <;> simp only [hloader, Option.map]
  tabular := hs
  remembers := by
    refine ⟨fun _ => rfl, fun hloader d d' => ?_⟩
    obtain ⟨own, -, rfl⟩ := Option.map_eq_some_iff.mp hloader
    rfl

theorem Mirrors.indifferent {α : Type} {m : StoreM α} (h : Mirrors s t) (hm : Indifferent m) :
    Mirrors (exec m s).2 (exec m t).2 := by
  have hspares := hm.spares t
  obtain ⟨-, htwins, hspared⟩ := hm h.toTwins
  exact ⟨htwins, h.tabular.congr hspared.loader hspared.format (congrArg _ hspared.directory),
    h.remembers.congr hspares.loader hspares.format⟩

/-- **A commit beside a twin**: it takes effect in both, whatever comes of the tables. -/
theorem Mirrors.commit (h : Mirrors s t) (changes : Changeset) :
    Mirrors (exec (commit changes) s).2 (exec (commit changes) t).2 := by
  have happlied := h.indifferent (indifferent_applyAll changes)
  unfold Store.commit
  rw [exec_bind, exec_bind]
  rcases (indifferent_applyAll changes h.toTwins).cases with
    ⟨e, s', t', hs, ht, -, -⟩ | ⟨cs, s', t', hs, ht, -, -⟩
  · rw [hs, ht] at happlied ⊢
    exact happlied
  · rw [hs, ht] at happlied ⊢
    obtain ⟨hnodup, -, hcommitted⟩ := of_applyAll hs
    obtain ⟨hwritten, -⟩ := forM_dump_writtenOut happlied.tabular hnodup
    obtain ⟨hpool, hrepository⟩ := forM_dump_keeps cs s'
    simp only [exec_forM_dump happlied.remembers.inMemory]
    refine ⟨⟨?_, ?_, ?_, fun type hfind => ?_⟩, ?_, happlied.remembers⟩
    · rw [hpool]
      exact happlied.pool
    · rw [hrepository]
      exact happlied.caches
    · rw [hrepository]
      exact happlied.lastId
    · -- a type that has not been loaded is none of those that were written
      rw [hrepository] at hfind
      rw [happlied.loaded type hfind]
      refine (happlied.tabular.loaded_congr (congrArg Repository.loader? hrepository) hwritten.site
        fun format hformat => hwritten.others type (fun hmem => ?_) format hformat).symm
      obtain ⟨c, hc, rfl⟩ := List.mem_map.mp hmem
      rw [hcommitted c hc] at hfind
      cases hfind
    · exact happlied.tabular.congr (congrArg Repository.loader? hrepository)
        (congrArg Repository.format? hrepository) hwritten.site

/-- **What a commit writes.** The table of every type is as it was, or is made of what the repository
holds by then; and the tables of what the commit touches are the latter, if it goes through. -/
theorem Tabular.commit (hs : s.Tabular) (changes : Changeset) :
    (∀ {type format}, s.repository.format? type = some format →
        (exec (commit changes) s).2.kept? format = s.kept? format ∨
          ∃ r, (exec (commit changes) s).2.roster? type = some r ∧
            (exec (commit changes) s).2.kept? format = some (format.file r)) ∧
      ((exec (commit changes) s).1 = .ok () → ∀ change ∈ changes, change.entity < s.pool.next →
        ∀ {format}, s.repository.format? (s.pool.typeName change.entity) = some format →
          ∃ r, (exec (commit changes) s).2.roster? (s.pool.typeName change.entity) = some r ∧
            (exec (commit changes) s).2.kept? format = some (format.file r)) := by
  have hspares := (indifferent_applyAll changes).spares s
  unfold Store.commit
  rw [exec_bind]
  rcases hrun : exec (applyAll changes) s with ⟨e | cs, s'⟩
  · rw [hrun] at hspares
    refine ⟨fun {type format} _ => .inl ?_, fun hok => by cases hok⟩
    rw [kept?, hspares.directory, kept?]
  · rw [hrun] at hspares
    have hkept : ∀ format, s'.kept? format = s.kept? format := by
      intro format
      rw [kept?, hspares.directory, kept?]
    obtain ⟨hnodup, htouched, hcommitted⟩ := of_applyAll hrun
    obtain ⟨hwritten, hfiles⟩ :=
      forM_dump_writtenOut (hs.congr hspares.loader hspares.format (congrArg _ hspares.directory))
        hnodup
    obtain ⟨hpool, hrepository⟩ := forM_dump_keeps cs s'
    have hroster : ∀ c ∈ cs, (exec (cs.forM dump) s').2.roster? c.type
        = some (s'.pool.roster c.entities) := by
      intro c hc
      rw [← hpool]
      refine roster?_of_opened (opened_of_some ?_)
      rw [hrepository]
      exact hcommitted c hc
    simp only
    refine ⟨fun {type format} hformat => ?_, fun hok change hchange hlive format hformat => ?_⟩
    · rw [← hspares.format] at hformat
      rw [← hkept format]
      by_cases hmem : type ∈ cs.types
      · obtain ⟨c, hc, rfl⟩ := List.mem_map.mp hmem
        exact (hwritten.own c hc format hformat).imp_right fun hfile => ⟨_, hroster c hc, hfile⟩
      · exact .inl (hwritten.others type hmem format hformat)
    · obtain ⟨c, hc, htype⟩ := List.mem_map.mp (htouched change hchange hlive)
      rw [← htype]
      refine ⟨_, hroster c hc, hfiles hok c hc format ?_⟩
      rw [hspares.format, htype]
      exact hformat

end Store

/-! ## Turn by turn -/

/-- What happens to a store. -/
inductive Turn
  /-- Changes are committed, while there is no room for some tables. No commit writes a table twice,
  so whichever of its dumps are to fail, there are tables to say so. -/
  | commit (full : String → Bool) (changes : Changeset)
  | load (type : String)
  | newId (type : String)
  /-- Others make entities and edit them. -/
  | meanwhile (f : Pool → Pool)

namespace Store

variable {s t : Store} {settings : Settings} {formats : List RowFormat} {type : String}
  {format : RowFormat}

/-- A store with room for some tables and not for others. -/
def withRoom (s : Store) (full : String → Bool) : Store :=
  { s with directory := { s.directory with full } }

/-- What a turn leaves. -/
def turn (s : Store) : Turn → Store
  | .commit full changes => (exec (commit changes) (s.withRoom full)).2
  | .load type => (exec (load type) s).2
  | .newId type => (exec (newId type) s).2
  | .meanwhile f => { s with pool := f s.pool }

/-- What several turns leave. -/
def turns (s : Store) (ts : List Turn) : Store := ts.foldl turn s

theorem turns_append (s : Store) (ts : List Turn) (event : Turn) :
    s.turns (ts ++ [event]) = (s.turns ts).turn event := by
  rw [turns, List.foldl_append]
  rfl

theorem indifferent_load (type : String) : Indifferent (load type) :=
  (indifferent_checkout type).bind fun c => indifferent_pure c.entities

theorem Tabular.withRoom (hs : s.Tabular) (full : String → Bool) : (s.withRoom full).Tabular :=
  hs.congr rfl rfl rfl

theorem Mirrors.withRoom (h : Mirrors s t) (full : String → Bool) :
    Mirrors (s.withRoom full) (t.withRoom full) where
  pool := h.pool
  caches := h.caches
  lastId := h.lastId
  loaded := by
    intro type hfind
    have hs : (s.withRoom full).loaded type = s.loaded type :=
      h.tabular.loaded_congr rfl rfl fun _ _ => rfl
    have ht : (t.withRoom full).loaded type = t.loaded type := by
      unfold loaded
      rw [show (t.withRoom full).repository = t.repository from rfl]
      cases hloader : t.repository.loader? type with
      | none => rfl
      | some loader => exact h.remembers.fixed hloader _ _
    rw [hs, ht, h.loaded type hfind]
  tabular := h.tabular.withRoom full
  remembers := h.remembers.congr rfl rfl

/-- **A turn beside a twin.** -/
theorem Mirrors.turn (h : Mirrors s t) (event : Turn) : Mirrors (s.turn event) (t.turn event) := by
  cases event with
  | commit full changes => exact (h.withRoom full).commit changes
  | load type => exact h.indifferent (indifferent_load type)
  | newId type => exact h.indifferent (indifferent_newId type)
  | meanwhile f =>
    have htwins := h.toTwins.withPool (f s.pool)
    rw [show t.turn (.meanwhile f) = { t with pool := f s.pool } by rw [← h.pool]; rfl]
    exact ⟨htwins, h.tabular.congr rfl rfl rfl, h.remembers.congr rfl rfl⟩

/-- A store that keeps tables and its twin stay what they are to each other. -/
theorem Mirrors.turns (h : Mirrors s t) (ts : List Turn) : Mirrors (s.turns ts) (t.turns ts) := by
  induction ts generalizing s t with
  | nil => exact h
  | cons event rest ih => exact ih (h.turn event)

/-- The formats stay. -/
theorem format?_turn (s : Store) (event : Turn) :
    (s.turn event).repository.format? = s.repository.format? := by
  cases event with
  | commit full changes =>
    have hspares := (indifferent_applyAll changes).spares (s.withRoom full)
    show (exec (commit changes) (s.withRoom full)).2.repository.format? = s.repository.format?
    unfold commit
    rw [exec_bind]
    rcases hrun : exec (applyAll changes) (s.withRoom full) with ⟨e | cs, s'⟩
    · rw [hrun] at hspares
      exact hspares.format
    · rw [hrun] at hspares
      simp only [(forM_dump_keeps cs s').2]
      exact hspares.format
  | load type => exact ((indifferent_load type).spares s).format
  | newId type => exact ((indifferent_newId type).spares s).format
  | meanwhile f => rfl

theorem format?_turns (s : Store) (ts : List Turn) :
    (s.turns ts).repository.format? = s.repository.format? := by
  induction ts generalizing s with
  | nil => rfl
  | cons event rest ih => exact (ih (s.turn event)).trans (format?_turn s event)

/-- **What a turn makes of a table**: nothing, unless it is a commit, and then the file of what is held
by then. -/
theorem Tabular.kept?_turn (hs : s.Tabular) (event : Turn)
    (hformat : s.repository.format? type = some format) :
    (s.turn event).kept? format = s.kept? format ∨
      ∃ full changes, event = .commit full changes ∧
        ∃ r, (s.turn event).roster? type = some r ∧
          (s.turn event).kept? format = some (format.file r) := by
  cases event with
  | commit full changes =>
    exact (((hs.withRoom full).commit changes).1 hformat).imp_right fun hfile =>
      ⟨full, changes, rfl, hfile⟩
  | load type =>
    refine .inl ?_
    rw [kept?, show (s.turn (.load type)).directory = _ from
      ((indifferent_load type).spares s).directory, kept?]
  | newId type =>
    refine .inl ?_
    rw [kept?, show (s.turn (.newId type)).directory = _ from
      ((indifferent_newId type).spares s).directory, kept?]
  | meanwhile f => exact .inl rfl

/-- **What any turns make of a table**: the last commit that wrote it is to be read off it. -/
theorem Tabular.kept?_turns (hs : s.Tabular) (hformat : s.repository.format? type = some format)
    (ts : List Turn) :
    (s.turns ts).kept? format = s.kept? format ∨
      ∃ before full changes after, ts = before ++ .commit full changes :: after ∧
        ∃ r, (s.turns (before ++ [.commit full changes])).roster? type = some r ∧
          (s.turns ts).kept? format = some (format.file r) := by
  induction ts using List.reverseRecOn with
  | nil => exact .inl rfl
  | append_singleton ts event ih =>
    have hnow : (s.turns ts).Tabular := ((mirrors_memoryTwin hs).turns ts).tabular
    have hturn := hnow.kept?_turn event ((congrFun (format?_turns s ts) type).trans hformat)
    rw [← turns_append] at hturn
    rcases hturn with hsame | ⟨full, changes, rfl, hfile⟩
    · refine ih.imp hsame.trans ?_
      rintro ⟨before, full, changes, after, rfl, r, hr, hfile⟩
      refine ⟨before, full, changes, after ++ [event], ?_, r, hr, hsame.trans hfile⟩
      rw [List.append_assoc]
      rfl
    · exact .inr ⟨ts, full, changes, [], rfl, hfile⟩

/-- **Tables behind a store.** A store that keeps types of any number of formats goes through any
turns, and at each commit there may be no room for some of the tables. What is held in memory is what
a store holds that keeps no tables, loads the rows that were there at the start and goes through the
same. Each table is as it was at the start, or it is made of what was held of its type right after
some commit. And a commit that goes through leaves the tables of what it touches made of what is held. -/
theorem tables_follow_commits {d : Directory} (hformats : formats.Pairwise (RowFormat.Apart d))
    (p : Pool) (ts : List Turn) :
    let start : Store := ⟨p, d, .keeping settings formats⟩
    let s := start.turns ts
    (Twins s (start.memoryTwin.turns ts) ∧
        ∀ type, (start.memoryTwin.turns ts).roster? type = s.roster? type) ∧
      (∀ format ∈ formats, s.kept? format = start.kept? format ∨
        ∃ before full changes after, ts = before ++ .commit full changes :: after ∧
          ∃ r, (start.turns (before ++ [.commit full changes])).roster? format.type.name = some r ∧
            s.kept? format = some (format.file r)) ∧
      ∀ full changes, (exec (commit changes) (s.withRoom full)).1 = .ok () →
        ∀ change ∈ changes, change.entity < s.pool.next → ∀ format ∈ formats,
          format.type.name = s.pool.typeName change.entity →
            ∃ r, (s.turn (.commit full changes)).roster? format.type.name = some r ∧
              (s.turn (.commit full changes)).kept? format = some (format.file r) := by
  intro start s
  have hstart : start.Tabular := tabular_keeping hformats p
  have hmirrors := (mirrors_memoryTwin hstart).turns ts
  have hformat : ∀ format ∈ formats, start.repository.format? format.type.name = some format :=
    fun format hmem => (Repository.format?_keeping (hformats.imp And.left)).mpr ⟨hmem, rfl⟩
  refine ⟨⟨hmirrors.toTwins, hmirrors.toTwins.roster?⟩,
    fun format hmem => hstart.kept?_turns (hformat format hmem) ts, ?_⟩
  intro full changes hok change hchange hlive format hmem htype
  rw [htype]
  refine ((hmirrors.tabular.withRoom full).commit changes).2 hok change hchange hlive ?_
  have hsame : (s.withRoom full).repository.format? = start.repository.format? := format?_turns start ts
  rw [hsame, show (s.withRoom full).pool = s.pool from rfl, ← htype]
  exact hformat format hmem

open Samples

/-- Notes in the table of notes: an id and a text. Whose they are is not kept. -/
def noteRows : RowFormat where
  type := note
  encode := fun e => .object [("id", scalarJson (e.stored? "id")), ("text", scalarJson (e.stored? "text"))]
  decode? := fun row => do
    let id ← decodeId? ((row.member? "id").getD .null)
    let text ← (← row.member? "text").text?
    some ⟨note, id, [("text", .value (.string text)), ("author", .one none)]⟩

/-- A store that keeps tags and notes, with a tag and a note that somebody has made. -/
def tagsAndNotes : Store where
  pool := (Pool.empty.allocAll [tagNamed none "green", blank note]).2
  directory := .empty "."
  repository := .keeping .defaults [tagRows, noteRows]

/-- The tag and the note are committed while there is no room for notes. -/
def noRoomForNotes : Turn := .commit (fun table => table == "notes") [⟨.add, 0⟩, ⟨.add, 1⟩]

/-- The tag is written and the note is not, though both are held; with the next note it is. -/
theorem tables_follow_commits_tagsAndNotes :
    let s := tagsAndNotes.turns [noRoomForNotes]
    (s.kept? tagRows).isSome = true ∧ s.kept? noteRows = none ∧
      (s.roster? "note").map List.length = some 1 ∧
      ∃ r, (s.turn (.commit (fun _ => false) [⟨.add, 1⟩])).roster? "note" = some r ∧ r.length = 2 ∧
        (s.turn (.commit (fun _ => false) [⟨.add, 1⟩])).kept? noteRows = some (noteRows.file r) := by
  intro s
  have hformats : [tagRows, noteRows].Pairwise (RowFormat.Apart tagsAndNotes.directory) := by
    decide +kernel
  obtain ⟨-, -, hwritten⟩ := @tables_follow_commits .defaults [tagRows, noteRows] _ hformats
    tagsAndNotes.pool [noRoomForNotes]
  obtain ⟨r, hr, hfile⟩ := hwritten (fun _ => false) [⟨.add, 1⟩] (by decide +kernel) ⟨.add, 1⟩
    (List.mem_singleton_self _) (by decide +kernel) noteRows (by simp) (by decide +kernel)
  refine ⟨by decide +kernel, by decide +kernel, by decide +kernel, r, hr, ?_, hfile⟩
  have hlength : ((s.turn (.commit (fun _ => false) [⟨.add, 1⟩])).roster? "note").map List.length
      = some 2 := by decide +kernel
  rw [show (s.turn (.commit (fun _ => false) [⟨.add, 1⟩])).roster? "note" = some r from hr] at hlength
  exact Option.some.inj hlength

end Store


end EntityStore
