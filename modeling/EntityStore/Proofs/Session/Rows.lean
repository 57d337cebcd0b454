import EntityStore.Proofs.Repository.Standing
import EntityStore.Proofs.Session.Conduct

/-!
# What a session shows after a call

A session shows rows: entities under the handles by which they are read and edited. The first time
it accesses a type it is handed what is committed, copies of it under handles of their own; from then
on additions, removals and replacements change the rows of the type, and nothing else does until the
session lets go of everything. Each call is read here as a function of what the session showed before
and of whether the call went through, and proved to do what that function says unless it violates the
contract of the ledger. A call that fails may have accessed the type, and has changed no row.
-/

namespace EntityStore

/-- Entities, under the handles by which they are read and edited. -/
abbrev Rows := List (Handle × Entity)

namespace Rows

/-- The rows with an entity at the end, unless it has a row. -/
def add (h : Handle) (e : Entity) (rows : Rows) : Rows :=
  if h ∈ rows.map Prod.fst then rows else rows ++ [(h, e)]

/-- The rows without that of an entity, or of the one that has its id. -/
def remove (h : Handle) (id : Option EntityId) (rows : Rows) : Rows :=
  rows.filter fun r => r.1 ≠ h ∧ (id = none ∨ r.2.id ≠ id)

/-- The rows with an entity in the place of the one that has its id. -/
def replace (h : Handle) (e : Entity) (rows : Rows) : Rows :=
  rows.map fun r => if r.2.id = e.id then (h, e) else r

/-- The rows after an entity has been edited in place. -/
def edit (h : Handle) (f : Entity → Entity) (rows : Rows) : Rows :=
  rows.map fun r => if r.1 = h then (h, f r.2) else r

end Rows

namespace Pool

variable {p q : Pool} {hs : List Handle} {h old gone : Handle}

/-- The rows of a list of handles. -/
def rows (p : Pool) (hs : List Handle) : Rows := hs.map fun h => (h, p.entity h)

theorem rows_congr (he : ∀ h ∈ hs, q.entity h = p.entity h) : q.rows hs = p.rows hs :=
  List.map_congr_left fun h hh => by rw [he h hh]

@[simp] theorem map_fst_rows (p : Pool) (hs : List Handle) : (p.rows hs).map Prod.fst = hs := by
  rw [rows, List.map_map]
  exact List.map_id hs

theorem rows_add_of_mem (hmem : h ∈ hs) (e : Entity) : (p.rows hs).add h e = p.rows hs :=
  if_pos (by rwa [map_fst_rows])

theorem rows_add (hmem : h ∉ hs) (e : Entity) : (p.rows hs).add h e = p.rows hs ++ [(h, e)] :=
  if_neg (by rwa [map_fst_rows])

theorem rows_remove (hnodup : hs.Nodup) (hids : (p.roster hs).ids.Nodup) (hgone : gone ∈ hs)
    (hsame : gone = h ∨ ∃ id, p.id h = some id ∧ p.id gone = some id) :
    (p.rows hs).remove h (p.id h) = p.rows (hs.erase gone) := by
  rw [Rows.remove, rows, List.filter_map, hnodup.erase_eq_filter, rows]
  refine congrArg (List.map _) (List.filter_congr fun k hk => ?_)
  -- the one row that goes is that of the entity or of its id
  have hiff : (k ≠ h ∧ (p.id h = none ∨ p.id k ≠ p.id h)) ↔ k ≠ gone := by
    constructor
    · rintro ⟨hne, hid⟩ rfl
      rcases hsame with heq | ⟨id, hhid, hkid⟩
      · exact hne heq
      · rw [hhid, hkid] at hid
        simp at hid
    · intro hne
      refine ⟨fun heq => ?_, ?_⟩
      · subst heq
        rcases hsame with heq | ⟨id, hkid, hgid⟩
        · exact hne heq.symm
        · exact hne (eq_of_id_eq hids hk hgone hkid hgid)
      · rcases hsame with rfl | ⟨id, hhid, hgid⟩
        · cases hgid : p.id gone with
          | none => exact .inl rfl
          | some id => exact .inr fun hkid => hne (eq_of_id_eq hids hk hgone hkid hgid)
        · exact .inr fun hkid => hne (eq_of_id_eq hids hk hgone (hkid.trans hhid) hgid)
  show decide (k ≠ h ∧ (p.id h = none ∨ p.id k ≠ p.id h)) = (k != gone)
  rw [Bool.eq_iff_iff, decide_eq_true_eq, bne_iff_ne]
  exact hiff

theorem rows_replace (hnodup : hs.Nodup) (hids : (p.roster hs).ids.Nodup) (hold : old ∈ hs)
    {id : EntityId} (hid : p.id h = some id) (hoid : p.id old = some id) :
    (p.rows hs).replace h (p.entity h) = p.rows (hs.replace old h) := by
  rw [Rows.replace, rows, rows, replace_eq_map hnodup, List.map_map, List.map_map]
  refine List.map_congr_left fun k hk => ?_
  have hiff : p.id k = p.id h ↔ k = old := by
    refine ⟨fun hkid => eq_of_id_eq hids hk hold (hkid.trans hid) hoid, ?_⟩
    rintro rfl
    exact hoid.trans hid.symm
  show (if p.id k = p.id h then (h, p.entity h) else (k, p.entity k))
    = (if k = old then h else k, p.entity (if k = old then h else k))
  by_cases hk : k = old
  · rw [if_pos (hiff.mpr hk), if_pos hk]
  · rw [if_neg (mt hiff.mp hk), if_neg hk]

theorem rows_edit (p : Pool) (h : Handle) (f : Entity → Entity) (hs : List Handle) :
    (p.rows hs).edit h f = (p.edit h f).rows hs := by
  rw [Rows.edit, rows, rows, List.map_map]
  refine List.map_congr_left fun k _ => ?_
  show (if k = h then (h, f (p.entity k)) else (k, p.entity k)) = (k, (p.edit h f).entity k)
  by_cases hk : k = h
  · rw [if_pos hk, hk, entity_edit_self]
  · rw [if_neg hk, entity_edit_of_ne hk]

/-- Handles that follow one another number what they stand for. -/
theorem rows_range' (p : Pool) (n k : Nat) :
    p.rows (List.range' n k) = ((p.roster (List.range' n k)).zipIdx n).map Prod.swap := by
  induction k generalizing n with
  | zero => rfl
  | succ k ih =>
    rw [List.range'_succ, roster_cons, List.zipIdx_cons, List.map_cons, ← ih (n + 1)]
    rfl

/-- An entity keeps what it has as its pool grows, and may be given the id it did not have. -/
theorem Grows.entity_eq (hpq : p.Grows q) (hh : h < p.next) :
    q.entity h = (p.entity h).setId (q.id h) := by
  rw [Pool.id]
  rcases hpq.kept h hh with hkept | ⟨-, id, hgiven⟩
  · rw [hkept]
    rfl
  · rw [hgiven]
    rfl

end Pool

/-- Copies are registered under the next free handles. -/
theorem Ledger.copies_registerAllClean (p : Pool) (l : Ledger) (hs : List Handle) :
    (l.registerAllClean p hs).1 = List.range' p.next hs.length := by
  induction hs generalizing p l with
  | nil => rfl
  | cons h rest ih =>
    rw [List.length_cons, List.range'_succ]
    exact congrArg (List.cons p.next) (ih _ _)

/-! ## What is shown -/

/-- What a session shows, type by type: nothing of the types that it has not accessed. -/
abbrev Showing := String → Option Rows

/-- What a session is handed of a type when it first accesses it: all that is committed, under the
handles that are free once the type is loaded. Entities that share a key are not handed over. -/
def Store.handsOut (s : Store) (type : String) : Option Rows :=
  (s.roster? type).bind fun r =>
    if r.UniqueKeys then some ((r.zipIdx (exec (load type) s).2.pool.next).map Prod.swap) else none

/-- The view after the rows of a type have changed, which is accessed if it has not been. -/
def Showing.change (v : Showing) (s : Store) (type : String) (f : Rows → Rows) : Showing :=
  Function.update v type (((v type).or (s.handsOut type)).map f)

namespace Showing

variable {v : Showing} {s s' : Store} {type : String} {rows : Rows} {f : Rows → Rows}

theorem change_of_some (hrows : v type = some rows) :
    v.change s type f = Function.update v type (some (f rows)) := by
  rw [change, hrows]
  rfl

/-- Accessing what has been accessed changes nothing. -/
theorem change_id_of_some (hrows : v type = some rows) : v.change s type id = v := by
  rw [change_of_some hrows, id, ← hrows, Function.update_eq_self]

theorem change_of_none (hnone : v type = none) (hhands : s.handsOut type = none) :
    v.change s type f = v := by
  rw [change, hnone, hhands]
  exact Function.update_eq_self_iff.mpr hnone.symm

/-- A change comes to the same whether the type is accessed before or by it. -/
theorem change_change (hopen : v.change s type id type ≠ none) :
    (v.change s type id).change s' type f = v.change s type f := by
  obtain ⟨rows, hrows⟩ := Option.ne_none_iff_exists'.mp hopen
  rw [change_of_some hrows]
  rw [change, Function.update_self, Option.map_id_fun, id] at hrows
  rw [change, change, Function.update_idem, hrows]
  rfl

end Showing

namespace Session

variable {known : Handle → Prop} {w w' w₁ v : Work} {type : String} {c c' : Cache} {h : Handle}
  {α β : Type}

/-- What a session lists is left alone by what others do. -/
theorem Coherent.kept (hw : Coherent known w) {q : Pool} (hpool : w.store.pool.Grows q)
    (hfind : w.session.caches.find? type = some c) :
    ∀ k ∈ c.entities, q.entity k = w.store.pool.entity k := by
  intro k hk
  obtain ⟨e, he, rfl, -⟩ := hw.shown hfind k hk
  exact hpool.kept_of_id (hw.ledger.live e he).1 (hw.ledger.live e he).2

theorem shown_of_find? (hfind : w.session.caches.find? type = some c) :
    shown w type = some (w.store.pool.rows c.entities) := by
  rw [shown, hfind]
  rfl

theorem shown_eq_none : shown w type = none ↔ w.session.caches.find? type = none :=
  Option.map_eq_none_iff

theorem Coherent.shown_grows (hw : Coherent known w) (hpool : w.store.pool.Grows w'.store.pool)
    (hcaches : w'.session.caches = w.session.caches) : Session.shown w' = Session.shown w := by
  funext t
  cases hfind : w.session.caches.find? t with
  | none => rw [shown_eq_none.mpr hfind, shown_eq_none.mpr (hcaches ▸ hfind)]
  | some c =>
    rw [shown_of_find? hfind, shown_of_find? (w := w') (hcaches ▸ hfind),
      Pool.rows_congr (hw.kept hpool hfind)]

/-- The cache of one type is put. -/
theorem Coherent.shown_put (hw : Coherent known w) (hpool : w.store.pool.Grows w'.store.pool)
    (hcaches : w'.session.caches = w.session.caches.put c) (htype : c.type = type) :
    Session.shown w' = Function.update (Session.shown w) type (some (w'.store.pool.rows c.entities)) := by
  funext t
  by_cases ht : t = type
  · rw [ht, Function.update_self, ← htype]
    exact shown_of_find? (by rw [hcaches, Caches.find?_put_self])
  · have hother : w'.session.caches.find? t = w.session.caches.find? t := by
      rw [hcaches, Caches.find?_put_of_ne fun heq => ht (heq.symm.trans htype)]
    rw [Function.update_of_ne ht]
    cases hfind : w.session.caches.find? t with
    | none => rw [shown_eq_none.mpr hfind, shown_eq_none.mpr (hother.trans hfind)]
    | some d =>
      rw [shown_of_find? hfind, shown_of_find? (hother.trans hfind),
        Pool.rows_congr (hw.kept hpool hfind)]

/-- A cache that lists the same entities is put back. -/
theorem Coherent.shown_relisted (hw : Coherent known w) {s : Store}
    (hpool : w.store.pool.Grows s.pool) (hfind : w.session.caches.find? type = some c)
    (htype : c'.type = c.type) (hlist : c'.entities = c.entities) :
    Session.shown ⟨s, { w.session with caches := w.session.caches.put c' }⟩
      = Showing.change (Session.shown w) w.store type id := by
  rw [hw.shown_put hpool rfl (htype.trans (Caches.type_of_find? hfind)), hlist,
    Pool.rows_congr (hw.kept hpool hfind), Showing.change_of_some (shown_of_find? hfind), id]

/-! ## Steps that change the rows of a type -/

/-- What remains, at `v`, of a step that began at `w` and is to change the rows of one type. -/
structure Changes (w : Work) (type : String) (f : Pool → Rows → Rows) (v : Work) (m : SessionM α) :
    Prop where
  upholds : w.store.Upholds (exec m v).2.store
  shown : Faults m v ∨ shown (exec m v).2 = Showing.change (shown w) w.store type
    (if (exec m v).1.isOk then f (exec m v).2.store.pool else id)

variable {f : Pool → Rows → Rows}

theorem Changes.of_exec {m m' : SessionM α} {v' : Work} (hexec : exec m v = exec m' v')
    (hm : Changes w type f v' m') : Changes w type f v m := by
  obtain ⟨hupholds, hshown⟩ := hm
  unfold Faults at hshown
  rw [← hexec] at hupholds hshown
  exact ⟨hupholds, hshown⟩

/-- A step that fails, when it has accessed the type at most. -/
theorem changes_of_error {m : SessionM α} (fault : SessionFault) (hrun : exec m v = (.error fault, w'))
    (hupholds : w.store.Upholds w'.store) (hshown : shown w' = Showing.change (shown w) w.store type id) :
    Changes w type f v m where
  upholds := by
    rw [hrun]
    exact hupholds
  shown := by
    rw [hrun]
    exact .inr hshown

theorem changes_of_ok {m : SessionM α} (a : α) (hrun : exec m v = (.ok a, w'))
    (hupholds : w.store.Upholds w'.store)
    (hshown : shown w' = Showing.change (shown w) w.store type (f w'.store.pool)) :
    Changes w type f v m where
  upholds := by
    rw [hrun]
    exact hupholds
  shown := by
    rw [hrun]
    exact .inr hshown

/-- What follows leaves everything as it is. -/
theorem Changes.followed {m : SessionM α} (hm : Changes w type f v m) {g : α → SessionM β}
    (hg : ∀ a v', v'.store.Manual → ∃ b, exec (g a) v' = (.ok b, v')) :
    Changes w type f v (m >>= g) := by
  obtain ⟨hupholds, hshown⟩ := hm
  rcases hrun : exec m v with ⟨fault | a, w'⟩
  · have hbind : exec (m >>= g) v = (.error fault, w') := by rw [exec_bind, hrun]
    rw [Faults, hrun] at hshown
    rw [hrun] at hupholds
    refine ⟨hbind ▸ hupholds, ?_⟩
    rw [Faults, hbind]
    refine hshown.imp_left ?_
    rintro ⟨v, hv⟩
    exact ⟨v, congrArg Except.error (Except.error.inj hv)⟩
  · rw [hrun] at hupholds hshown
    obtain ⟨b, hb⟩ := hg a w' hupholds.manual
    refine changes_of_ok b (by rw [exec_bind, hrun, ← hb]) hupholds (hshown.resolve_left ?_)
    rintro ⟨v, hv⟩
    rw [hrun] at hv
    cases hv

theorem Changes.answer {m : SessionM α} (hm : Changes w type f v m) (g : α → β) :
    Changes w type f v (m >>= fun a => pure (g a)) :=
  hm.followed fun a _ _ => ⟨g a, rfl⟩

/-- A step that began by accessing the type. -/
theorem Changes.since {m : SessionM α} (hm : Changes w₁ type f v m)
    (hupholds : w.store.Upholds w₁.store)
    (hshown : Session.shown w₁ = Showing.change (Session.shown w) w.store type id)
    (hopen : Session.shown w₁ type ≠ none) : Changes w type f v m where
  upholds := hupholds.trans hm.upholds
  shown := by
    refine hm.shown.imp_right fun h => h.trans ?_
    rw [hshown] at hopen ⊢
    exact Showing.change_change hopen

/-! ## Accessing a type -/

/-- The copies that are made for a session are what it is handed, where no two of them share a key. -/
theorem copies_handedOut (hs : w.store.Manual) {l ledger : Ledger} {committed : Cache} {s : Store}
    {copies : List Handle} {pool : Pool}
    (hstore : exec (Store.checkout type) w.store = (.ok committed, s))
    (hregister : l.registerAllClean s.pool committed.entities = (copies, pool, ledger)) :
    w.store.Upholds { s with pool } ∧ w.store.pool.Extends pool ∧
      w.store.handsOut type
        = if (pool.roster copies).UniqueKeys then some (pool.rows copies) else none := by
  have hloads := hs.sound.loads hstore
  have hlive := (hloads.sound.committed hloads.found).live
  obtain ⟨entries, hout⟩ := Ledger.registerAllClean_enrolls (l := l) hlive
  have hcopies := Ledger.copies_registerAllClean s.pool l committed.entities
  have hcheckout := hs.upholds_checkout type
  rw [hregister] at hout hcopies
  rw [hstore] at hcheckout
  have hpool := hcheckout.manual.upholds_pool hout.pool.grows
    (hout.holds lasting_refersBelow hloads.sound.closed)
  refine ⟨hcheckout.trans hpool, hloads.pool.trans hout.pool, ?_⟩
  have hopened : w.store.opened type
      = .ok (s.pool.roster committed.entities, s.repository.lastId type) := by
    rw [Store.opened, hstore]
  have hroster : w.store.roster? type = some (pool.roster copies) := by
    rw [Store.roster?_of_opened hopened, ← hout.roster]
  rw [Store.handsOut, hroster, Option.bind_some, Store.exec_load, hstore]
  refine if_congr Iff.rfl (congrArg some ?_) rfl
  rw [show copies = List.range' s.pool.next committed.entities.length from hcopies,
    Pool.rows_range']

/-- **A checkout hands a session what is committed**, if it has not been handed it before. -/
theorem checkout_cases (hw : Coherent known w) (hs : w.store.Manual) (type : String) :
    (∃ e w', exec (checkout type) w = (.error (.store e), w') ∧ w.store.Upholds w'.store ∧
        shown w' = shown w ∧ shown w type = none ∧ w.store.handsOut type = none) ∨
      ∃ c w', exec (checkout type) w = (.ok c, w') ∧ w.store.Upholds w'.store ∧
        w.store.pool.Extends w'.store.pool ∧ w'.session.caches.find? type = some c ∧
        shown w' = Showing.change (shown w) w.store type id := by
  cases hfind : w.session.caches.find? type with
  | some c =>
    refine .inr ⟨c, w, exec_checkout_of_some hfind, .refl hs, .refl _, hfind, ?_⟩
    rw [Showing.change_id_of_some (shown_of_find? hfind)]
  | none =>
    have hrun := exec_checkout_of_none hfind
    rw [Store.exec_load] at hrun
    rcases hstore : exec (Store.checkout type) w.store with ⟨e | committed, s⟩
    · -- the store cannot load the type
      have hcheckout := hs.upholds_checkout type
      rw [hstore] at hrun hcheckout
      have hhands : w.store.handsOut type = none := by
        rw [Store.handsOut, Store.roster?_eq, Store.opened, hstore]
        rfl
      exact .inl ⟨e, _, hrun, hcheckout, hw.shown_grows hcheckout.pool rfl,
        shown_eq_none.mpr hfind, hhands⟩
    · -- the session tracks the copies, but shows them only if no two of them share a key
      rw [hstore] at hrun
      rcases hregister : w.session.ledger.registerAllClean s.pool committed.entities with
        ⟨copies, pool, ledger⟩
      obtain ⟨hupholds, hextends, hhands⟩ := copies_handedOut hs hstore hregister
      simp only [Except.map, hregister] at hrun
      have hspec := Cache.ofEntities_spec pool type copies
      cases hof : Cache.ofEntities pool type copies with
      | error e =>
        -- two copies share a key
        rw [hof] at hrun hspec
        have hrepeated : ¬ (pool.roster copies).UniqueKeys := by
          intro hunique
          rw [Cache.repeatedKey?_eq_none.mpr ⟨hunique, by simp, by simp⟩] at hspec
          cases hspec
        rw [if_neg hrepeated] at hhands
        exact .inl ⟨e, _, hrun, hupholds, hw.shown_grows hupholds.pool rfl,
          shown_eq_none.mpr hfind, hhands⟩
      | ok c =>
        rw [hof] at hrun hspec
        obtain ⟨hnone, -, hlist, htype⟩ := hspec
        rw [if_pos (Cache.repeatedKey?_eq_none.mp hnone).1] at hhands
        have hput : shown ⟨{ s with pool }, { w.session with
            ledger, caches := w.session.caches.put c }⟩
            = Function.update (shown w) type (some (pool.rows c.entities)) :=
          hw.shown_put hupholds.pool rfl htype
        refine .inr ⟨c, _, hrun, hupholds, hextends, ?_, ?_⟩
        · exact Caches.find?_put_of_eq htype
        · rw [hput, Showing.change, shown_eq_none.mpr hfind, hhands, hlist]
          rfl

/-- **What begins with a checkout** is judged by what follows it, where the type is checked out. -/
theorem changes_of_checkout {m : Cache → SessionM α} (hw : Coherent known w)
    (hs : w.store.Manual)
    (hm : ∀ c w₁, Coherent known w₁ → w₁.store.Manual → w.store.pool.Extends w₁.store.pool →
      w₁.session.caches.find? type = some c → Changes w₁ type f w₁ (m c)) :
    Changes w type f w (checkout type >>= m) := by
  have hcoherent := (checkout_conducts False hw type).1
  rcases checkout_cases hw hs type with
    ⟨e, w', hrun, hupholds, hshown, hnone, hhands⟩ | ⟨c, w₁, hrun, hupholds, hpool, hfind, hshown⟩
  · refine changes_of_error _ (by rw [exec_bind, hrun]) hupholds ?_
    rw [hshown, Showing.change_of_none hnone hhands]
  · have hopen : shown w₁ type ≠ none := by
      rw [shown_of_find? hfind]
      exact Option.some_ne_none _
    have hrest := hm c w₁ (hcoherent.coherent_of_ok hrun) hupholds.manual hpool hfind
    exact .of_exec (by rw [exec_bind, hrun]) (hrest.since hupholds hshown hopen)

/-! ## Reading -/

/-- An operation that only brings an index up to date accesses the type. -/
theorem onCache_changes (hw : Coherent known w) (hs : w.store.Manual) (type : String)
    {g : Pool → Cache → Except StoreError α × Cache} (hg : Relisting g) :
    Changes w type (fun _ => id) w (onCache type g) := by
  unfold onCache
  refine changes_of_checkout hw hs fun c w₁ h₁ hs₁ _ hfind => ?_
  obtain ⟨-, htype, hlist⟩ := hg (h₁.keyed hfind)
  have hafter := h₁.shown_relisted (s := w₁.store) (.refl _) hfind htype hlist
  cases hanswer : (g w₁.store.pool c).1 with
  | error e =>
    refine changes_of_error (.store e) ?_ ?_ hafter
    · simp only [exec_bind, exec_get, exec_set, exec_ofExcept, hanswer, Except.mapError]
    · exact .refl hs₁
  | ok a =>
    refine changes_of_ok a ?_ ?_ hafter
    · simp only [exec_bind, exec_get, exec_set, exec_ofExcept, hanswer, Except.mapError]
    · exact .refl hs₁

/-- What is read after an index has been brought up to date, where the repository is set to. -/
theorem readThrough_changes (hw : Coherent known w) (hs : w.store.Manual) (type : String)
    {m : SessionM α} (hm : ∀ w', Coherent known w' → w'.store.Manual →
      Changes w' type (fun _ => id) w' m) :
    Changes w type (fun _ => id) w (readThrough type >>= fun _ => m) := by
  by_cases hauto : w.store.repository.settings.autoflush = true
  · have hexec : exec (readThrough type >>= fun _ => m) w
        = exec (onCache type (fun pool c => (.ok (), c.rebuild pool)) >>= fun _ => m) w := by
      unfold readThrough
      simp only [exec_bind, exec_get, hauto, if_true]
    refine .of_exec hexec ?_
    unfold onCache
    simp only [bind_assoc]
    refine changes_of_checkout hw hs fun c w₁ h₁ hs₁ _ hfind => ?_
    have htype : (c.rebuild w₁.store.pool).type = c.type := rfl
    have hput := h₁.put hfind htype rfl (h₁.keyed hfind).rebuild
    have hafter := h₁.shown_relisted (s := w₁.store) (.refl _) hfind htype rfl
    refine .of_exec ?_ ((hm _ hput hs₁).since (.refl hs₁) hafter ?_)
    · simp only [exec_bind, exec_get, exec_set, exec_ofExcept, Except.mapError]
    · rw [hafter, Showing.change_id_of_some (shown_of_find? hfind), shown_of_find? hfind]
      exact Option.some_ne_none _
  · have hexec : exec (readThrough type >>= fun _ => m) w = exec m w := by
      unfold readThrough
      simp only [exec_bind, exec_get, hauto]
      rfl
    exact .of_exec hexec (hm w hw hs)

theorem checkout_changes (hw : Coherent known w) (hs : w.store.Manual) (type : String) :
    Changes w type (fun _ => id) w (checkout type) := by
  rcases checkout_cases hw hs type with
    ⟨e, w', hrun, hupholds, hshown, hnone, hhands⟩ | ⟨c, w₁, hrun, hupholds, -, -, hshown⟩
  · refine changes_of_error _ hrun hupholds ?_
    rw [hshown, Showing.change_of_none hnone hhands]
  · exact changes_of_ok _ hrun hupholds hshown

theorem all_changes (hw : Coherent known w) (hs : w.store.Manual) (type : String) :
    Changes w type (fun _ => id) w (all type) :=
  readThrough_changes hw hs type fun _ hw' hs' => (checkout_changes hw' hs' type).answer _

theorem getById_changes (hw : Coherent known w) (hs : w.store.Manual) (type : String)
    (id' : EntityId) : Changes w type (fun _ => id) w (getById type id') :=
  readThrough_changes hw hs type fun _ hw' hs' => onCache_changes hw' hs' type (relisting_getById id')

theorem getBySlug_changes (hw : Coherent known w) (hs : w.store.Manual) (type slug : String) :
    Changes w type (fun _ => id) w (getBySlug type slug) :=
  readThrough_changes hw hs type fun _ hw' hs' =>
    onCache_changes hw' hs' type (relisting_getBySlug slug)

/-! ## Adding -/

/-- What a step leaves that is about the ledger alone. -/
structure Ledgering (v : Work) (m : SessionM Unit) : Prop where
  store : (exec m v).2.store = v.store
  caches : (exec m v).2.session.caches = v.session.caches
  answer : Faults m v ∨ (exec m v).1 = .ok ()

theorem ledgering_track (f : Pool → Ledger → Except Violation Ledger) (v : Work) :
    Ledgering v (track f) := by
  have hrun := exec_track f v
  cases hf : f v.store.pool v.session.ledger with
  | error fault =>
    rw [hf] at hrun
    exact ⟨hrun ▸ rfl, hrun ▸ rfl, .inl ⟨fault, hrun ▸ rfl⟩⟩
  | ok ledger =>
    rw [hf] at hrun
    exact ⟨hrun ▸ rfl, hrun ▸ rfl, .inr (hrun ▸ rfl)⟩

theorem ledgering_succeed (old new : Handle) (v : Work) : Ledgering v (succeed old new) := by
  have hrun := exec_succeed old new v
  cases hregister : Ledger.register v.store.pool new (legacy v.store.pool v.session.ledger old new).1
      (legacy v.store.pool v.session.ledger old new).2
      (List.filter (fun e => e.entity != old) v.session.ledger) with
  | error fault =>
    rw [hregister] at hrun
    exact ⟨hrun ▸ rfl, hrun ▸ rfl, .inl ⟨fault, hrun ▸ rfl⟩⟩
  | ok ledger =>
    rw [hregister] at hrun
    exact ⟨hrun ▸ rfl, hrun ▸ rfl, .inr (hrun ▸ rfl)⟩

/-- Once the cache of the type lists what it is to list, only the ledger is left. -/
theorem Ledgering.changes {m : SessionM Unit} (hm : Ledgering v m) (hw : Coherent known w)
    (hupholds : w.store.Upholds v.store) (hfind : w.session.caches.find? type = some c)
    (hcaches : v.session.caches = w.session.caches.put c') (htype : c'.type = c.type)
    (hrows : f v.store.pool (w.store.pool.rows c.entities) = v.store.pool.rows c'.entities) :
    Changes w type f v m where
  upholds := by
    rw [hm.store]
    exact hupholds
  shown := by
    refine hm.answer.imp_right fun hok => ?_
    have hpool : w.store.pool.Grows (exec m v).2.store.pool := by
      rw [hm.store]
      exact hupholds.pool
    rw [hw.shown_put hpool (hm.caches.trans hcaches) (htype.trans (Caches.type_of_find? hfind)),
      Showing.change_of_some (shown_of_find? hfind), hok, hm.store]
    exact congrArg (fun rows => Function.update (Session.shown w) type (some rows)) hrows.symm

theorem enduring_upholds (s : Store) : Enduring s.Upholds where
  newId := fun type h => h.trans (h.manual.upholds_newId type)
  setId := fun h hid id => h.trans (h.manual.upholds_setId hid id)

/-- The ledger takes up an entity that has been entered. -/
theorem Entered.changes (hv : Entered w.store.Upholds w.session c h v) (hw : Coherent known w)
    (hfind : w.session.caches.find? type = some c) (hlive : h < w.store.pool.next)
    (hmem : h ∉ c.entities) (revived : Bool) :
    Changes w type (fun q => Rows.add h ((w.store.pool.entity h).setId (q.id h))) v
      (if revived = true then Session.succeed h h else track fun pool l => l.registerNew pool h) := by
  obtain ⟨hupholds, c', hsession, htype, hlist, -⟩ := hv
  have hm : Ledgering v
      (if revived = true then Session.succeed h h else track fun pool l => l.registerNew pool h) := by
    split
    · exact ledgering_succeed h h v
    · exact ledgering_track _ v
  refine hm.changes hw hupholds hfind (congrArg Session.caches hsession) htype ?_
  rw [Pool.rows_add hmem, hlist, ← hupholds.pool.entity_eq hlive, Pool.rows, Pool.rows,
    List.map_append]
  exact congrArg (· ++ _) (Pool.rows_congr (hw.kept hupholds.pool hfind)).symm

/-- What remains of an addition once the entity has been entered. -/
theorem settle_changes (hv : Entered w.store.Upholds w.session c h v) (hw : Coherent known w)
    (hfind : w.session.caches.find? type = some c) (hlive : h < w.store.pool.next)
    (hmem : h ∉ c.entities) (revived : Bool) :
    Changes w type (fun q => Rows.add h ((w.store.pool.entity h).setId (q.id h))) v
      (settle type h revived) := by
  cases hid : v.store.pool.id h with
  | some id =>
    have hexec : exec (settle type h revived) v = exec
        (if revived then succeed h h else track fun pool l => l.registerNew pool h) v := by
      unfold settle
      simp only [exec_bind, exec_get, hid, Option.isNone_some, Bool.false_eq_true, if_false]
    exact .of_exec hexec (hv.changes hw hfind hlive hmem revived)
  | none =>
    have hexec : exec (settle type h revived) v = exec (do
        identify type h
        if revived then succeed h h else track fun pool l => l.registerNew pool h) v := by
      unfold settle
      simp only [exec_bind, exec_get, hid, Option.isNone_none, if_true]
    refine .of_exec hexec ?_
    have hidentify := hv.identify (enduring_upholds _) (Caches.type_of_find? hfind) hid
    rcases hrun : exec (identify type h) v with ⟨fault | _, v'⟩
    · -- no id could be drawn, and the entity has been taken out of the cache again
      rw [hrun] at hidentify
      obtain ⟨-, hupholds, c', hsession, htype, hlist, -⟩ := hidentify
      obtain ⟨s, σ⟩ := v'
      obtain rfl : σ = { w.session with caches := w.session.caches.put c' } := hsession
      exact changes_of_error _ (by rw [exec_bind, hrun]) hupholds
        (hw.shown_relisted hupholds.pool hfind htype hlist)
    · rw [hrun] at hidentify
      exact .of_exec (by rw [exec_bind, hrun]) (hidentify.1.changes hw hfind hlive hmem revived)

/-- **Adding** an entity that lives. -/
theorem enter_changes (hw : Coherent known w) (hs : w.store.Manual)
    (hlive : h < w.store.pool.next) :
    Changes w (w.store.pool.typeName h)
      (fun q => Rows.add h ((w.store.pool.entity h).setId (q.id h))) w (enter h) := by
  refine .of_exec (exec_enter h w) (changes_of_checkout hw hs fun c w₁ h₁ hs₁ hpool hfind => ?_)
  have hentity : w₁.store.pool.entity h = w.store.pool.entity h := hpool.kept h hlive
  have hlive₁ : h < w₁.store.pool.next := Nat.lt_of_lt_of_le hlive hpool.next_le
  have hkeyed := h₁.keyed hfind
  rw [← hentity]
  by_cases hmem : h ∈ c.entities
  · rw [if_pos (by simpa [Cache.contains] using hmem)]
    refine changes_of_ok false rfl (.refl hs₁) ?_
    rw [Showing.change_of_some (shown_of_find? hfind), Pool.rows_add_of_mem hmem,
      ← shown_of_find? hfind, Function.update_eq_self]
  · rw [if_neg (by simpa [Cache.contains] using hmem)]
    have htyped : w₁.store.pool.typeName h = w.store.pool.typeName h := by
      rw [Pool.typeName, hentity]
      rfl
    have hsame : w₁.store.Upholds w₁.store := .refl hs₁
    rcases exec_insert hsame hfind hkeyed hlive₁ htyped hmem with ⟨e, hrun⟩ | ⟨w₂, hrun, -, hentered⟩
    · have hafter := h₁.shown_relisted (s := w₁.store) (.refl _) hfind
        (Cache.type_refresh w₁.store.pool c) (Cache.entities_refresh w₁.store.pool c)
      refine changes_of_error (.store e) ?_ ?_ hafter
      · rw [exec_bind, hrun]
      · exact hsame
    · have hrest := (settle_changes hentered h₁ hfind hlive₁ hmem
        (state? h w == some .deleted)).answer fun _ => true
      exact .of_exec (by rw [exec_bind, hrun]) hrest

/-! ## Removing and replacing -/

/-- **Removing** an entity, or the one of its id. -/
theorem leave_changes (hw : Coherent known w) (hs : w.store.Manual)
    (hlive : h < w.store.pool.next) :
    Changes w (w.store.pool.typeName h) (fun _ => Rows.remove h (w.store.pool.id h)) w (leave h) := by
  refine .of_exec (exec_leave h w) ?_
  unfold withdraw onCache
  simp only [bind_assoc]
  refine changes_of_checkout hw hs fun c w₁ h₁ hs₁ hpool hfind => ?_
  have hkeyed := h₁.keyed hfind
  rw [← hpool.id hlive]
  rcases Cache.remove_cases w₁.store.pool h c with ⟨-, hremove⟩ | ⟨gone, hgone, hsame, hremove⟩
  · have htype : c.type = c.type := rfl
    have hafter := h₁.shown_relisted (s := w₁.store) (.refl _) hfind htype rfl
    refine changes_of_error (.store (.notFound c.type (w₁.store.pool.id h))) ?_ ?_ hafter
    · simp only [exec_bind, exec_get, exec_set, exec_ofExcept, hremove, Except.mapError]
    · exact .refl hs₁
  · -- what is tracked is marked; what has never been tracked is gone with the cache
    have hm : ∀ v : Work, Ledgering v
        (if v.session.ledger.contains gone = true then track fun pool l => l.mark pool gone .deleted
          else pure ()) := by
      intro v
      split
      · exact ledgering_track _ v
      · exact ⟨rfl, rfl, .inr rfl⟩
    refine .of_exec ?_ ((hm { w₁ with session := { w₁.session with
      caches := w₁.session.caches.put (c.without gone) } }).changes h₁ (.refl hs₁) hfind rfl rfl ?_)
    · simp only [exec_bind, exec_get, exec_set, exec_ofExcept, hremove, Except.mapError]
      rfl
    · exact Pool.rows_remove hkeyed.nodup hkeyed.ids hgone hsame

/-- **Replacing** the entity of the same id. -/
theorem replace_changes (hw : Coherent known w) (hs : w.store.Manual)
    (hlive : h < w.store.pool.next) :
    Changes w (w.store.pool.typeName h) (fun _ => Rows.replace h (w.store.pool.entity h)) w
      (replace h) := by
  refine .of_exec (exec_replace h w) ?_
  unfold onCache
  simp only [bind_assoc]
  refine changes_of_checkout hw hs fun c w₁ h₁ hs₁ hpool hfind => ?_
  have hkeyed := h₁.keyed hfind
  rw [← hpool.kept h hlive]
  rcases Cache.replace_cases hkeyed h with ⟨e, hreplace⟩ | ⟨old, hold, id, hid, hoid, hreplace⟩
  · have hafter := h₁.shown_relisted (s := w₁.store) (.refl _) hfind
      (Cache.type_refresh w₁.store.pool c) (Cache.entities_refresh w₁.store.pool c)
    refine changes_of_error (.store e) ?_ ?_ hafter
    · simp only [exec_bind, exec_get, exec_set, exec_ofExcept, hreplace, Except.mapError]
    · exact .refl hs₁
  · have hm := ledgering_succeed old h { w₁ with session := { w₁.session with
      caches := w₁.session.caches.put ((c.refresh w₁.store.pool).exchange w₁.store.pool old h) } }
    refine .of_exec ?_ (hm.changes h₁ (.refl hs₁) hfind rfl
      (Cache.type_exchange.trans (Cache.type_refresh w₁.store.pool c)) ?_)
    · simp only [exec_bind, exec_get, exec_set, exec_ofExcept, hreplace, Except.mapError]
    · rw [Cache.entities_exchange, Cache.entities_refresh]
      exact Pool.rows_replace hkeyed.nodup hkeyed.ids hold hid hoid

end Session

end EntityStore
