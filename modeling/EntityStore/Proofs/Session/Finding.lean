import EntityStore.Collection.InSession
import EntityStore.Proofs.Cache.FirstHolder
import EntityStore.Proofs.Session.Isolation

/-!
# Looking up in a collection

A look-up by a key is due the only entity of the collection that holds the key, none when there is
none, and an error when there are several. Among the children of a parent it answers just that. In
the session as a whole the index is asked first and the filter afterwards: what is found is the
first entity of the type that holds the key, whatever the collection shows of it. The two agree
exactly when the collection shows no other holder of the key than that one.
-/

namespace EntityStore

open Session

/-- What an entity is looked up by. -/
inductive LookupKey
  | byId (id : EntityId)
  | bySlug (slug : String)
  deriving DecidableEq

namespace LookupKey

/-- Whether an entity holds the key at the time. -/
def heldBy (key : LookupKey) (pool : Pool) (h : Handle) : Bool :=
  match key with
  | .byId id => pool.id h == some id
  | .bySlug slug => pool.slug h == some slug

def text : LookupKey → String
  | .byId id => id.toText
  | .bySlug slug => slug

/-- Look up in a session. -/
def inSession (type : String) : LookupKey → SessionM (Option Handle)
  | .byId id => Session.getById type id
  | .bySlug slug => Session.getBySlug type slug

/-- The first holder of the key in a cache, as its indexes have it once they are rebuilt. -/
theorem find?_heldBy_of_rebuild (key : LookupKey) (pool : Pool) (c : Cache) :
    (match key with
      | .byId id => (c.rebuild pool).byId.get? id
      | .bySlug slug => (c.rebuild pool).bySlug.get? slug) = c.entities.find? (key.heldBy pool) := by
  obtain ⟨hid, hslug⟩ := Shelf.first_rebuild pool c
  cases key with
  | byId id => exact hid.get? id
  | bySlug slug => exact hslug.get? slug

end LookupKey

namespace SessionCollection

/-- Look up by a key of either kind. -/
def lookUp (c : SessionCollection) : LookupKey → SessionM (Option Handle)
  | .byId id => c.getById id
  | .bySlug slug => c.getBySlug slug

/-- The collection without its window. -/
def unwindowed (c : SessionCollection) : SessionCollection :=
  { c with view := { c.view with window := none } }

/-- What a look-up is due to answer, given the entities that hold the key. -/
def due (type : String) (key : LookupKey) : List Handle → Except SessionFault (Option Handle)
  | [] => .ok none
  | [h] => .ok (some h)
  | _ => .error (.store (.duplicateResult type key.text))

/-- Which of several holders comes first does not matter. -/
theorem due_perm {type : String} {key : LookupKey} {hs hs' : List Handle} (h : hs.Perm hs') :
    due type key hs = due type key hs' := by
  match hs with
  | [] => rw [h.nil_eq]
  | [x] => rw [List.singleton_perm.mp h]
  | x :: y :: rest =>
    match hs', h.length_eq with
    | _ :: _ :: _, _ => rfl

/-! ## Running a collection -/

variable {c : SessionCollection} {sorter : Sorter Handle} {w w' : Work} {es : List Handle} {α : Type}

theorem exec_check (r : Except QueryError α) (w : Work) :
    exec (check r) w = (r.mapError fun e => .store (.query e), w) := by
  unfold check
  exact exec_ofExcept w _

theorem exec_matching (c : SessionCollection) (p : Option Predicate) (w : Work) :
    exec (c.matching p) w =
      match exec c.base w with
      | (.error e, w) => (.error e, w)
      | (.ok hs, w) => (.ok (hs.filter (passes w.store.pool p)), w) := by
  unfold matching
  simp only [exec_bind, exec_get, exec_pure]
  rcases exec c.base w with ⟨e | hs, w'⟩ <;> rfl

/-- Putting entities in order loses none and doubles none. -/
theorem perm_of_inOrder? {pool : Pool} {order : Option Comparator} {hs : List Handle}
    (h : inOrder? sorter pool order hs = some es) : es.Perm hs := by
  cases order with
  | none =>
    obtain rfl := Option.some.inj h
    exact .refl _
  | some o => exact sorter.perm h

/-- When a collection without a window yields its items, the filter compiles, and the items are
those of the base that pass, in some order. -/
theorem of_exec_items (hsearch : c.view.searchMode = false)
    (hitems : exec (c.unwindowed.items sorter) w = (.ok es, w')) :
    ∃ p base, exec c.predicate w = (.ok p, w) ∧ exec c.base w = (.ok base, w') ∧
      es.Perm (base.filter (passes w'.store.pool p)) := by
  have hsuppressed : c.unwindowed.view.suppressed = false := by
    show (c.view.searchMode && c.view.filter.isNone) = false
    rw [hsearch, Bool.false_and]
  unfold items at hitems
  rw [exec_bind, show c.unwindowed.predicate = c.predicate from rfl] at hitems
  rw [show exec c.predicate w = _ from exec_check _ w] at hitems ⊢
  generalize c.view.filter.mapM (FilterSpec.compile c.schema c.type) = filter at hitems ⊢
  cases filter with
  | error e => cases hitems
  | ok p =>
    refine ⟨p, ?_⟩
    simp only [Except.mapError, exec_bind] at hitems
    rw [show exec c.unwindowed.comparator w = _ from exec_check _ w] at hitems
    generalize c.unwindowed.view.order.mapM (OrderSpec.compile c.unwindowed.schema c.unwindowed.type)
      = order at hitems
    cases order with
    | error e => cases hitems
    | ok o =>
      simp only [Except.mapError, hsuppressed, Bool.false_eq_true, if_false, exec_bind, exec_matching,
        exec_get] at hitems
      rw [show c.unwindowed.base = c.base from rfl] at hitems
      rcases hbase : exec c.base w with ⟨e | base, w₁⟩
      · rw [hbase] at hitems
        cases hitems
      · rw [hbase] at hitems
        simp only at hitems
        cases hsorted : inOrder? sorter w₁.store.pool o (base.filter (passes w₁.store.pool p)) with
        | none =>
          rw [hsorted] at hitems
          cases hitems
        | some sorted =>
          rw [hsorted] at hitems
          obtain ⟨hes, rfl⟩ := Prod.mk.inj hitems
          refine ⟨base, rfl, rfl, ?_⟩
          rw [← Except.ok.inj hes]
          exact perm_of_inOrder? hsorted

/-! ## Among the children of a parent -/

theorem exec_lookUp_of_scope {r : Relationship} (hscope : c.scope = some r) {p : Option Predicate}
    (hp : exec c.predicate w = (.ok p, w)) {base : List Handle}
    (hbase : exec c.base w = (.ok base, w')) (key : LookupKey) :
    (exec (c.lookUp key) w).1
      = due c.type key ((base.filter (passes w'.store.pool p)).filter (key.heldBy w'.store.pool)) := by
  have hfind : exec (c.lookUp key) w = exec (c.find p key.text fun pool h => key.heldBy pool h) w := by
    cases key with
    | byId id =>
      show exec (c.getById id) w = _
      unfold getById
      simp only [exec_bind, hp, hscope]
      rfl
    | bySlug slug =>
      show exec (c.getBySlug slug) w = _
      unfold getBySlug
      simp only [exec_bind, hp, hscope]
      rfl
  rw [hfind]
  unfold find
  simp only [exec_bind, exec_matching, hbase, exec_get]
  rcases (base.filter (passes w'.store.pool p)).filter (key.heldBy w'.store.pool) with
    _ | ⟨x, _ | ⟨y, rest⟩⟩ <;> rfl

/-! ## In the session as a whole -/

section Unscoped

variable {type : String} {cache : Cache}

/-- A session whose indexes of one type have been brought up to date. -/
def reindexed (w : Work) (cache : Cache) : Work :=
  { w with session := { w.session with caches := w.session.caches.put (cache.rebuild w.store.pool) } }

theorem find?_reindexed (hfind : w.session.caches.find? type = some cache) :
    (reindexed w cache).session.caches.find? type = some (cache.rebuild w.store.pool) := by
  rw [← Caches.type_of_find? hfind]
  exact Caches.find?_put_self _ (cache.rebuild w.store.pool)

theorem exec_readThrough (hflush : w.store.repository.settings.autoflush = true)
    (hrun : exec (checkout type) w = (.ok cache, w')) :
    exec (readThrough type) w = (.ok (), reindexed w' cache) := by
  unfold readThrough
  simp only [exec_bind, exec_get, hflush, if_true, exec_onCache, hrun]
  rfl

/-- All entities of a type are those of its cache. -/
theorem exec_all (hflush : w.store.repository.settings.autoflush = true)
    (hrun : exec (checkout type) w = (.ok cache, w')) :
    exec (all type) w = (.ok cache.entities, reindexed w' cache) := by
  have hfind := find?_reindexed (find?_of_exec_checkout hrun)
  unfold all
  rw [exec_bind, exec_readThrough hflush hrun]
  simp only [exec_bind, exec_checkout_of_some hfind, exec_pure]
  rfl

/-- What is found in a session is the first entity of the type that holds the key. -/
theorem exec_inSession (hflush : w.store.repository.settings.autoflush = true)
    (hrun : exec (checkout type) w = (.ok cache, w')) (key : LookupKey) :
    (exec (key.inSession type) w).1 = .ok (cache.entities.find? (key.heldBy w'.store.pool)) ∧
      (exec (key.inSession type) w).2.store = w'.store := by
  have hread := exec_readThrough hflush hrun
  have hfind := find?_reindexed (find?_of_exec_checkout hrun)
  have hrefresh : (cache.rebuild w'.store.pool).refresh w'.store.pool = cache.rebuild w'.store.pool :=
    if_neg Bool.false_ne_true
  rw [← key.find?_heldBy_of_rebuild]
  cases key with
  | byId id =>
    show (exec (Session.getById type id) w).1 = _ ∧ (exec (Session.getById type id) w).2.store = _
    unfold Session.getById lookup
    simp only [exec_bind, hread, exec_onCache, exec_checkout_of_some hfind]
    exact ⟨congrArg (fun c : Cache => Except.ok (c.byId.get? id)) hrefresh, rfl⟩
  | bySlug slug =>
    show (exec (Session.getBySlug type slug) w).1 = _ ∧ (exec (Session.getBySlug type slug) w).2.store = _
    unfold Session.getBySlug
    simp only [exec_bind, hread, exec_onCache, exec_checkout_of_some hfind]
    exact ⟨congrArg (fun c : Cache => Except.ok (c.bySlug.get? slug)) hrefresh, rfl⟩

/-- A collection over a whole session, once it yields its entities: they are those that the session
lists, and a look-up answers with the first holder among these, if it passes. -/
theorem exec_lookUp_of_no_scope (hscope : c.scope = none)
    (hflush : w.store.repository.settings.autoflush = true) {p : Option Predicate}
    (hp : exec c.predicate w = (.ok p, w)) {base : List Handle}
    (hbase : exec c.base w = (.ok base, w')) (key : LookupKey) :
    base = w'.session.listed c.type ∧
      (exec (c.lookUp key) w).1
        = .ok ((base.find? (key.heldBy w'.store.pool)).filter (passes w'.store.pool p)) := by
  have hall : exec (locked (all c.type)) w = (.ok base, w') := by
    rw [← hbase]
    unfold SessionCollection.base
    rw [hscope]
  obtain ⟨hfree, hall⟩ := of_exec_locked hall
  rcases hrun : exec (checkout c.type) w with ⟨e | cache, w₁⟩
  · rw [exec_all_of_error hrun] at hall
    cases hall
  · rw [exec_all hflush hrun] at hall
    obtain ⟨hlist, rfl⟩ := Prod.mk.inj hall
    obtain rfl := Except.ok.inj hlist
    have hfind := find?_reindexed (find?_of_exec_checkout hrun)
    refine ⟨?_, ?_⟩
    · rw [Session.listed, hfind]
      rfl
    · obtain ⟨hanswer, hstore⟩ := exec_inSession hflush hrun key
      have hlocked : exec (locked (key.inSession c.type)) w = exec (key.inSession c.type) w :=
        exec_locked_of_ok hfree hanswer
      have hlookUp : exec (c.lookUp key) w
          = exec (locked (key.inSession c.type) >>= fun found => among p found) w := by
        cases key with
        | byId id =>
          show exec (c.getById id) w = _
          unfold getById
          simp only [exec_bind, hp, hscope]
          rfl
        | bySlug slug =>
          show exec (c.getBySlug slug) w = _
          unfold getBySlug
          simp only [exec_bind, hp, hscope]
          rfl
      rw [hlookUp, exec_bind, hlocked]
      rcases hsession : exec (key.inSession c.type) w with ⟨found, w₂⟩
      rw [hsession] at hanswer hstore
      obtain rfl : found = _ := hanswer
      unfold among
      simp only [exec_bind, exec_get, exec_pure]
      rw [show w₂.store = w₁.store from hstore]
      rfl

end Unscoped

/-! ## Whether a look-up answers what is due -/

/-- No more than one entity of the collection holds the key, and that is the first of all the listed
entities that hold it. -/
def Unambiguous (key : LookupKey) (pool : Pool) (listed holders : List Handle) : Prop :=
  holders.length ≤ 1 ∧ ∀ h ∈ holders, listed.find? (key.heldBy pool) = some h

/-- Filtering the first holder against taking the only one that passes. -/
theorem filter_find?_eq_due_iff {type : String} {key : LookupKey} {pool : Pool} {p : Handle → Bool}
    {listed holders : List Handle}
    (hholders : ∀ h, h ∈ holders ↔ (h ∈ listed ∧ p h = true) ∧ key.heldBy pool h = true) :
    .ok ((listed.find? (key.heldBy pool)).filter p) = due type key holders ↔
      Unambiguous key pool listed holders := by
  match holders with
  | [] =>
    refine iff_of_true ?_ ⟨Nat.zero_le _, fun h hh => absurd hh List.not_mem_nil⟩
    refine congrArg Except.ok (Option.filter_eq_none_iff.mpr fun h hfirst hpass => ?_)
    exact List.not_mem_nil ((hholders h).mpr
      ⟨⟨List.mem_of_find?_eq_some hfirst, hpass⟩, List.find?_some hfirst⟩)
  | [h] =>
    have hpass : p h = true := ((hholders h).mp (List.mem_singleton_self h)).1.2
    constructor
    · intro hdue
      refine ⟨Nat.le_refl _, fun g hg => ?_⟩
      rw [List.mem_singleton.mp hg]
      exact (Option.filter_eq_some_iff.mp (Except.ok.inj hdue)).1
    · rintro ⟨-, hfirst⟩
      rw [hfirst h (List.mem_singleton_self h), Option.filter_some, if_pos hpass]
      rfl
  | x :: y :: rest =>
    refine iff_of_false (fun hdue => by cases hdue) ?_
    rintro ⟨hlength, -⟩
    exact absurd hlength (by simp)

/-- **What a look-up answers.** Let the entities of a collection, without its window, be known, and
those among them that hold a key. Among the children of a parent a look-up by the key answers with
the only holder, with none, or with an error if there are several. In the session as a whole it
answers so exactly when there is no more than one holder, and that is the first listed entity to
hold the key. -/
theorem lookUp_eq_due_iff (hflush : w.store.repository.settings.autoflush = true)
    (hsearch : c.view.searchMode = false)
    (hitems : exec (c.unwindowed.items sorter) w = (.ok es, w')) (key : LookupKey) :
    (exec (c.lookUp key) w).1 = due c.type key (es.filter (key.heldBy w'.store.pool)) ↔
      (c.scope = none → Unambiguous key w'.store.pool (w'.session.listed c.type)
        (es.filter (key.heldBy w'.store.pool))) := by
  obtain ⟨p, base, hp, hbase, hperm⟩ := of_exec_items hsearch hitems
  cases hscope : c.scope with
  | some r =>
    refine iff_of_true ?_ nofun
    rw [exec_lookUp_of_scope hscope hp hbase key, due_perm (hperm.filter _)]
  | none =>
    obtain ⟨rfl, hanswer⟩ := exec_lookUp_of_no_scope hscope hflush hp hbase key
    rw [hanswer, filter_find?_eq_due_iff, imp_iff_right rfl]
    intro h
    rw [List.mem_filter, hperm.mem_iff, List.mem_filter]

open Samples

/-- The tags of a session that pass a filter. -/
def tags (filter : Option FilterSpec) : SessionCollection where
  type := "tag"
  schema := .ofList Samples.all
  scope := none
  view := { View.all with filter }

/-- The blue tag is the only one of that name, and is found. -/
theorem lookUp_eq_due_iff_blue :
    (exec (tags none).unwindowed.items ⟨redAndBlue [], .fresh⟩).1 = .ok [2, 3] ∧
      (exec ((tags none).lookUp (.bySlug "blue")) ⟨redAndBlue [], .fresh⟩).1 = .ok (some 3) := by
  have hitems : (exec (tags none).unwindowed.items ⟨redAndBlue [], .fresh⟩).1 = .ok [2, 3] := by
    decide +kernel
  refine ⟨hitems, ((lookUp_eq_due_iff rfl rfl (Prod.ext hitems rfl) (.bySlug "blue")).mpr fun _ => ?_).trans ?_⟩
  · exact ⟨by decide +kernel, by decide +kernel⟩
  · decide +kernel

/-- A session has been given all tags and names the blue one red. -/
def twoReds : Work :=
  edited (after ⟨redAndBlue [], .fresh⟩ (.all "tag")) 3 fun e => e.set "name" (.value (.string "red"))

theorem reachable_twoReds : twoReds.Reachable Entity.SameKey fun _ => True :=
  reachable_edited ((reachable_redAndBlue []).step (.call (.all "tag") nofun (by decide +kernel)))
    fun _ => ⟨rfl, rfl⟩

/-- The holders of a slug among what a collection yields of the two. -/
def holdersOf (c : SessionCollection) (slug : String) : Except SessionFault (List Handle) :=
  let run := exec c.unwindowed.items twoReds
  run.1.map fun es => es.filter (LookupKey.heldBy (.bySlug slug) run.2.store.pool)

/-- **The index answers with an arbitrary match.** Of two tags that are named red by now the first
is found; and where only the second passes the filter, none is. -/
theorem not_lookUp_due_of_two_holders :
    twoReds.Reachable Entity.SameKey (fun _ => True) ∧
      (holdersOf (tags none) "red" = .ok [2, 3] ∧
        due "tag" (.bySlug "red") [2, 3] = .error (.store (.duplicateResult "tag" "red")) ∧
        (exec ((tags none).lookUp (.bySlug "red")) twoReds).1 = .ok (some 2)) ∧
      (holdersOf (tags (some (.equalTo "id" (.int 2)))) "red" = .ok [3] ∧
        due "tag" (.bySlug "red") [3] = .ok (some 3) ∧
        (exec ((tags (some (.equalTo "id" (.int 2)))).lookUp (.bySlug "red")) twoReds).1 = .ok none) :=
  ⟨reachable_twoReds, by decide +kernel, by decide +kernel⟩

end SessionCollection

end EntityStore
