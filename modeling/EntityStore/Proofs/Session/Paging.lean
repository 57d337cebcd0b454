import EntityStore.Proofs.Order.Consistency
import EntityStore.Proofs.Session.Scanning

/-!
# Reading page by page

A collection keeps nothing between two reads: each page is filtered, sorted and cut out anew, from a
base that is read again. **As long as nobody changes the session in between, the pages put together
are what is read at once.** Sorting does the same to the same list, so every page is cut out of the
same one; the list holds each entry of the base that passes the filter once, ordered wherever the
comparator is consistent, and ties stand as they stand in the base. How many there are does not depend
on the window.

A comparator need not be consistent, though: a weight that is not a number is tied with every other.
Sorting may then give up, and nothing can be read, neither at once nor page by page.
-/

namespace EntityStore.SessionCollection

open Session

/-- The collection through another window. -/
def through (c : SessionCollection) (window : Option Window) : SessionCollection :=
  { c with view := { c.view with window } }

/-- Reading page by page, `n` items at a time, from some place in the list on and up to the first
page that is empty: what has been read in the end, and the session that is left. -/
inductive Pages (c : SessionCollection) (sorter : Sorter Handle) (n : Nat) :
    Nat → Work → List Handle → Work → Prop
  | done {offset : Nat} {w w' : Work}
      (hpage : exec ((c.through (some ⟨offset, n⟩)).items sorter) w = (.ok [], w')) :
      Pages c sorter n offset w [] w'
  | page {offset : Nat} {w w₁ w' : Work} {page rest : List Handle}
      (hpage : exec ((c.through (some ⟨offset, n⟩)).items sorter) w = (.ok page, w₁))
      (hne : page ≠ []) (hrest : Pages c sorter n (offset + n) w₁ rest w') :
      Pages c sorter n offset w (page ++ rest) w'

/-- A collection yields a list: it is read at once, and put together from pages, and counted, and
each way leaves the same session. -/
structure Yields (c : SessionCollection) (sorter : Sorter Handle) (n : Nat) (w : Work)
    (es : List Handle) (w' : Work) : Prop where
  items : exec ((c.through none).items sorter) w = (.ok es, w')
  pages : ∀ read w'', Pages c sorter n 0 w read w'' ↔ read = es ∧ w'' = w'
  count : ∀ window, exec (c.through window).count w = (.ok es.length, w')

/-- A collection defeats a sorter: it cannot be read through any window, though it is counted. -/
structure Defeats (c : SessionCollection) (sorter : Sorter Handle) (count : Nat) (w w' : Work) :
    Prop where
  items : ∀ window,
    exec ((c.through window).items sorter) w = (.error (.violation .inconsistentOrder), w')
  count : ∀ window, exec (c.through window).count w = (.ok count, w')

/-- Where the entries of a collection come from: the children of its parent, or the list of the
session. -/
def source (c : SessionCollection) (w : Work) : List Handle :=
  match c.scope with
  | some r => r.children w.store.pool
  | none => w.session.listed c.type

/-- The comparison that a collection sorts by; without an order all entries are tied. -/
def comparing (pool : Pool) (order : Option Comparator) (a b : Handle) : Ordering :=
  order.elim .eq (·.compare pool a b)

theorem arranges_of_inOrder? {sorter : Sorter Handle} {pool : Pool} {order : Option Comparator}
    {hs es : List Handle} (h : inOrder? sorter pool order hs = some es) :
    Sorting.Arranges (comparing pool order) hs es := by
  cases order with
  | none =>
    obtain rfl := Option.some.inj h
    have hsort : Sorting.sort (comparing pool none) hs = hs :=
      Sorting.sort_of_not_lt (fun _ _ hlt => by cases hlt) hs
    have harranges := Sorting.arranges_sort (comparing pool none) hs
    rw [hsort] at harranges
    exact harranges
  | some o => exact Sorting.arranges_of_sort? h

/-- Entries are put in order unless they are compared inconsistently. -/
theorem not_consistent_of_inOrder? {sorter : Sorter Handle} {pool : Pool}
    {order : Option Comparator} {hs : List Handle} (h : inOrder? sorter pool order hs = none) :
    ¬ Sorting.Consistent (comparing pool order) hs := by
  cases order with
  | none => cases h
  | some o => exact Sorting.not_consistent_of_sort? h

variable {c : SessionCollection} {sorter : Sorter Handle} {w w' : Work} {p : Option Predicate}
  {o : Option Comparator} {base es : List Handle} {n : Nat}

/-! ## The base -/

/-- The base of a collection is what it comes from, and reading it once more changes nothing. -/
theorem exec_base_again (hbase : exec c.base w = (.ok base, w')) :
    base = c.source w' ∧ exec c.base w' = (.ok base, w') := by
  unfold SessionCollection.base source at *
  cases hscope : c.scope with
  | some r =>
    rw [hscope] at hbase
    obtain ⟨hchildren, rfl⟩ := Prod.mk.inj hbase
    obtain rfl := Except.ok.inj hchildren
    exact ⟨rfl, rfl⟩
  | none =>
    rw [hscope] at hbase
    obtain ⟨hfree, hall⟩ := of_exec_locked hbase
    refine ⟨(listed_of_exec_all hall).symm, ?_⟩
    have hagain := exec_all_again hall
    show exec (locked (all c.type)) w' = _
    rw [exec_locked_of_ok ((poisoned_of_exec_all hall).trans hfree) (congrArg Prod.fst hagain),
      hagain]

/-! ## Reading through a window -/

section Reading

theorem exec_predicate_through
    (hfilter : c.view.filter.mapM (FilterSpec.compile c.schema c.type) = .ok p)
    (window : Option Window) (w : Work) : exec (c.through window).predicate w = (.ok p, w) := by
  rw [show exec (c.through window).predicate w = _ from exec_check _ w]
  show ((c.view.filter.mapM (FilterSpec.compile c.schema c.type)).mapError _, w) = _
  rw [hfilter]
  rfl

theorem exec_comparator_through
    (horder : c.view.order.mapM (OrderSpec.compile c.schema c.type) = .ok o)
    (window : Option Window) (w : Work) : exec (c.through window).comparator w = (.ok o, w) := by
  rw [show exec (c.through window).comparator w = _ from exec_check _ w]
  show ((c.view.order.mapM (OrderSpec.compile c.schema c.type)).mapError _, w) = _
  rw [horder]
  rfl

theorem suppressed_through (hsearch : c.view.searchMode = false) (window : Option Window) :
    (c.through window).view.suppressed = false := by
  show (c.view.searchMode && c.view.filter.isNone) = false
  rw [hsearch, Bool.false_and]

variable (hsearch : c.view.searchMode = false)
  (hfilter : c.view.filter.mapM (FilterSpec.compile c.schema c.type) = .ok p)
  (horder : c.view.order.mapM (OrderSpec.compile c.schema c.type) = .ok o)

include hsearch hfilter

theorem exec_count (window : Option Window) (w : Work) :
    exec (c.through window).count w =
      match exec c.base w with
      | (.error e, w) => (.error e, w)
      | (.ok base, w) => (.ok (base.filter (passes w.store.pool p)).length, w) := by
  unfold count
  simp only [exec_bind, exec_predicate_through hfilter, suppressed_through hsearch,
    Bool.false_eq_true, if_false, exec_matching, exec_pure]
  rw [show (c.through window).base = c.base from rfl]
  rcases exec c.base w with ⟨e | base, w'⟩ <;> rfl

include horder

/-- What is read through a window is cut out of what passes, once that is in order. -/
theorem exec_items (window : Option Window) (w : Work) :
    exec ((c.through window).items sorter) w =
      match exec c.base w with
      | (.error e, w) => (.error e, w)
      | (.ok base, w) =>
        match inOrder? sorter w.store.pool o (base.filter (passes w.store.pool p)) with
        | some es => (.ok (Window.sliceIn es window), w)
        | none => (.error (.violation .inconsistentOrder), w) := by
  unfold items
  simp only [exec_bind, exec_predicate_through hfilter, exec_comparator_through horder,
    suppressed_through hsearch, Bool.false_eq_true, if_false, exec_matching, exec_get]
  rw [show (c.through window).base = c.base from rfl]
  rcases exec c.base w with ⟨e | base, w'⟩
  · rfl
  · simp only
    cases inOrder? sorter w'.store.pool o (base.filter (passes w'.store.pool p)) <;> rfl

end Reading

/-! ## Page by page -/

/-- Every page is cut out of one list: in a session, and in what reading it leaves. -/
def Cuts (c : SessionCollection) (sorter : Sorter Handle) (w : Work) (es : List Handle) (w' : Work) :
    Prop :=
  ∀ v, v = w ∨ v = w' → ∀ window,
    exec ((c.through window).items sorter) v = (.ok (Window.sliceIn es window), w')

/-- Reading page by page gives the rest of the list. By induction on the pages that are read: none but
the first is read in the session that there was. -/
theorem Pages.eq {offset : Nat} {v w'' : Work} {read : List Handle}
    (h : Pages c sorter n offset v read w'') (hcuts : c.Cuts sorter w es w') (hn : 0 < n)
    (hv : v = w ∨ v = w') : read = es.drop offset ∧ w'' = w' := by
  induction h with
  | done hpage =>
    obtain ⟨hempty, rfl⟩ := Prod.mk.inj (hpage.symm.trans (hcuts _ hv _))
    refine ⟨?_, rfl⟩
    rcases List.take_eq_nil_iff.mp (Except.ok.inj hempty).symm with hzero | hdrop
    · exact absurd hzero (Nat.pos_iff_ne_zero.mp hn)
    · exact hdrop.symm
  | page hpage hne hrest ih =>
    obtain ⟨hpage, rfl⟩ := Prod.mk.inj (hpage.symm.trans (hcuts _ hv _))
    obtain ⟨hread, hleft⟩ := ih (.inr rfl)
    refine ⟨?_, hleft⟩
    rw [hread, Except.ok.inj hpage, ← List.drop_drop]
    exact List.take_append_drop _ _

/-- It comes to an end, as the rest of the list gets shorter with every page. -/
theorem Cuts.pages (hcuts : c.Cuts sorter w es w') (hn : 0 < n) (offset : Nat) {v : Work}
    (hv : v = w ∨ v = w') : Pages c sorter n offset v (es.drop offset) w' := by
  have hpage : exec ((c.through (some ⟨offset, n⟩)).items sorter) v
      = (.ok ((es.drop offset).take n), w') := hcuts v hv _
  by_cases hend : es.length ≤ offset
  · rw [List.drop_eq_nil_of_le hend] at hpage ⊢
    rw [List.take_nil] at hpage
    exact .done hpage
  · have hrest := hcuts.pages hn (offset + n) (.inr rfl)
    rw [← List.take_append_drop n (es.drop offset), List.drop_drop]
    refine .page hpage ?_ hrest
    intro hempty
    have hlength := congrArg List.length hempty
    rw [List.length_take, List.length_drop, List.length_nil] at hlength
    omega
termination_by es.length - offset

/-- A collection whose pages are all cut out of one list yields it. -/
theorem Cuts.yields (hcuts : c.Cuts sorter w es w') (hn : 0 < n)
    (hcount : ∀ v, v = w ∨ v = w' → ∀ window,
      exec (c.through window).count v = (.ok es.length, w')) :
    c.Yields sorter n w es w' ∧ c.Yields sorter n w' es w' := by
  have hyields : ∀ v, v = w ∨ v = w' → c.Yields sorter n v es w' := by
    intro v hv
    refine ⟨hcuts v hv none, fun read w'' => ⟨fun hread => hread.eq hcuts hn hv, ?_⟩, hcount v hv⟩
    rintro ⟨rfl, rfl⟩
    exact hcuts.pages hn 0 hv
  exact ⟨hyields w (.inl rfl), hyields w' (.inr rfl)⟩

/-- **The pages put together are what is read at once**, unless sorting gives up. In whatever state a
session is, one of three things holds of a collection. It fails through every window, in the same way
whether it is read or counted. Or it yields a list in which the entries that pass, of those that it
comes from, have been put in order. Or else they are compared inconsistently, and sorting them is given
up, through every window; only their number can be had. When it is read once more it is the same. -/
theorem pages_eq_items (sorter : Sorter Handle) (hsearch : c.view.searchMode = false)
    (hfilter : c.view.filter.mapM (FilterSpec.compile c.schema c.type) = .ok p)
    (horder : c.view.order.mapM (OrderSpec.compile c.schema c.type) = .ok o) (hn : 0 < n)
    (w : Work) :
    match exec c.base w with
    | (.error e, w') => ∀ window, exec ((c.through window).items sorter) w = (.error e, w') ∧
        exec (c.through window).count w = (.error e, w')
    | (.ok base, w') =>
      let passing := base.filter (passes w'.store.pool p)
      base = c.source w' ∧
        ((∃ es, Sorting.Arranges (comparing w'.store.pool o) passing es ∧
            c.Yields sorter n w es w' ∧ c.Yields sorter n w' es w') ∨
          ¬ Sorting.Consistent (comparing w'.store.pool o) passing ∧
            c.Defeats sorter passing.length w w' ∧ c.Defeats sorter passing.length w' w') := by
  have hitems := @exec_items c sorter p o hsearch hfilter horder
  have hcount := exec_count hsearch hfilter
  rcases hbase : exec c.base w with ⟨e | base, w'⟩
  · intro window
    rw [hitems, hcount, hbase]
    exact ⟨rfl, rfl⟩
  · obtain ⟨hsource, hagain⟩ := exec_base_again hbase
    let passing := base.filter (passes w'.store.pool p)
    have hread : ∀ v, v = w ∨ v = w' → exec c.base v = (.ok base, w') :=
      fun v hv => hv.elim (· ▸ hbase) (· ▸ hagain)
    have hcounted : ∀ v, v = w ∨ v = w' → ∀ window,
        exec (c.through window).count v = (.ok passing.length, w') := by
      intro v hv window
      rw [hcount, hread v hv]
    have hlisted : ∀ v, v = w ∨ v = w' → ∀ window,
        exec ((c.through window).items sorter) v =
          match inOrder? sorter w'.store.pool o passing with
          | some es => (.ok (Window.sliceIn es window), w')
          | none => (.error (.violation .inconsistentOrder), w') := by
      intro v hv window
      rw [hitems, hread v hv]
    refine ⟨hsource, ?_⟩
    cases hsorted : inOrder? sorter w'.store.pool o passing with
    | some es =>
      rw [hsorted] at hlisted
      have harranges := arranges_of_inOrder? hsorted
      have hcuts : c.Cuts sorter w es w' := hlisted
      refine .inl ⟨es, harranges, hcuts.yields hn ?_⟩
      rw [harranges.perm.length_eq]
      exact hcounted
    | none =>
      rw [hsorted] at hlisted
      have hdefeats : ∀ v, v = w ∨ v = w' → c.Defeats sorter passing.length v w' :=
        fun v hv => ⟨hlisted v hv, hcounted v hv⟩
      exact .inr ⟨not_consistent_of_inOrder? hsorted, hdefeats w (.inl rfl), hdefeats w' (.inr rfl)⟩

open Samples

/-- A note of a text. -/
def noteOf (text : String) : Entity := (blank note).set "text" (.value (.string text))

/-- Ann has two notes, and the first of them twice. -/
def threeNotes : Work :=
  let ann := (personCalled 1 "ann").set "notes" (.many [1, 2, 1])
  ⟨redAndBlue [ann, noteOf "more", noteOf "less"], .fresh⟩

/-- Ann's notes by their texts. -/
def notesByText : SessionCollection where
  type := "note"
  schema := .ofList Samples.all
  scope := some ⟨0, "notes", none⟩
  view := { View.all with order := some (.key ⟨"text", .asc⟩) }

/-- The tags of a session by their names. -/
def tagsByName : SessionCollection :=
  { tags none with view := { View.all with order := some (.key ⟨"name", .asc⟩) } }

/-- Two notes are shown at a time, and the one that is there twice stands on either side of the page
break. One tag is shown at a time, of two that are named red. -/
theorem pages_eq_items_notes_and_tags :
    (∃ w', Pages notesByText .cautious 2 0 threeNotes [2, 1, 1] w') ∧
      ∃ w', Pages tagsByName .cautious 1 0 twoReds [2, 3] w' := by
  have hpages : ∀ {c : SessionCollection} {w : Work} {o : Option Comparator} {n : Nat}
      {es : List Handle}, c.view.searchMode = false → c.view.filter = none →
      c.view.order.mapM (OrderSpec.compile c.schema c.type) = .ok o → 0 < n →
      (exec (c.through none).items w).1 = .ok es → ∃ w', Pages c .cautious n 0 w es w' := by
    intro c w o n es hsearch hnone horder hn hread
    have hfilter : c.view.filter.mapM (FilterSpec.compile c.schema c.type) = .ok none := by
      rw [hnone]
      rfl
    have hyield := pages_eq_items .cautious hsearch hfilter horder hn w
    rcases hbase : exec c.base w with ⟨e | base, w'⟩
    · rw [hbase] at hyield
      rw [(hyield none).1] at hread
      cases hread
    · rw [hbase] at hyield
      obtain ⟨-, ⟨es', -, hyields, -⟩ | ⟨-, hdefeats, -⟩⟩ := hyield
      · rw [hyields.items] at hread
        obtain rfl := Except.ok.inj hread
        exact ⟨w', (hyields.pages es' w').mpr ⟨rfl, rfl⟩⟩
      · rw [hdefeats.items none] at hread
        cases hread
  have htext : OrderSpec.compile (.ofList Samples.all) "note" (.key ⟨"text", .asc⟩)
      = .ok (.key ⟨["text"], .asc⟩) := by cbv
  have hname : OrderSpec.compile (.ofList Samples.all) "tag" (.key ⟨"name", .asc⟩)
      = .ok (.key ⟨["name"], .asc⟩) := by cbv
  exact ⟨hpages rfl rfl (congrArg (Except.map some) htext) (by decide) (by decide +kernel),
    hpages rfl rfl (congrArg (Except.map some) hname) (by decide) (by decide +kernel)⟩

/-- A tag of a number that is its name as well, and of a weight. -/
def tagWeighing (number : Nat) (weight : Binary64) : Entity :=
  let id : EntityId := .ofNat number
  (tagNamed (some id) id.toText).set "weight" (.value (.float weight))

/-- A session over twenty-one tags, which weigh two and one by turns, but for one in the middle whose
weight is not a number. -/
def twentyOneTags : Work where
  store :=
    { redAndBlue [] with
      repository := (Repository.empty .defaults).withLoader "tag" (.ofEntities
        ((List.range 21).map fun i => tagWeighing (i + 1)
          (if i = 10 then .nan else if i % 2 = 0 then .ofInt 2 else .ofInt 1))) }
  session := .fresh

/-- The tags of a session by their weights. -/
def tagsByWeight : SessionCollection :=
  { tags none with view := { View.all with order := some (.key ⟨"weight", .asc⟩) } }

/-- The first tag weighs no more than the one in the middle and that no more than the second, yet the
first weighs more than the second. So there is nothing to be read, though there are twenty-one. -/
theorem twentyOneTags_defeat_sorting :
    (exec (tagsByWeight.through none).items twentyOneTags).1
        = .error (.violation .inconsistentOrder) ∧
      (exec (tagsByWeight.through none).count twentyOneTags).1 = .ok 21 := by
  have hweight : OrderSpec.compile (.ofList Samples.all) "tag" (.key ⟨"weight", .asc⟩)
      = .ok (.key ⟨["weight"], .asc⟩) := by cbv
  have horder : tagsByWeight.view.order.mapM
      (OrderSpec.compile tagsByWeight.schema tagsByWeight.type)
        = .ok (some (.key ⟨["weight"], .asc⟩)) := congrArg (Except.map some) hweight
  have hfilter : tagsByWeight.view.filter.mapM
      (FilterSpec.compile tagsByWeight.schema tagsByWeight.type) = .ok none := rfl
  have hlisted : (exec tagsByWeight.base twentyOneTags).1 = .ok (List.range' 21 21) := by
    decide +kernel
  -- handles 0 to 20 are the repository's own, and the session has copies of them
  rcases hbase : exec tagsByWeight.base twentyOneTags with ⟨outcome, w'⟩
  rw [hbase] at hlisted
  obtain rfl : outcome = .ok (List.range' 21 21) := hlisted
  have hleft : w' = (exec tagsByWeight.base twentyOneTags).2 := by rw [hbase]
  have hall : (List.range' 21 21).filter (passes w'.store.pool none) = List.range' 21 21 :=
    List.filter_eq_self.mpr fun _ _ => rfl
  have hinconsistent : ¬ Sorting.Consistent
      (fun a b => (Comparator.key ⟨["weight"], .asc⟩).compare w'.store.pool a b)
      (List.range' 21 21) := by
    rintro ⟨-, htrans⟩
    refine htrans 21 (by decide) 31 (by decide) 22 (by decide) ?_ ?_ ?_ <;> rw [hleft] <;>
      decide +kernel
  have hgivesUp : inOrder? .cautious w'.store.pool (some (.key ⟨["weight"], .asc⟩))
      (List.range' 21 21) = none := Sorter.cautious_eq_none.mpr ⟨by decide, hinconsistent⟩
  refine ⟨?_, ?_⟩
  · rw [exec_items rfl hfilter horder, hbase]
    simp only [hall, hgivesUp]
  · rw [exec_count rfl hfilter, hbase]
    simp only [hall]
    rfl

end EntityStore.SessionCollection
