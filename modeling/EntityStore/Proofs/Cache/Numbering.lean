import EntityStore.Proofs.Cache.Keys
import EntityStore.Repository
import Mathlib.Algebra.Order.Group.Int

/-!
# Giving ids to a list

Ids are drawn in ascending order from a sequence. Numbering a list touches the entities that have
no id and nothing else; it goes through exactly when the sequence has an id left for each of them,
and the ids it gives lie above the last one drawn. Where the list's own ids were not above that,
all ids are unique afterwards.
-/

namespace EntityStore

namespace EntityId

theorem toInt_of_next? {id next : EntityId} (h : id.next? = some next) :
    next.toInt = id.toInt + 1 := by
  unfold next? at h
  split at h
  · cases h
  · next hne =>
    obtain rfl := Option.some.inj h
    have hmax : id.toInt ≠ 2 ^ 63 - 1 := fun heq => hne (Int64.toInt_inj.mp heq)
    have hlt := Int64.toInt_lt id
    have hle := Int64.le_toInt id
    rw [Int64.toInt_add]
    show Int.bmod (id.toInt + 1) (2 ^ 64) = _
    rw [Int.bmod_eq_of_le] <;> omega

theorem next?_eq_none {id : EntityId} : id.next? = none ↔ id.toInt = last.toInt := by
  unfold next?
  rw [Int64.toInt_inj]
  split
  · next heq => exact iff_of_true rfl heq
  · next hne => exact iff_of_false (Option.some_ne_none _) hne

theorem toInt_le_last (id : EntityId) : id.toInt ≤ last.toInt := Int64.toInt_le id

/-- The id that follows tells which id it follows. -/
theorem next?_inj {a b : EntityId} (h : a.next? = b.next?) : a = b := by
  refine Int64.toInt_inj.mp ?_
  cases ha : a.next? with
  | none => rw [next?_eq_none.mp ha, next?_eq_none.mp (h.symm.trans ha)]
  | some next =>
    have hsucc := toInt_of_next? ha
    have hsucc' := toInt_of_next? (h.symm.trans ha)
    omega

theorem toInt_later (a b : EntityId) : (a.later b).toInt = max a.toInt b.toInt := by
  unfold later
  split <;> omega

end EntityId

/-- How many entities of a roster have no id. -/
def Roster.unnumbered (r : Roster) : Nat := r.countP fun e => e.id.isNone

namespace Roster

/-- The last id of a sequence that knows the ids of a roster. -/
def latest (r : Roster) (last : EntityId) : EntityId := r.ids.foldl EntityId.later last

variable {r : Roster} {last : EntityId}

theorem toInt_foldl_later (ids : List EntityId) (last : EntityId) :
    last.toInt ≤ (ids.foldl EntityId.later last).toInt ∧
      (∀ id ∈ ids, id.toInt ≤ (ids.foldl EntityId.later last).toInt) ∧
      (ids.foldl EntityId.later last = last ∨ ids.foldl EntityId.later last ∈ ids) := by
  induction ids generalizing last with
  | nil => exact ⟨Int.le_refl _, fun _ h => absurd h List.not_mem_nil, .inl rfl⟩
  | cons id rest ih =>
    obtain ⟨hle, hall, hmem⟩ := ih (last.later id)
    have hlater := EntityId.toInt_later last id
    rw [List.foldl_cons]
    refine ⟨by omega, List.forall_mem_cons.mpr ⟨by omega, hall⟩, ?_⟩
    rcases hmem with heq | hmem
    · rw [heq]
      unfold EntityId.later
      split
      · exact .inr List.mem_cons_self
      · exact .inl rfl
    · exact .inr (List.mem_cons_of_mem _ hmem)

theorem le_latest (r : Roster) (last : EntityId) : last.toInt ≤ (r.latest last).toInt :=
  (toInt_foldl_later r.ids last).1

theorem id_le_latest (last : EntityId) {id : EntityId} (hid : id ∈ r.ids) :
    id.toInt ≤ (r.latest last).toInt :=
  (toInt_foldl_later r.ids last).2.1 id hid

theorem latest_eq_or_mem (r : Roster) (last : EntityId) :
    r.latest last = last ∨ r.latest last ∈ r.ids :=
  (toInt_foldl_later r.ids last).2.2

/-- The last id is bounded by what bounds the sequence and all ids. -/
theorem latest_le {bound : Int} (hlast : last.toInt ≤ bound) (hids : ∀ id ∈ r.ids, id.toInt ≤ bound) :
    (r.latest last).toInt ≤ bound := by
  rcases latest_eq_or_mem r last with heq | hmem
  · rw [heq]
    exact hlast
  · exact hids _ hmem

end Roster

/-- `q` is `p` with ids given to entities of a list that had none. -/
structure Pool.Gives (p : Pool) (hs : List Handle) (q : Pool) : Prop where
  grows : p.Grows q
  next : q.next = p.next
  kept : ∀ k, k ∉ hs ∨ p.id k ≠ none → q.entity k = p.entity k

namespace Cache

/-! ## The largest id -/

/-- The later one of an optional id and an id. -/
def laterOf (best : Option EntityId) (id : EntityId) : Option EntityId :=
  match best with
  | none => some id
  | some b => some (b.later id)

theorem foldl_laterOf (best : Option EntityId) (ids : List EntityId) :
    match ids.foldl laterOf best with
    | none => best = none ∧ ids = []
    | some m => (m ∈ ids ∨ best = some m) ∧ (∀ id ∈ ids, id.toInt ≤ m.toInt) ∧
        ∀ b ∈ best, b.toInt ≤ m.toInt := by
  induction ids generalizing best with
  | nil => cases best <;> simp
  | cons id rest ih =>
    have hrest := ih (laterOf best id)
    rw [List.foldl_cons]
    cases hfold : rest.foldl laterOf (laterOf best id) with
    | none =>
      rw [hfold] at hrest
      cases best <;> cases hrest.1
    | some m =>
      rw [hfold] at hrest
      obtain ⟨hmem, hall, hbest⟩ := hrest
      cases best with
      | none =>
        have hid : id.toInt ≤ m.toInt := hbest id rfl
        refine ⟨.inl ?_, List.forall_mem_cons.mpr ⟨hid, hall⟩, fun _ h => by cases h⟩
        rcases hmem with hmem | hm
        · exact List.mem_cons_of_mem _ hmem
        · obtain rfl := Option.some.inj hm
          exact List.mem_cons_self
      | some b =>
        have hlater : (b.later id).toInt ≤ m.toInt := hbest _ rfl
        rw [EntityId.toInt_later] at hlater
        refine ⟨?_, List.forall_mem_cons.mpr ⟨by omega, hall⟩, ?_⟩
        · rcases hmem with hmem | hm
          · exact .inl (List.mem_cons_of_mem _ hmem)
          · have hm' : b.later id = m := Option.some.inj hm
            unfold EntityId.later at hm'
            split at hm'
            · exact .inl (hm' ▸ List.mem_cons_self)
            · exact .inr (congrArg some hm')
        · intro b' hb'
          obtain rfl := Option.some.inj hb'
          omega

theorem maxId?_eq (pool : Pool) (c : Cache) :
    c.maxId? pool = (pool.roster c.entities).ids.foldl laterOf none := by
  unfold maxId? Roster.ids Pool.roster
  rw [List.filterMap_map]
  rfl

/-- The largest id of a cache is one of its ids, and no other is larger. -/
theorem maxId?_spec (pool : Pool) (c : Cache) :
    match c.maxId? pool with
    | none => (pool.roster c.entities).ids = []
    | some m => m ∈ (pool.roster c.entities).ids ∧
        ∀ id ∈ (pool.roster c.entities).ids, id.toInt ≤ m.toInt := by
  have hfold := foldl_laterOf none (pool.roster c.entities).ids
  rw [← maxId?_eq] at hfold
  cases hmax : c.maxId? pool with
  | none =>
    rw [hmax] at hfold
    exact hfold.2
  | some m =>
    rw [hmax] at hfold
    obtain ⟨hmem | hm, hall, -⟩ := hfold
    · exact ⟨hmem, hall⟩
    · cases hm

theorem maxId?_congr {p q : Pool} {c d : Cache} (he : p.roster c.entities = q.roster d.entities) :
    c.maxId? p = d.maxId? q := by
  rw [maxId?_eq, maxId?_eq, he]

/-- A sequence that takes note of the ids of a cache. -/
theorem getD_map_later (pool : Pool) (c : Cache) (last : EntityId) :
    ((c.maxId? pool).map last.later).getD last = (pool.roster c.entities).latest last := by
  have hspec := maxId?_spec pool c
  refine Int64.toInt_inj.mp (Int.le_antisymm ?_ (Roster.latest_le ?_ ?_))
  · cases hmax : c.maxId? pool with
    | none => exact Roster.le_latest _ _
    | some m =>
      rw [hmax] at hspec
      have hm : m.toInt ≤ _ := Roster.id_le_latest last hspec.1
      have hlast := Roster.le_latest (pool.roster c.entities) last
      show (last.later m).toInt ≤ _
      rw [EntityId.toInt_later]
      omega
  · cases c.maxId? pool with
    | none => exact Int.le_refl _
    | some m =>
      show last.toInt ≤ (last.later m).toInt
      rw [EntityId.toInt_later]
      omega
  · intro id hid
    cases hmax : c.maxId? pool with
    | none =>
      rw [hmax] at hspec
      rw [hspec] at hid
      exact absurd hid List.not_mem_nil
    | some m =>
      rw [hmax] at hspec
      have hle := hspec.2 id hid
      show id.toInt ≤ (last.later m).toInt
      rw [EntityId.toInt_later]
      omega

/-! ## One id after the other -/

section

variable {σ : Type} {next : σ → Except StoreError EntityId × σ} {pool : Pool} {h : Handle}
  {rest : List Handle} {s s' : σ}

theorem assignIds_cons_of_id {id : EntityId} (hid : pool.id h = some id) :
    assignIds next (h :: rest) pool s = assignIds next rest pool s := by
  rw [assignIds, hid]

theorem assignIds_cons_of_error {e : StoreError} (hid : pool.id h = none)
    (hnext : next s = (.error e, s')) :
    assignIds next (h :: rest) pool s = (.error e, pool, s') := by
  rw [assignIds, hid]
  simp only [hnext]

theorem assignIds_cons_of_next {id : EntityId} (hid : pool.id h = none)
    (hnext : next s = (.ok id, s')) :
    assignIds next (h :: rest) pool s =
      ((assignIds next rest (pool.edit h fun e => e.setId (some id)) s').1.map (· + 1),
        (assignIds next rest (pool.edit h fun e => e.setId (some id)) s').2) := by
  rw [assignIds, hid]
  simp only [hnext]
  rcases assignIds next rest (pool.edit h fun e => e.setId (some id)) s' with ⟨_ | _, _, _⟩ <;> rfl

/-- Where all have ids, none is given. -/
theorem assignIds_of_numbered {hs : List Handle} (hall : ∀ h ∈ hs, pool.id h ≠ none) (s : σ) :
    assignIds next hs pool s = (.ok 0, pool, s) := by
  induction hs with
  | nil => rfl
  | cons h rest ih =>
    obtain ⟨hh, hrest⟩ := List.forall_mem_cons.mp hall
    obtain ⟨id, hid⟩ := Option.ne_none_iff_exists'.mp hh
    rw [assignIds_cons_of_id hid, ih hrest]

/-- Only entities of the list that have no id are touched, and all that happens to them is that
they are given one. -/
theorem assignIds_frame (next : σ → Except StoreError EntityId × σ) (hs : List Handle)
    (pool : Pool) (s : σ) : pool.Gives hs (assignIds next hs pool s).2.1 := by
  induction hs generalizing pool s with
  | nil => exact ⟨.refl pool, rfl, fun _ _ => rfl⟩
  | cons h rest ih =>
    cases hid : pool.id h with
    | some id =>
      rw [assignIds_cons_of_id hid]
      obtain ⟨hgrows, hnext, hkept⟩ := ih pool s
      refine ⟨hgrows, hnext, ?_⟩
      intro k hk
      refine hkept k (hk.imp_left ?_)
      exact fun hmem hrest => hmem (List.mem_cons_of_mem _ hrest)
    | none =>
      rcases hn : next s with ⟨e | id, s'⟩
      · rw [assignIds_cons_of_error hid hn]
        exact ⟨.refl pool, rfl, fun _ _ => rfl⟩
      · rw [assignIds_cons_of_next hid hn]
        obtain ⟨hgrows, hnext, hkept⟩ := ih (pool.edit h fun e => e.setId (some id)) s'
        refine ⟨(Pool.grows_setId hid id).trans hgrows, hnext, ?_⟩
        intro k hk
        have hne : k ≠ h := by
          intro heq
          subst heq
          rcases hk with hmem | hsome
          · exact hmem List.mem_cons_self
          · exact hsome hid
        have hedit := Pool.entity_edit_of_ne (p := pool) (f := fun e => e.setId (some id)) hne
        rw [← hedit]
        refine hkept k ?_
        rcases hk with hmem | hsome
        · exact .inl fun hrest => hmem (List.mem_cons_of_mem _ hrest)
        · refine .inr ?_
          rw [Pool.id, hedit]
          exact hsome

/-- An entity outside a list may be edited without changing what the list stands for. -/
theorem roster_edit {f : Entity → Entity} (hh : h ∉ rest) :
    (pool.edit h f).roster rest = pool.roster rest := by
  refine Pool.roster_congr ?_
  intro k hk
  refine Pool.entity_edit_of_ne ?_
  intro heq
  exact hh (heq ▸ hk)

/-- Lists that read alike are numbered alike. -/
theorem assignIds_congr (next : σ → Except StoreError EntityId × σ) {p q : Pool}
    {hs ks : List Handle} (hhs : hs.Nodup) (hks : ks.Nodup) (he : p.roster hs = q.roster ks) :
    (assignIds next hs p s).1 = (assignIds next ks q s).1 ∧
      (assignIds next hs p s).2.2 = (assignIds next ks q s).2.2 ∧
      (assignIds next hs p s).2.1.roster hs = (assignIds next ks q s).2.1.roster ks := by
  induction hs generalizing ks p q s with
  | nil =>
    cases ks with
    | nil => exact ⟨rfl, rfl, rfl⟩
    | cons k rest => cases he
  | cons h rest ih =>
    cases ks with
    | nil => cases he
    | cons k rest' =>
      obtain ⟨hhead, htail⟩ := List.cons_eq_cons.mp he
      obtain ⟨hh, hrest⟩ := List.nodup_cons.mp hhs
      obtain ⟨hk, hrest'⟩ := List.nodup_cons.mp hks
      have hid : p.id h = q.id k := congrArg Entity.id hhead
      cases hpid : p.id h with
      | some id =>
        have hqid : q.id k = some id := hid ▸ hpid
        obtain ⟨hout, hstate, hroster⟩ := ih (s := s) hrest hrest' htail
        rw [assignIds_cons_of_id hpid, assignIds_cons_of_id hqid, Pool.roster_cons, Pool.roster_cons,
          hroster]
        refine ⟨hout, hstate, ?_⟩
        rw [(assignIds_frame next rest p s).kept h (.inl hh),
          (assignIds_frame next rest' q s).kept k (.inl hk), hhead]
      | none =>
        have hqid : q.id k = none := hid ▸ hpid
        rcases hn : next s with ⟨e | id, s'⟩
        · rw [assignIds_cons_of_error hpid hn, assignIds_cons_of_error hqid hn]
          exact ⟨rfl, rfl, he⟩
        · rw [assignIds_cons_of_next hpid hn, assignIds_cons_of_next hqid hn]
          have hedited : (p.edit h fun e => e.setId (some id)).roster rest
              = (q.edit k fun e => e.setId (some id)).roster rest' := by
            rw [roster_edit hh, roster_edit hk]
            exact htail
          obtain ⟨hout, hstate, hroster⟩ := ih (s := s') hrest hrest' hedited
          refine ⟨congrArg (Except.map (· + 1)) hout, hstate, ?_⟩
          rw [Pool.roster_cons, Pool.roster_cons]
          show _ :: Pool.roster _ rest = _ :: Pool.roster _ rest'
          rw [hroster, (assignIds_frame next rest _ s').kept h (.inl hh),
            (assignIds_frame next rest' _ s').kept k (.inl hk), Pool.entity_edit_self,
            Pool.entity_edit_self, hhead]

end

/-! ## Ids from a sequence -/

open Store (advance)

theorem advance_of_some {type : String} {last id : EntityId} (h : last.next? = some id) :
    advance type last = (.ok id, id) := by
  rw [advance, h]

theorem advance_of_none {type : String} {last : EntityId} (h : last.next? = none) :
    advance type last = (.error (.idsExhausted type), last) := by
  rw [advance, h]

/-- A list that was numbered from a sequence. -/
structure Numbered (hs : List Handle) (p q : Pool) (last last' : EntityId) : Prop where
  /-- The sequence was advanced by one for each entity without an id. -/
  advanced : last'.toInt = last.toInt + (p.roster hs).unnumbered
  /-- All have ids. -/
  all : ∀ h ∈ hs, q.id h ≠ none
  /-- The ids are those that were there and new ones. -/
  ids : ∀ id ∈ (q.roster hs).ids,
    id ∈ (p.roster hs).ids ∨ last.toInt < id.toInt ∧ id.toInt ≤ last'.toInt
  /-- The last id drawn, if any was, is one of them. -/
  reached : last' = last ∨ last' ∈ (q.roster hs).ids
  /-- They are unique if those that were there were, and were not above the sequence. -/
  unique : (p.roster hs).ids.Nodup → (∀ id ∈ (p.roster hs).ids, id.toInt ≤ last.toInt) →
    (q.roster hs).ids.Nodup

section Roster

variable {pool : Pool} {h : Handle} (rest : List Handle)

theorem ids_roster_cons_of_id {id : EntityId} (hid : pool.id h = some id) :
    (pool.roster (h :: rest)).ids = id :: (pool.roster rest).ids :=
  List.filterMap_cons_some hid

theorem ids_roster_cons_of_none (hid : pool.id h = none) :
    (pool.roster (h :: rest)).ids = (pool.roster rest).ids :=
  List.filterMap_cons_none hid

theorem unnumbered_roster_cons_of_id {id : EntityId} (hid : pool.id h = some id) :
    (pool.roster (h :: rest)).unnumbered = (pool.roster rest).unnumbered := by
  refine List.countP_cons_of_neg ?_
  rw [show (pool.entity h).id = some id from hid]
  exact Bool.false_ne_true

theorem unnumbered_roster_cons_of_none (hid : pool.id h = none) :
    (pool.roster (h :: rest)).unnumbered = (pool.roster rest).unnumbered + 1 := by
  refine List.countP_cons_of_pos ?_
  rw [show (pool.entity h).id = none from hid]
  rfl

end Roster

/-- An entity that has an id is passed over. -/
theorem Numbered.cons_of_id {h : Handle} {rest : List Handle} {p q : Pool} {last last' : EntityId}
    {id : EntityId} (hrest : Numbered rest p q last last') (hpid : p.id h = some id)
    (hqid : q.id h = some id) : Numbered (h :: rest) p q last last' := by
  have hp := ids_roster_cons_of_id rest hpid
  have hq := ids_roster_cons_of_id rest hqid
  refine ⟨?_, ?_, ?_, ?_, ?_⟩
  · rw [unnumbered_roster_cons_of_id rest hpid]
    exact hrest.advanced
  · refine List.forall_mem_cons.mpr ⟨?_, hrest.all⟩
    rw [hqid]
    exact Option.some_ne_none id
  · rw [hp, hq]
    refine List.forall_mem_cons.mpr ⟨.inl List.mem_cons_self, ?_⟩
    intro x hx
    exact (hrest.ids x hx).imp_left (List.mem_cons_of_mem _)
  · rw [hq]
    exact hrest.reached.imp_right (List.mem_cons_of_mem _)
  · rw [hp, hq]
    intro hunique hbelow
    obtain ⟨hid, hunique⟩ := List.nodup_cons.mp hunique
    obtain ⟨hidBelow, hbelow⟩ := List.forall_mem_cons.mp hbelow
    refine List.nodup_cons.mpr ⟨?_, hrest.unique hunique hbelow⟩
    intro hmem
    rcases hrest.ids id hmem with hold | ⟨hnew, -⟩
    · exact hid hold
    · omega

/-- An entity that has no id is given the next one of the sequence. -/
theorem Numbered.cons_of_next {h : Handle} {rest : List Handle} {p p' q : Pool}
    {last last' id : EntityId} (hrest : Numbered rest p' q id last') (hpid : p.id h = none)
    (hnext : last.next? = some id) (hqid : q.id h = some id)
    (hroster : p'.roster rest = p.roster rest) : Numbered (h :: rest) p q last last' := by
  have hsucc := EntityId.toInt_of_next? hnext
  have hadvanced := hrest.advanced
  rw [hroster] at hadvanced
  have hp := ids_roster_cons_of_none rest hpid
  have hq := ids_roster_cons_of_id rest hqid
  have hids : ∀ x ∈ (q.roster rest).ids,
      x ∈ (p.roster rest).ids ∨ id.toInt < x.toInt ∧ x.toInt ≤ last'.toInt := by
    rw [← hroster]
    exact hrest.ids
  refine ⟨?_, ?_, ?_, ?_, ?_⟩
  · rw [unnumbered_roster_cons_of_none rest hpid]
    omega
  · refine List.forall_mem_cons.mpr ⟨?_, hrest.all⟩
    rw [hqid]
    exact Option.some_ne_none id
  · rw [hp, hq]
    refine List.forall_mem_cons.mpr ⟨.inr ⟨by omega, by omega⟩, ?_⟩
    intro x hx
    rcases hids x hx with hold | hnew
    · exact .inl hold
    · exact .inr ⟨by omega, hnew.2⟩
  · rw [hq]
    rcases hrest.reached with rfl | hmem
    · exact .inr List.mem_cons_self
    · exact .inr (List.mem_cons_of_mem _ hmem)
  · rw [hp, hq]
    intro hunique hbelow
    refine List.nodup_cons.mpr ⟨?_, ?_⟩
    · intro hmem
      rcases hids id hmem with hold | hnew
      · have hidBelow := hbelow id hold
        omega
      · omega
    · refine hrest.unique (hroster ▸ hunique) ?_
      rw [hroster]
      intro x hx
      have hxBelow := hbelow x hx
      omega

/-- **Numbering a list** goes through exactly when there are ids enough. -/
theorem assignIds_advance (type : String) {hs : List Handle} (hnodup : hs.Nodup) (pool : Pool)
    (last : EntityId) :
    match assignIds (advance type) hs pool last with
    | (.ok n, pool', last') =>
        n = (pool.roster hs).unnumbered ∧ Numbered hs pool pool' last last'
    | (.error e, _, _) => e = .idsExhausted type ∧
        EntityId.last.toInt < last.toInt + (pool.roster hs).unnumbered := by
  induction hs generalizing pool last with
  | nil =>
    exact ⟨rfl, (Int.add_zero _).symm, fun _ h => absurd h List.not_mem_nil,
      fun _ h => absurd h List.not_mem_nil, .inl rfl, fun _ _ => List.nodup_nil⟩
  | cons h rest ih =>
    obtain ⟨hh, hrest⟩ := List.nodup_cons.mp hnodup
    cases hid : pool.id h with
    | some id =>
      have hcount := unnumbered_roster_cons_of_id rest hid
      have hframe := (assignIds_frame (advance type) rest pool last).kept h (.inl hh)
      have htail := ih hrest pool last
      rw [assignIds_cons_of_id hid, hcount]
      rcases hrun : assignIds (advance type) rest pool last with ⟨e | n, pool', last'⟩
      · rw [hrun] at htail
        exact htail
      · rw [hrun] at htail hframe
        refine ⟨htail.1, htail.2.cons_of_id hid ?_⟩
        rw [Pool.id, hframe]
        exact hid
    | none =>
      have hcount := unnumbered_roster_cons_of_none rest hid
      cases hnext : last.next? with
      | none =>
        rw [assignIds_cons_of_error hid (advance_of_none hnext), hcount]
        refine ⟨rfl, ?_⟩
        have hlast := EntityId.next?_eq_none.mp hnext
        omega
      | some id =>
        have hsucc := EntityId.toInt_of_next? hnext
        have hroster : (pool.edit h fun e => e.setId (some id)).roster rest = pool.roster rest :=
          roster_edit hh
        have hframe := (assignIds_frame (advance type) rest
          (pool.edit h fun e => e.setId (some id)) id).kept h (.inl hh)
        have htail := ih hrest (pool.edit h fun e => e.setId (some id)) id
        rw [assignIds_cons_of_next hid (advance_of_some hnext), hcount]
        rcases hrun : assignIds (advance type) rest (pool.edit h fun e => e.setId (some id)) id
          with ⟨e | n, pool', last'⟩
        · rw [hrun, hroster] at htail
          refine ⟨htail.1, ?_⟩
          have hfull := htail.2
          omega
        · rw [hrun, hroster] at htail
          rw [hrun, Pool.entity_edit_self] at hframe
          refine ⟨congrArg (· + 1) htail.1, htail.2.cons_of_next hid hnext ?_ hroster⟩
          rw [Pool.id, hframe]
          rfl

end Cache

end EntityStore
