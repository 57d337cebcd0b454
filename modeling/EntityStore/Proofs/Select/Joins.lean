import EntityStore.Order.Comparing
import EntityStore.Proofs.Select.Filters
import EntityStore.Select.Meaning

/-!
# Joined rows and followed relations

A sort key follows to-one relations from entity to entity; the query joins a row for every
relation path it needs. A join is made from the root or from a row that was joined before, and
the labels are numbered as the joins are made. So, by induction on how the joins came about, a
label stands for the row of the entity its path leads to, and for no row at all where the path
breaks off. Where it breaks off, every path that goes on from there does too, because a missing
row reads as null and null ties with no id.
-/

namespace EntityStore

/-! ## Following relations -/

namespace Pool

/-- The entity a to-one relation leads to. -/
def related? (pool : Pool) (name : String) (h : Handle) : Option Handle :=
  match (pool.entity h).field? name with
  | some (.one related) => related
  | _ => none

/-- The entity at the end of a to-one path. -/
def follow (pool : Pool) : List String → Handle → Option Handle
  | [], h => some h
  | name :: rest, h => (pool.related? name h).bind (pool.follow rest)

theorem follow_append (pool : Pool) (p q : List String) (h : Handle) :
    pool.follow (p ++ q) h = (pool.follow p h).bind (pool.follow q) := by
  induction p generalizing h with
  | nil => rfl
  | cons name rest ih =>
      rw [List.cons_append, follow, follow, Option.bind_assoc]
      congr 1
      funext r
      exact ih r

theorem follow_singleton (pool : Pool) (name : String) (h : Handle) :
    pool.follow [name] h = pool.related? name h := by
  rw [follow]
  cases pool.related? name h <;> rfl

/-- A sort key is read off the entity its path leads to. -/
theorem sortKey_append (pool : Pool) (path : List String) (name : String) (h : Handle) :
    pool.sortKey (path ++ [name]) h
      = match pool.follow path h with
        | some r => pool.sortKey [name] r
        | none => .null := by
  induction path generalizing h with
  | nil => rfl
  | cons first rest ih =>
      have hempty : (rest ++ [name]).isEmpty = false := by simp
      rw [List.cons_append, sortKey, follow, related?]
      cases (pool.entity h).field? first with
      | none => rfl
      | some field =>
          cases field with
          | value v => simp [hempty]
          | many related => rfl
          | one related =>
              cases related with
              | none => rfl
              | some r => simp [hempty, ih r]

end Pool

/-- A path of to-one relations from one registered type to another. -/
inductive LeadsTo (schema : Schema) (root : EntityType) : List String → EntityType → Prop
  | here : LeadsTo schema root [] root
  | step {path : List String} {t u : EntityType} {a : Attribute} {target : Option String}
      (earlier : LeadsTo schema root path t) (attr : t.attribute? a.name = some a)
      (one : a.kind = .toOne target) (next : schema.targetOf a = .ok u) :
      LeadsTo schema root (path ++ [a.name]) u

/-- Following a path ends among the entities of the type it leads to. -/
theorem LeadsTo.registered {schema : Schema} {root t : EntityType} {path : List String}
    (hp : LeadsTo schema root path t) (hroot : schema.Registered root) : schema.Registered t := by
  cases hp with
  | here => exact hroot
  | step _ _ _ next => exact Schema.registered_of_targetOf next

namespace Dataset.Image

variable {schema : Schema} {d : Dataset} {root t u : EntityType} {a : Attribute} {h r : Handle}

/-- What a to-one relation shows, and where it leads. -/
theorem related (hd : d.Image schema) (ht : schema.Registered t)
    (ha : t.attribute? a.name = some a) {target : Option String} (hkind : a.kind = .toOne target)
    (hu : schema.targetOf a = .ok u) (hh : h ∈ d.members t.name) :
    (d.row h).value a.column = d.idOf (d.pool.related? a.name h) ∧
      ∀ r, d.pool.related? a.name h = some r → r ∈ d.members u.name := by
  cases hd.shown t ht h hh a ha with
  | terminal _ _ declared => rw [hkind] at declared; cases declared
  | toOne _ related declared field present cell =>
      rw [Pool.related?, field]
      exact ⟨cell, fun r hr => present r hr u hu⟩
  | toMany _ _ _ declared => rw [hkind] at declared; cases declared

theorem follow_mem (hd : d.Image schema) (hroot : schema.Registered root) {path : List String}
    (hp : LeadsTo schema root path t) (hh : h ∈ d.members root.name)
    (hr : d.pool.follow path h = some r) : r ∈ d.members t.name := by
  induction hp generalizing r with
  | here => exact Option.some.inj hr ▸ hh
  | @step path t u a target earlier attr one next ih =>
      rw [Pool.follow_append, Option.bind_eq_some_iff] at hr
      obtain ⟨s, hs, hr⟩ := hr
      rw [Pool.follow_singleton] at hr
      exact (hd.related (earlier.registered hroot) attr one next (ih hs)).2 r hr

end Dataset.Image

/-! ## How joins come about -/

/-- The label of the join with number `n`. -/
def joinLabel (n : Nat) : String := "j" ++ toString n

theorem joinLabel_injective {m n : Nat} (h : joinLabel m = joinLabel n) : m = n := by
  unfold joinLabel at h
  exact Text.toString_injective ((String.append_right_inj "j").mp h)

theorem joinLabel_ne_rootLabel (n : Nat) : joinLabel n ≠ rootLabel := by
  intro h
  have hlist := congrArg String.toList h
  simp [joinLabel, rootLabel] at hlist

/-- A label is given to the rows a path leads to. -/
def Reached (joins : PathJoins) (path : List String) (label : String) : Prop :=
  (path = [] ∧ label = rootLabel) ∨ ∃ j, (path, j) ∈ joins ∧ j.label = label

theorem Reached.append {joins more : PathJoins} {path : List String} {label : String}
    (h : Reached joins path label) : Reached (joins ++ more) path label := by
  rcases h with hroot | ⟨j, hj, hlabel⟩
  · exact .inl hroot
  · exact .inr ⟨j, List.mem_append_left _ hj, hlabel⟩

/-- With one join more, a label is given to what it was given to, or it is that of the new join. -/
theorem Reached.of_concat {joins : PathJoins} {path last : List String} {label : String} {j : Join}
    (h : Reached (joins ++ [(last, j)]) path label) :
    Reached joins path label ∨ path = last ∧ label = j.label := by
  rcases h with hroot | ⟨i, hi, rfl⟩
  · exact .inl (.inl hroot)
  · rcases List.mem_append.mp hi with hi | hi
    · exact .inl (.inr ⟨i, hi, rfl⟩)
    · obtain ⟨rfl, rfl⟩ := Prod.mk.inj (List.mem_singleton.mp hi)
      exact .inr ⟨rfl, rfl⟩

/-- The join that goes on from a row over a to-one relation. -/
def joinOver (a : Attribute) (u : EntityType) (owner label : String) : Join :=
  ⟨u.table, label, .columnsEqual ⟨label, u.idColumn⟩ ⟨owner, a.column⟩⟩

/-- Joins as they are made for sort keys: each goes on from the root or from an earlier one. -/
inductive Joined (schema : Schema) (root : EntityType) : PathJoins → Prop
  | none : Joined schema root []
  | join {joins : PathJoins} {path : List String} {owner : String} {t u : EntityType}
      {a : Attribute} {target : Option String} (earlier : Joined schema root joins)
      (leads : LeadsTo schema root path t) (reached : Reached joins path owner)
      (attr : t.attribute? a.name = some a) (one : a.kind = .toOne target)
      (next : schema.targetOf a = .ok u) :
      Joined schema root
        (joins ++ [(path ++ [a.name], joinOver a u owner (joinLabel (joins.length + 1)))])

/-- Labels in use are numbered up to the number of joins. -/
theorem Joined.label_of_reached {schema : Schema} {root : EntityType} {joins : PathJoins}
    (hj : Joined schema root joins) {path : List String} {label : String}
    (hr : Reached joins path label) : label = rootLabel ∨ ∃ n ≤ joins.length, label = joinLabel n := by
  induction hj generalizing path label with
  | none =>
      rcases hr with hroot | ⟨j, hj, _⟩
      · exact .inl hroot.2
      · cases hj
  | @join joins _ _ _ _ _ _ _ _ _ _ _ _ ih =>
      rw [List.length_append, List.length_singleton]
      rcases hr.of_concat with hr | ⟨-, hlabel⟩
      · rcases ih hr with hroot | ⟨n, hn, hl⟩
        · exact .inl hroot
        · exact .inr ⟨n, Nat.le_succ_of_le hn, hl⟩
      · exact .inr ⟨joins.length + 1, Nat.le_refl _, hlabel⟩

theorem Joined.ne_joinLabel {schema : Schema} {root : EntityType} {joins : PathJoins}
    (hj : Joined schema root joins) {path : List String} {label : String}
    (hr : Reached joins path label) {n : Nat} (hn : joins.length < n) : label ≠ joinLabel n := by
  rcases hj.label_of_reached hr with hroot | ⟨m, hm, hl⟩
  · rw [hroot]
    exact (joinLabel_ne_rootLabel n).symm
  · rw [hl]
    intro heq
    have := joinLabel_injective heq
    omega

/-! ## What joined rows show -/

/-- A label stands for an entity's row, or for no row. -/
def Dataset.Stands (d : Dataset) (env : RowEnv) (label : String) : Option Handle → Prop
  | some r => env.Shows label (d.row r)
  | none => ∀ name, env.value ⟨label, name⟩ = .null

theorem Dataset.Stands.cons {d : Dataset} {env : RowEnv} {label other : String} {row : Row}
    {r : Option Handle} (h : d.Stands env label r) (hne : label ≠ other) :
    d.Stands ((other, row) :: env) label r := by
  cases r with
  | none =>
      intro name
      rw [RowEnv.value_cons_of_ne hne]
      exact h name
  | some r => exact RowEnv.Shows.cons h hne

namespace Select

/-- One join: the first row that satisfies its condition, if there is one. -/
def joinRow (tables : Tables) (env : RowEnv) (j : Join) : RowEnv :=
  match (tables j.table).find? fun row => j.on.isTrue tables ((j.label, row) :: env) with
  | some row => (j.label, row) :: env
  | none => env

theorem withJoins_append_singleton (tables : Tables) (env : RowEnv) (joins : List Join) (j : Join) :
    withJoins tables env (joins ++ [j]) = joinRow tables (withJoins tables env joins) j := by
  induction joins generalizing env with
  | nil =>
      rw [List.nil_append, withJoins, joinRow, withJoins]
      cases (tables j.table).find? fun row => j.on.isTrue tables ((j.label, row) :: env) with
      | none => rfl
      | some row => rfl
  | cons first rest ih =>
      rw [List.cons_append, withJoins, withJoins]
      split
      · exact ih _
      · exact ih _

variable {schema : Schema} {d : Dataset} {root u : EntityType} {a : Attribute}
  {owner label : String} {env : RowEnv}

/-- A join finds the row of the related entity, and nothing where there is none. -/
theorem joinRow_stands (hd : d.Image schema) (hu : schema.Registered u) {related : Option Handle}
    (hmem : ∀ r, related = some r → r ∈ d.members u.name) (hne : owner ≠ label)
    (hcell : env.value ⟨owner, a.column⟩ = d.idOf related)
    (hfresh : ∀ name, env.value ⟨label, name⟩ = .null) :
    d.Stands (joinRow d.tables env (joinOver a u owner label)) label related := by
  -- ids are unique, so only the row of the related entity is tied
  have htied : ∀ r ∈ d.members u.name,
      ((joinOver a u owner label).on.isTrue d.tables ((label, d.row r) :: env) = true
        ↔ related = some r) := by
    intro r hr
    rw [Condition.isTrue, beq_iff_eq, joinOver, Condition.truth_columnsEqual,
      RowEnv.shows_cons_self env label (d.row r), hd.idCell u hu r hr,
      RowEnv.value_cons_of_ne hne, hcell]
    cases related with
    | none => simp [Dataset.idOf, Value.agrees]
    | some s =>
        rw [Dataset.idOf, hd.agrees_iff_eq hu hr (hmem s rfl), Option.some.injEq]
        exact eq_comm
  rw [joinRow]
  have htable : d.tables (joinOver a u owner label).table = (d.members u.name).map d.row := hd.rows u hu
  rw [htable]
  split
  case h_1 row hfind =>
    obtain ⟨r, hr, rfl⟩ := List.mem_map.mp (List.mem_of_find?_eq_some hfind)
    have hon := List.find?_some hfind
    rw [(htied r hr).mp hon]
    exact RowEnv.shows_cons_self _ _ _
  case h_2 hfind =>
    cases related with
    | none => exact hfresh
    | some r =>
        have hr := hmem r rfl
        have hfalse := List.find?_eq_none.mp hfind (d.row r) (List.mem_map_of_mem hr)
        exact absurd ((htied r hr).mpr rfl) hfalse

/-- A join leaves other labels standing for what they stood for. -/
theorem stands_joinRow_of_ne (tables : Tables) {j : Join} (hne : label ≠ j.label) {r : Option Handle}
    (h : d.Stands env label r) : d.Stands (joinRow tables env j) label r := by
  rw [joinRow]
  split
  · exact h.cons hne
  · exact h

/-- Where the owner of a join stands for an entity, the label of the join stands for what the
relation leads to from there. -/
theorem stands_joinOver (hd : d.Image schema) {t : EntityType} (ht : schema.Registered t)
    {target : Option String} (attr : t.attribute? a.name = some a) (one : a.kind = .toOne target)
    (next : schema.targetOf a = .ok u) (hne : owner ≠ label) {h? : Option Handle}
    (hmem : ∀ h, h? = some h → h ∈ d.members t.name) (howner : d.Stands env owner h?)
    (hfresh : d.Stands env label none) :
    d.Stands (joinRow d.tables env (joinOver a u owner label)) label
      (h?.bind (d.pool.follow [a.name])) := by
  have hrel := fun h hh => hd.related ht attr one next (hmem h hh)
  refine joinRow_stands hd (Schema.registered_of_targetOf next) ?_ hne ?_ hfresh
  · intro r hr
    obtain ⟨h, hh, hr⟩ := Option.bind_eq_some_iff.mp hr
    rw [Pool.follow_singleton] at hr
    exact (hrel h hh).2 r hr
  · cases h? with
    | none => exact howner _
    | some h => rw [howner, (hrel h rfl).1, Option.bind_some, Pool.follow_singleton]

/-- **Every label stands for the entity its path leads to.** By induction on how the joins came
about; that labels to come still read as null is carried along. -/
theorem stands_withJoins (hd : d.Image schema) (hroot : schema.Registered root) {joins : PathJoins}
    (hj : Joined schema root joins) {h : Handle} (hh : h ∈ d.members root.name) :
    (∀ path label, Reached joins path label →
        d.Stands (withJoins d.tables [(rootLabel, d.row h)] (joins.map (·.2))) label
          (d.pool.follow path h)) ∧
      ∀ n, joins.length < n →
        d.Stands (withJoins d.tables [(rootLabel, d.row h)] (joins.map (·.2))) (joinLabel n) none := by
  induction hj with
  | none =>
      constructor
      · intro path label hr
        rcases hr with ⟨rfl, rfl⟩ | ⟨j, hj, _⟩
        · exact RowEnv.shows_cons_self _ _ _
        · cases hj
      · intro n _ name
        rw [List.map_nil, withJoins, RowEnv.value_cons_of_ne (joinLabel_ne_rootLabel n)]
        rfl
  | @join joins path owner t u a target earlier leads reached attr one next ih =>
      obtain ⟨hstands, hnull⟩ := ih
      rw [List.map_append, List.map_singleton, withJoins_append_singleton]
      constructor
      · intro path' label hr
        rcases hr.of_concat with hr | ⟨rfl, rfl⟩
        · exact stands_joinRow_of_ne _ (earlier.ne_joinLabel hr (Nat.lt_succ_self _)) (hstands _ _ hr)
        · -- the owner of the new join stands for the entity one step before
          rw [Pool.follow_append]
          exact stands_joinOver hd (leads.registered hroot) attr one next
            (earlier.ne_joinLabel reached (Nat.lt_succ_self _))
            (fun s hs => hd.follow_mem hroot leads hh hs) (hstands path owner reached)
            (hnull _ (Nat.lt_succ_self _))
      · intro n hn
        have hlt : joins.length + 1 < n := by simpa using hn
        refine stands_joinRow_of_ne _ (fun heq => ?_) (hnull n (by omega))
        have hn := joinLabel_injective heq
        omega

end Select

end EntityStore
