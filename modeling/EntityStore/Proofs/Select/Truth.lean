import EntityStore.Proofs.Text.Integer
import EntityStore.Select.Meaning
import EntityStore.Select.OfSpec

/-!
# Truth of conditions

When a composite condition is true, and what is read under a label. Unknown is never true, and a
negation takes it for false, so being true follows the two-valued connectives everywhere but
below a comparison. The labels handed out to sub-selects are all different, and different from
the label of the queried table, so a row that has been labelled stays readable.
-/

namespace EntityStore

/-! ## Labels -/

/-- The columns read under a label are those of a row. -/
def RowEnv.Shows (env : RowEnv) (label : String) (row : Row) : Prop :=
  ∀ name, env.value ⟨label, name⟩ = row.value name

namespace RowEnv

theorem shows_cons_self (env : RowEnv) (label : String) (row : Row) :
    Shows ((label, row) :: env) label row := by
  intro name
  simp [value]

theorem value_cons_of_ne {env : RowEnv} {label other : String} {row : Row} (h : label ≠ other)
    (name : String) : value ((other, row) :: env) ⟨label, name⟩ = value env ⟨label, name⟩ := by
  have hne : (other == label) = false := by simpa using fun heq => h heq.symm
  simp [value, hne]

theorem Shows.cons {env : RowEnv} {label other : String} {row row' : Row}
    (h : env.Shows label row) (hne : label ≠ other) : Shows ((other, row') :: env) label row := by
  intro name
  rw [value_cons_of_ne hne]
  exact h name

end RowEnv

theorem subLabel_injective {m n : Nat} (h : subLabel m = subLabel n) : m = n := by
  unfold subLabel at h
  have htext : (toString m : String) = toString n := String.append_right_inj "s" |>.mp h
  exact Text.toString_injective htext

theorem subLabel_ne_rootLabel (n : Nat) : subLabel n ≠ rootLabel := by
  intro h
  have hlist := congrArg String.toList h
  simp [subLabel, rootLabel] at hlist

/-! ## Truth of composite conditions -/

theorem kleeneAnd_cons_eq_some_true {x : Option Bool} {rest : List (Option Bool)} :
    kleeneAnd (x :: rest) = some true ↔ x = some true ∧ kleeneAnd rest = some true := by
  rw [kleeneAnd.eq_def]
  dsimp only
  generalize kleeneAnd rest = y
  rcases x with _ | _ | _ <;> rcases y with _ | _ | _ <;> decide

theorem kleeneOr_cons_eq_some_true {x : Option Bool} {rest : List (Option Bool)} :
    kleeneOr (x :: rest) = some true ↔ x = some true ∨ kleeneOr rest = some true := by
  rw [kleeneOr.eq_def]
  dsimp only
  generalize kleeneOr rest = y
  rcases x with _ | _ | _ <;> rcases y with _ | _ | _ <;> decide

theorem kleeneAnd_eq_some_true {xs : List (Option Bool)} :
    kleeneAnd xs = some true ↔ ∀ x ∈ xs, x = some true := by
  induction xs with
  | nil => simp [kleeneAnd]
  | cons x rest ih => rw [kleeneAnd_cons_eq_some_true, ih, List.forall_mem_cons]

theorem kleeneOr_eq_some_true {xs : List (Option Bool)} :
    kleeneOr xs = some true ↔ ∃ x ∈ xs, x = some true := by
  induction xs with
  | nil => simp [kleeneOr]
  | cons x rest ih => simp [kleeneOr_cons_eq_some_true, ih, eq_comm]

namespace Condition

variable {tables : Tables} {env : RowEnv}

theorem truths_eq_map (cs : List Condition) : truths tables env cs = cs.map (truth tables env) := by
  induction cs with
  | nil => rfl
  | cons c rest ih => rw [truths, ih, List.map_cons]

theorem truth_and {cs : List Condition} :
    (Condition.and cs).truth tables env = some true ↔ ∀ c ∈ cs, c.truth tables env = some true := by
  rw [truth, truths_eq_map, kleeneAnd_eq_some_true, List.forall_mem_map]

theorem truth_or {cs : List Condition} :
    (Condition.or cs).truth tables env = some true ↔ ∃ c ∈ cs, c.truth tables env = some true := by
  rw [truth, truths_eq_map, kleeneOr_eq_some_true]
  simp

/-- Negation takes unknown for false. -/
theorem truth_not {c : Condition} :
    (Condition.not c).truth tables env = some true ↔ ¬ c.truth tables env = some true := by
  rw [truth]
  rcases c.truth tables env with _ | _ | _ <;> simp

theorem truth_columnsEqual {left right : Column} :
    (Condition.columnsEqual left right).truth tables env = some true
      ↔ (env.value left).agrees (env.value right) = true := by
  rw [truth, Value.agrees]
  cases (env.value left).compare? (env.value right) <;> simp

/-- A related row is one the tie holds for. -/
theorem truth_exists_tied {table label : String} {left right : Column} {inner : Condition} :
    (Condition.exists table label (.and [.columnsEqual left right, inner])).truth tables env
        = some true
      ↔ ∃ row ∈ tables table,
          (RowEnv.value ((label, row) :: env) left).agrees
              (RowEnv.value ((label, row) :: env) right) = true
            ∧ inner.truth tables ((label, row) :: env) = some true := by
  rw [truth, Option.some.injEq, List.any_eq_true]
  simp only [beq_iff_eq, truth_and, List.forall_mem_cons, truth_columnsEqual, List.not_mem_nil,
    false_imp_iff, implies_true, and_true]

end Condition

end EntityStore
