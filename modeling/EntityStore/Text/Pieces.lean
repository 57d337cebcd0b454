/-!
# Pieces of a text between separators

Paths are cut at dots, table names at slashes and files at line feeds, all in the same way: every
separator ends one piece and begins the next, so pieces may be empty.
-/

namespace EntityStore.Text

/-- The pieces of a text between separators. There is always one more than there are separators. -/
def pieces (separator : Char) : List Char → List (List Char)
  | [] => [[]]
  | c :: rest =>
    if c = separator then [] :: pieces separator rest
    else
      match pieces separator rest with
      | first :: others => (c :: first) :: others
      | [] => [[c]]

theorem pieces_ne_nil (separator : Char) (cs : List Char) : pieces separator cs ≠ [] := by
  cases cs with
  | nil => simp [pieces]
  | cons c rest =>
    rw [pieces]
    split
    · simp
    · split <;> simp

/-- A separator cuts: what stands before it and what stands after it are cut on their own. -/
theorem pieces_append (separator : Char) (a b : List Char) :
    pieces separator (a ++ separator :: b) = pieces separator a ++ pieces separator b := by
  induction a with
  | nil => simp [pieces]
  | cons c rest ih =>
    simp only [List.cons_append, pieces]
    split
    · rw [ih, List.cons_append]
    · rw [ih]
      cases h : pieces separator rest with
      | nil => exact absurd h (pieces_ne_nil separator rest)
      | cons first others => simp

/-- A text without separators is one piece. -/
theorem pieces_of_not_mem {separator : Char} {cs : List Char} (h : separator ∉ cs) :
    pieces separator cs = [cs] := by
  induction cs with
  | nil => rfl
  | cons c rest ih =>
    rw [List.mem_cons, not_or] at h
    rw [pieces, if_neg (Ne.symm h.1), ih h.2]

/-- The pieces of a text with their separators between them are the text. -/
theorem intercalate_pieces (separator : Char) (cs : List Char) :
    [separator].intercalate (pieces separator cs) = cs := by
  induction cs with
  | nil => rfl
  | cons c rest ih =>
    rw [pieces]
    split
    case isTrue hc =>
      rw [List.intercalate_cons_of_ne_nil (pieces_ne_nil _ _), ih, hc]
      rfl
    case isFalse =>
      cases hp : pieces separator rest with
      | nil => exact absurd hp (pieces_ne_nil _ _)
      | cons first others =>
        rw [hp] at ih
        dsimp only
        rw [List.intercalate_cons_cons_left, ih]

/-- Pieces that have no separators are found again. -/
theorem pieces_intercalate {separator : Char} {parts : List (List Char)} (hne : parts ≠ [])
    (h : ∀ p ∈ parts, separator ∉ p) : pieces separator ([separator].intercalate parts) = parts := by
  induction parts with
  | nil => exact absurd rfl hne
  | cons p parts ih =>
    have hp := pieces_of_not_mem (h p List.mem_cons_self)
    cases parts with
    | nil => rw [List.intercalate_singleton, hp]
    | cons p' parts =>
      rw [List.intercalate_cons_cons, List.append_assoc, List.singleton_append, pieces_append, hp,
        ih (by simp) fun p hp => h p (List.mem_cons_of_mem _ hp)]
      rfl

end EntityStore.Text
