import EntityStore.Proofs.Select.Routes
import EntityStore.Select.Text

/-!
# Where literals go in a statement

A statement is a frame of text with gaps, one for each literal of the query. In the statement the
gaps are filled with numbered places, and the literals are its parameters. What is written where a
literal belongs is made plain by spelling a query out: the same text with every literal written in
its own way where the query has it. The frame is the same for all ways of writing literals, and for
all literals: it depends on the query without them.
-/

namespace EntityStore

/-! ## Frames -/

/-- Texts, with other texts in the gaps between them. -/
def weave : List String → List String → String
  | [], _ => ""
  | text :: _, [] => text
  | text :: rest, fill :: fills => text ++ fill ++ weave rest fills

/-- The place of a parameter. -/
def placeholder (n : Nat) : String := "$" ++ toString n

theorem weave_modifyHead {texts : List String} (h : texts ≠ []) (s : String) (fills : List String) :
    weave (texts.modifyHead (s ++ ·)) fills = s ++ weave texts fills := by
  obtain ⟨text, rest, rfl⟩ := List.exists_cons_of_ne_nil h
  cases fills with
  | nil => rfl
  | cons fill fills => rw [List.modifyHead_cons, weave, weave, String.append_assoc,
      String.append_assoc, String.append_assoc]

namespace Piece

/-- A piece without its literal. -/
def blank : Piece → Piece
  | .text s => .text s
  | .slot _ => .slot .null

@[simp] theorem blank_text (s : String) : (Piece.text s).blank = .text s := rfl

@[simp] theorem blank_slot (v : Value) : (Piece.slot v).blank = .slot .null := rfl

end Piece

namespace Statement

/-- The texts before, between and after the slots. -/
def frame : List Piece → List String
  | [] => [""]
  | .text s :: rest => (frame rest).modifyHead (s ++ ·)
  | .slot _ :: rest => "" :: frame rest

/-- The text of pieces with the literals written in place. -/
def spelled (lit : Value → String) : List Piece → String
  | [] => ""
  | .text s :: rest => s ++ spelled lit rest
  | .slot v :: rest => lit v ++ spelled lit rest

variable {lit : Value → String}

@[simp] theorem slotValues_nil : slotValues [] = [] := rfl

@[simp] theorem slotValues_text (s : String) (rest : List Piece) :
    slotValues (.text s :: rest) = slotValues rest := rfl

@[simp] theorem slotValues_slot (v : Value) (rest : List Piece) :
    slotValues (.slot v :: rest) = v :: slotValues rest := rfl

@[simp] theorem slotValues_append (ps qs : List Piece) :
    slotValues (ps ++ qs) = slotValues ps ++ slotValues qs := List.filterMap_append

@[simp] theorem spelled_nil : spelled lit [] = "" := rfl

@[simp] theorem spelled_text (s : String) (rest : List Piece) :
    spelled lit (.text s :: rest) = s ++ spelled lit rest := rfl

@[simp] theorem spelled_slot (v : Value) (rest : List Piece) :
    spelled lit (.slot v :: rest) = lit v ++ spelled lit rest := rfl

@[simp] theorem spelled_append (ps qs : List Piece) :
    spelled lit (ps ++ qs) = spelled lit ps ++ spelled lit qs := by
  induction ps with
  | nil => rw [List.nil_append, spelled, String.empty_append]
  | cons p rest ih => cases p <;> rw [List.cons_append, spelled, ih, spelled, String.append_assoc]

/-! ### Pieces with a text between them -/

theorem slotValues_intercalate (s : String) (pss : List (List Piece)) :
    slotValues ([.text s].intercalate pss) = (pss.map slotValues).flatten := by
  induction pss with
  | nil => rfl
  | cons ps rest ih =>
    cases rest with
    | nil => simp
    | cons qs rest =>
      rw [List.intercalate_cons_cons, slotValues_append, slotValues_append, ih, slotValues_text,
        slotValues_nil, List.append_nil]
      exact List.flatten_cons.symm

theorem spelled_intercalate (s : String) (pss : List (List Piece)) :
    spelled lit ([.text s].intercalate pss) = s.intercalate (pss.map (spelled lit)) := by
  induction pss with
  | nil => rfl
  | cons ps rest ih =>
    cases rest with
    | nil => simp
    | cons qs rest =>
      rw [List.intercalate_cons_cons, spelled_append, spelled_append, ih, spelled_text, spelled_nil,
        String.append_empty]
      exact String.intercalate_cons_cons.symm

theorem blank_intercalate (s : String) (pss : List (List Piece)) :
    ([.text s].intercalate pss).map Piece.blank
      = [.text s].intercalate (pss.map fun ps => ps.map Piece.blank) := by
  induction pss with
  | nil => rfl
  | cons ps rest ih =>
    cases rest with
    | nil => simp
    | cons qs rest =>
      rw [List.intercalate_cons_cons, List.map_append, List.map_append, ih]
      exact List.intercalate_cons_cons.symm

/-! ### The text of a frame -/

theorem length_frame (ps : List Piece) : (frame ps).length = (slotValues ps).length + 1 := by
  induction ps with
  | nil => rfl
  | cons p rest ih =>
    cases p with
    | text s => rw [frame, List.length_modifyHead, ih, slotValues_text]
    | slot v => rw [frame, List.length_cons, ih, slotValues_slot, List.length_cons]

theorem frame_ne_nil (ps : List Piece) : frame ps ≠ [] :=
  List.length_pos_iff.mp (by rw [length_frame]; exact Nat.succ_pos _)

/-- The literals in slots have no part in the frame. -/
theorem frame_map_blank (ps : List Piece) : frame (ps.map Piece.blank) = frame ps := by
  induction ps with
  | nil => rfl
  | cons p rest ih => cases p <;> rw [List.map_cons, Piece.blank, frame, frame, ih]

/-- The slots are numbered in the order of their places. -/
theorem numbered_eq_weave (n : Nat) (ps : List Piece) :
    numbered n ps
      = weave (frame ps) ((List.range' (n + 1) (slotValues ps).length).map placeholder) := by
  induction ps generalizing n with
  | nil => rfl
  | cons p rest ih =>
    cases p with
    | text s => rw [numbered, frame, weave_modifyHead (frame_ne_nil rest), ih, slotValues_text]
    | slot v =>
      rw [numbered, frame, slotValues_slot, List.length_cons, List.range'_succ, List.map_cons,
        weave, ih, String.empty_append, placeholder]

theorem numbered_append (n : Nat) (ps qs : List Piece) :
    numbered n (ps ++ qs) = numbered n ps ++ numbered (n + (slotValues ps).length) qs := by
  induction ps generalizing n with
  | nil => exact String.empty_append.symm
  | cons p rest ih =>
    cases p with
    | text s => rw [List.cons_append, numbered, ih, numbered, slotValues_text, String.append_assoc]
    | slot v =>
      rw [List.cons_append, numbered, ih, numbered, slotValues_slot, List.length_cons,
        Nat.add_right_comm, Nat.add_assoc]
      exact String.append_assoc.symm

theorem spelled_eq_weave (ps : List Piece) :
    spelled lit ps = weave (frame ps) ((slotValues ps).map lit) := by
  induction ps with
  | nil => rfl
  | cons p rest ih =>
    cases p with
    | text s => rw [spelled, frame, weave_modifyHead (frame_ne_nil rest), ih, slotValues_text]
    | slot v => rw [spelled, frame, slotValues_slot, List.map_cons, weave, ih, String.empty_append]

/-- The parameters of a statement are the literals that `spell` writes, and each is written in the
text as the number of its parameter. -/
structure Parametrizes (s : Statement) (literals : List Value) (spell : (Value → String) → String) :
    Prop where
  params : s.params = literals
  places : ∃ texts : List String, texts.length = literals.length + 1 ∧
    s.sql = weave texts ((List.range' 1 literals.length).map placeholder) ∧
    ∀ lit, spell lit = weave texts (literals.map lit)

theorem parametrizes_ofPieces {ps : List Piece} {literals : List Value}
    {spell : (Value → String) → String} (hliterals : slotValues ps = literals)
    (hspell : ∀ lit, spelled lit ps = spell lit) : (ofPieces ps).Parametrizes literals spell := by
  subst hliterals
  refine ⟨rfl, frame ps, length_frame ps, numbered_eq_weave 0 ps, fun lit => ?_⟩
  rw [← hspell, spelled_eq_weave]

/-- Pieces that differ in literals only make the same text. -/
theorem sql_congr {ps qs : List Piece} (h : ps.map Piece.blank = qs.map Piece.blank) :
    (ofPieces ps).sql = (ofPieces qs).sql := by
  have hframe : frame ps = frame qs := by rw [← frame_map_blank ps, h, frame_map_blank]
  have hlength : (slotValues ps).length = (slotValues qs).length := by
    have := congrArg List.length hframe
    rwa [length_frame, length_frame, Nat.add_right_cancel_iff] at this
  rw [ofPieces, ofPieces, numbered_eq_weave, numbered_eq_weave, hframe, hlength]

end Statement

/-! ## Conditions -/

namespace Condition

mutual

/-- The literals of a condition, from left to right. A pattern counts as the text it is. -/
def literals : Condition → List Value
  | .compare _ _ value => [value]
  | .like _ pattern _ => [.string pattern]
  | .oneOf _ values _ => values
  | .between _ low high => [low, high]
  | .and children => literalsOfList children
  | .or children => literalsOfList children
  | .not child => literals child
  | .exists _ _ child => literals child
  | .bool _ | .columnsEqual _ _ | .isNull _ _ => []

@[inherit_doc literals]
def literalsOfList : List Condition → List Value
  | [] => []
  | c :: rest => literals c ++ literalsOfList rest

end

mutual

/-- A condition without its literals: all are the same, and lists keep their lengths. -/
def skeleton : Condition → Condition
  | .compare column op _ => .compare column op .null
  | .like column _ negated => .like column "" negated
  | .oneOf column values negated => .oneOf column (values.map fun _ => .null) negated
  | .between column _ _ => .between column .null .null
  | .and children => .and (skeletons children)
  | .or children => .or (skeletons children)
  | .not child => .not (skeleton child)
  | .exists table label child => .exists table label (skeleton child)
  | .bool b => .bool b
  | .columnsEqual left right => .columnsEqual left right
  | .isNull column negated => .isNull column negated

@[inherit_doc skeleton]
def skeletons : List Condition → List Condition
  | [] => []
  | c :: rest => skeleton c :: skeletons rest

end

/-- The text of an atom with its literals written in place. -/
def spellAtom (lit : Value → String) : Condition → String
  | .bool b => if b then "TRUE" else "FALSE"
  | .compare column op value => column.text ++ " " ++ op.symbol ++ " " ++ lit value
  | .columnsEqual left right => left.text ++ " = " ++ right.text
  | .isNull column negated => column.text ++ (if negated then " IS NOT NULL" else " IS NULL")
  | .like column pattern negated =>
    column.text ++ (if negated then " NOT LIKE " else " LIKE ") ++ lit (.string pattern) ++
      " ESCAPE '\\'"
  | .oneOf column values negated =>
    column.text ++ (if negated then " NOT IN (" else " IN (") ++
      ", ".intercalate (values.map lit) ++ ")"
  | .between column low high => column.text ++ " BETWEEN " ++ lit low ++ " AND " ++ lit high
  | _ => ""

/-- Texts in parentheses with a connective between them, or a constant when there are none. -/
def spellGroup (connective constant : String) (texts : List String) : String :=
  if texts.isEmpty then constant else "(" ++ connective.intercalate texts ++ ")"

mutual

/-- The text of a condition with its literals written in place. -/
def spell (lit : Value → String) : Condition → String
  | .and children => spellGroup " AND " "TRUE" (spells lit children)
  | .or children => spellGroup " OR " "FALSE" (spells lit children)
  | .not child => "NOT COALESCE(" ++ spell lit child ++ ", FALSE)"
  | .exists table label child =>
    "EXISTS (SELECT 1 FROM " ++ quoteIdentifier table ++ " AS " ++ label ++ " WHERE " ++
      spell lit child ++ ")"
  | atom => spellAtom lit atom

@[inherit_doc spell]
def spells (lit : Value → String) : List Condition → List String
  | [] => []
  | c :: rest => spell lit c :: spells lit rest

end

variable {lit : Value → String} {cs : List Condition}

theorem literalsOfList_eq (cs : List Condition) :
    literalsOfList cs = (cs.map literals).flatten := by
  induction cs with
  | nil => rfl
  | cons c rest ih => rw [literalsOfList, ih, List.map_cons, List.flatten_cons]

theorem skeletons_eq (cs : List Condition) : skeletons cs = cs.map skeleton := by
  induction cs with
  | nil => rfl
  | cons c rest ih => rw [skeletons, ih, List.map_cons]

theorem spells_eq (cs : List Condition) : spells lit cs = cs.map (spell lit) := by
  induction cs with
  | nil => rfl
  | cons c rest ih => rw [spells, ih, List.map_cons]

/-- What the pieces of a condition are, with slots for the literals. -/
structure Laid (c : Condition) : Prop where
  literals : Statement.slotValues c.pieces = c.literals
  spell : ∀ lit, Statement.spelled lit c.pieces = c.spell lit
  skeleton : c.skeleton.pieces.map Piece.blank = c.pieces.map Piece.blank

/-! ### Lists and groups -/

theorem slotList_eq (values : List Value) :
    slotList values = [.text ", "].intercalate (values.map fun v => [.slot v]) := by
  induction values with
  | nil => rfl
  | cons v rest ih =>
    cases rest with
    | nil => simp [slotList]
    | cons w rest =>
      refine Eq.trans ?_ List.intercalate_cons_cons.symm
      exact congrArg (fun ps => [.slot v] ++ [.text ", "] ++ ps) ih

theorem groupRest_eq (connective : String) (c : Condition) (cs : List Condition) :
    c.pieces ++ groupRest connective cs
      = [.text connective].intercalate ((c :: cs).map pieces) ++ [.text ")"] := by
  induction cs generalizing c with
  | nil => rw [groupRest, List.map_singleton, List.intercalate_singleton]
  | cons next rest ih =>
    have hcons : [.text connective].intercalate ((c :: next :: rest).map pieces)
        = c.pieces ++ [.text connective] ++
          [.text connective].intercalate ((next :: rest).map pieces) :=
      List.intercalate_cons_cons
    rw [groupRest, List.cons_append, ih, hcons, List.append_assoc, List.append_assoc]
    rfl

theorem group_eq (connective constant : String) (cs : List Condition) :
    group connective constant cs
      = if cs.isEmpty then [.text constant]
        else .text "(" :: ([.text connective].intercalate (cs.map pieces) ++ [.text ")"]) := by
  cases cs with
  | nil => rfl
  | cons c rest => rw [group, List.cons_append, groupRest_eq]; rfl

/-- What is laid out one by one is laid out in a group. -/
theorem laid_group (h : ∀ c ∈ cs, c.Laid) (connective constant : String) :
    Statement.slotValues (group connective constant cs) = literalsOfList cs ∧
      (∀ lit, Statement.spelled lit (group connective constant cs)
        = spellGroup connective constant (spells lit cs)) ∧
      (group connective constant (skeletons cs)).map Piece.blank
        = (group connective constant cs).map Piece.blank := by
  have hliterals : cs.map (Statement.slotValues ∘ pieces) = cs.map literals :=
    List.map_congr_left fun c hc => (h c hc).literals
  have hspell : ∀ lit, cs.map (Statement.spelled lit ∘ pieces) = cs.map (spell lit) :=
    fun lit => List.map_congr_left fun c hc => (h c hc).spell lit
  have hblank : cs.map (fun c => c.skeleton.pieces.map Piece.blank)
      = cs.map (fun c => c.pieces.map Piece.blank) :=
    List.map_congr_left fun c hc => (h c hc).skeleton
  rw [skeletons_eq, group_eq, group_eq, literalsOfList_eq]
  cases hempty : cs.isEmpty with
  | true =>
    rw [List.isEmpty_iff.mp hempty]
    exact ⟨rfl, fun lit => String.append_empty, rfl⟩
  | false =>
    rw [List.isEmpty_map, hempty]
    refine ⟨?_, fun lit => ?_, ?_⟩
    · simp [Statement.slotValues_intercalate, hliterals]
    · simp [Statement.spelled_intercalate, spells_eq, spellGroup, hempty, hspell lit,
        String.append_assoc]
    · simp [Statement.blank_intercalate, Function.comp_def, hblank]

theorem spell_of_isAtom {c : Condition} (hc : c.isAtom = true) : c.spell lit = c.spellAtom lit := by
  cases c <;> first | rfl | cases hc

theorem spell_not (child : Condition) :
    (not child).spell lit = "NOT COALESCE(" ++ child.spell lit ++ ", FALSE)" := rfl

theorem spell_exists (table label : String) (child : Condition) :
    (Condition.exists table label child).spell lit
      = "EXISTS (SELECT 1 FROM " ++ quoteIdentifier table ++ " AS " ++ label ++ " WHERE " ++
        child.spell lit ++ ")" := rfl

theorem laid_oneOf (column : Column) (values : List Value) (negated : Bool) :
    (oneOf column values negated).Laid := by
  have hslots : (values.map fun v => Statement.slotValues [.slot v]).flatten = values :=
    List.flatMap_singleton' values
  have hspell : ∀ lit : Value → String,
      (values.map fun v => Statement.spelled lit [.slot v]) = values.map lit :=
    fun lit => List.map_congr_left fun v _ => String.append_empty
  have hatom : ∀ lit, (oneOf column values negated).spell lit
      = (oneOf column values negated).spellAtom lit := fun lit => spell_of_isAtom rfl
  refine ⟨?_, fun lit => ?_, ?_⟩
  · rw [pieces, slotList_eq]
    simp only [List.cons_append, Statement.slotValues_text, Statement.slotValues_append,
      Statement.slotValues_intercalate, List.map_map, Function.comp_def, hslots, literals,
      Statement.slotValues_nil, List.append_nil]
  · rw [pieces, slotList_eq]
    simp only [List.cons_append, Statement.spelled_text, Statement.spelled_append,
      Statement.spelled_intercalate, List.map_map, Function.comp_def, hspell, hatom, spellAtom,
      Statement.spelled_nil, String.append_empty, String.append_assoc]
  · rw [skeleton, pieces, pieces, slotList_eq, slotList_eq]
    simp only [List.map_append, List.map_cons, Statement.blank_intercalate, List.map_map,
      Function.comp_def, Piece.blank_slot, List.map_nil]

/-- **The pieces of a condition have slots for its literals, and text for the rest.** -/
theorem laid (c : Condition) : c.Laid := by
  induction c using ind with
  | atom c hc =>
    cases c with
    | oneOf column values negated => exact laid_oneOf column values negated
    | and _ | or _ | not _ | «exists» _ _ _ => cases hc
    | _ =>
      refine ⟨?_, fun lit => ?_, ?_⟩
      · simp only [pieces, literals, Statement.slotValues_text, Statement.slotValues_slot,
          Statement.slotValues_nil]
      · simp only [spell_of_isAtom hc, pieces, spellAtom, Statement.spelled_text,
          Statement.spelled_slot, Statement.spelled_nil, String.append_empty, String.append_assoc]
      · simp only [pieces, skeleton, List.map_cons, Piece.blank_text, Piece.blank_slot,
          List.map_nil]
  | and children ih =>
    obtain ⟨hliterals, hspell, hskeleton⟩ := laid_group ih " AND " "TRUE"
    exact ⟨hliterals, hspell, hskeleton⟩
  | or children ih =>
    obtain ⟨hliterals, hspell, hskeleton⟩ := laid_group ih " OR " "FALSE"
    exact ⟨hliterals, hspell, hskeleton⟩
  | not child ih =>
    refine ⟨?_, fun lit => ?_, ?_⟩
    · simp [pieces, ih.literals, literals]
    · simp [pieces, ih.spell lit, spell_not, String.append_assoc]
    · simp [pieces, skeleton, ih.skeleton]
  | exist table label child ih =>
    refine ⟨?_, fun lit => ?_, ?_⟩
    · simp [pieces, ih.literals, literals]
    · simp [pieces, ih.spell lit, spell_exists, String.append_assoc]
    · simp [pieces, skeleton, ih.skeleton]

end Condition

/-! ## Statements -/

/-- The text of a join with the literals of its condition written in place. -/
def Join.spell (lit : Value → String) (j : Join) : String :=
  " LEFT JOIN " ++ quoteIdentifier j.table ++ " AS " ++ j.label ++ " ON " ++ j.on.spell lit

namespace Select

def filterLiterals (q : Select) : List Value := (q.filter.map Condition.literals).getD []

/-- The literals of a query, from left to right. -/
def literals (q : Select) : List Value := q.joins.flatMap (·.on.literals) ++ q.filterLiterals

/-- A query without its literals. -/
def skeleton (q : Select) : Select :=
  { q with
    joins := q.joins.map fun j => { j with on := j.on.skeleton }
    filter := q.filter.map Condition.skeleton }

def spellFilter (q : Select) (lit : Value → String) : String :=
  match q.filter with
  | some c => " WHERE " ++ c.spell lit
  | none => ""

/-- The text of the query with its literals written in place. -/
def spell (q : Select) (lit : Value → String) : String :=
  "SELECT " ++ q.label ++ ".*" ++ q.source ++ String.join (q.joins.map (Join.spell lit)) ++
    q.spellFilter lit ++ (q.orderText ++ q.windowText)

/-- The text of the count with the literals of the filter written in place. -/
def spellCount (q : Select) (lit : Value → String) : String :=
  "SELECT COUNT(*)" ++ q.source ++ q.spellFilter lit

/-- The text of the joins, and that of the filter where no parameter comes before it. -/
def joinsText (q : Select) : String := Statement.numbered 0 (q.joins.flatMap joinPieces)

@[inherit_doc joinsText]
def whereText (q : Select) : String := Statement.numbered 0 q.filterPieces

variable {q : Select} {lit : Value → String}

/-! ### Joins -/

theorem slotValues_joins (joins : List Join) :
    Statement.slotValues (joins.flatMap joinPieces) = joins.flatMap (·.on.literals) := by
  induction joins with
  | nil => rfl
  | cons j rest ih =>
    rw [List.flatMap_cons, List.flatMap_cons, Statement.slotValues_append, ih, joinPieces,
      Statement.slotValues_text, (Condition.laid j.on).literals]

theorem spelled_joins (joins : List Join) :
    Statement.spelled lit (joins.flatMap joinPieces)
      = String.join (joins.map (Join.spell lit)) := by
  induction joins with
  | nil => rfl
  | cons j rest ih =>
    rw [List.flatMap_cons, List.map_cons, String.join_cons, Statement.spelled_append, ih, joinPieces,
      Statement.spelled_text, (Condition.laid j.on).spell lit]
    rfl

theorem blank_joins (joins : List Join) :
    ((joins.map fun j => { j with on := j.on.skeleton }).flatMap joinPieces).map Piece.blank
      = (joins.flatMap joinPieces).map Piece.blank := by
  induction joins with
  | nil => rfl
  | cons j rest ih =>
    rw [List.map_cons, List.flatMap_cons, List.flatMap_cons, List.map_append, List.map_append, ih,
      joinPieces, joinPieces, List.map_cons, List.map_cons, (Condition.laid j.on).skeleton]

/-! ### Filters -/

theorem slotValues_filterPieces (q : Select) :
    Statement.slotValues q.filterPieces = q.filterLiterals := by
  rw [filterPieces, filterLiterals]
  cases q.filter with
  | none => rfl
  | some c => rw [Statement.slotValues_text, (Condition.laid c).literals]; rfl

theorem spelled_filterPieces (q : Select) :
    Statement.spelled lit q.filterPieces = q.spellFilter lit := by
  rw [filterPieces, spellFilter]
  cases q.filter with
  | none => rfl
  | some c => rw [Statement.spelled_text, (Condition.laid c).spell lit]

theorem blank_filterPieces (q : Select) :
    q.skeleton.filterPieces.map Piece.blank = q.filterPieces.map Piece.blank := by
  rw [filterPieces, filterPieces, skeleton]
  cases q.filter with
  | none => rfl
  | some c => rw [Option.map_some, List.map_cons, List.map_cons, (Condition.laid c).skeleton]

/-! ### Whole statements -/

theorem render_parametrizes (q : Select) : q.render.Parametrizes q.literals q.spell := by
  refine Statement.parametrizes_ofPieces ?_ fun lit => ?_
  · simp only [List.cons_append, List.append_assoc, Statement.slotValues_text,
      Statement.slotValues_append, Statement.slotValues_nil, slotValues_joins,
      slotValues_filterPieces, literals, List.append_nil]
  · simp only [List.cons_append, List.append_assoc, Statement.spelled_text,
      Statement.spelled_append, Statement.spelled_nil, spelled_joins, spelled_filterPieces, spell,
      String.append_empty, String.append_assoc]

theorem renderCount_parametrizes (q : Select) :
    q.renderCount.Parametrizes q.filterLiterals q.spellCount := by
  refine Statement.parametrizes_ofPieces ?_ fun lit => ?_
  · rw [Statement.slotValues_text, slotValues_filterPieces]
  · rw [Statement.spelled_text, spelled_filterPieces]
    rfl

/-- The statements of a query have the texts of its skeleton's statements. -/
theorem sql_skeleton (q : Select) :
    q.skeleton.render.sql = q.render.sql ∧ q.skeleton.renderCount.sql = q.renderCount.sql := by
  constructor
  · refine Statement.sql_congr ?_
    simp only [List.cons_append, List.map_cons, List.map_append, blank_filterPieces]
    rw [skeleton, blank_joins]
    rfl
  · refine Statement.sql_congr ?_
    rw [List.map_cons, List.map_cons, blank_filterPieces]
    rfl

/-- The joins of a compiled query compare columns, so they hold no literals. -/
theorem joinLiterals_ofSpecs {schema : Schema} {root : String} {filter : Option FilterSpec}
    {order : Option OrderSpec} {window : Option Window}
    (h : ofSpecs schema root filter order window = .ok q) :
    q.joins.flatMap (·.on.literals) = [] := by
  obtain ⟨type, routes, -, hrouted⟩ := exists_routed h
  rw [hrouted.joins, List.flatMap_map]
  have hjoined := hrouted.joined
  clear hrouted
  induction hjoined with
  | none => rfl
  | join _ _ _ _ _ _ ih =>
    rw [List.flatMap_append, ih]
    rfl

/-- Without literals in the joins, the filter is numbered from one in both statements. -/
theorem render_eq_of_joins (h : q.joins.flatMap (·.on.literals) = []) :
    q.renderCount.params = q.render.params ∧
      q.render.sql = "SELECT " ++ q.label ++ ".*" ++ q.source ++ q.joinsText ++ q.whereText ++
        (q.orderText ++ q.windowText) ∧
      q.renderCount.sql = "SELECT COUNT(*)" ++ q.source ++ q.whereText := by
  refine ⟨?_, ?_, rfl⟩
  · rw [(renderCount_parametrizes q).params, (render_parametrizes q).params, literals, h,
      List.nil_append]
  · have hslots : (Statement.slotValues (q.joins.flatMap joinPieces)).length = 0 := by
      rw [slotValues_joins, h, List.length_nil]
    simp only [render, Statement.ofPieces, List.cons_append, List.append_assoc, Statement.numbered,
      Statement.numbered_append, hslots, Nat.add_zero, joinsText, whereText, String.append_empty,
      String.append_assoc]

/-- **Literals go into slots.** Each has a place where the query has it, is a parameter with the
number of that place, and leaves no other trace in the text; and a compiled query is counted under
the filter and the parameters it is selected with. -/
theorem literals_in_slots (q : Select) :
    q.render.Parametrizes q.literals q.spell ∧
      q.renderCount.Parametrizes q.filterLiterals q.spellCount ∧
      (∀ q' : Select, q'.skeleton = q.skeleton →
        q'.render.sql = q.render.sql ∧ q'.renderCount.sql = q.renderCount.sql) ∧
      ∀ schema root filter order window, ofSpecs schema root filter order window = .ok q →
        q.renderCount.params = q.render.params ∧
          q.render.sql = "SELECT " ++ q.label ++ ".*" ++ q.source ++ q.joinsText ++ q.whereText ++
            (q.orderText ++ q.windowText) ∧
          q.renderCount.sql = "SELECT COUNT(*)" ++ q.source ++ q.whereText := by
  refine ⟨render_parametrizes q, renderCount_parametrizes q, fun q' hsame => ?_,
    fun schema root filter order window h => render_eq_of_joins (joinLiterals_ofSpecs h)⟩
  obtain ⟨hrender, hcount⟩ := sql_skeleton q
  obtain ⟨hrender', hcount'⟩ := sql_skeleton q'
  rw [hsame] at hrender' hcount'
  exact ⟨hrender'.symm.trans hrender, hcount'.symm.trans hcount⟩

open Samples

/-- People of a name, older or younger than two ages. -/
def namedAged (name low high : Value) : Select where
  table := "people"
  label := rootLabel
  joins := []
  filter := some (.or [.compare ⟨rootLabel, "name"⟩ .eq name, .between ⟨rootLabel, "age"⟩ low high])
  orderBy := []
  offset := none
  limit := none

/-- A name that would end a quoted literal and the condition with it is written as any other. -/
theorem literals_in_slots_namedAged :
    ofSpecs (Schema.ofList [person]) "person"
        (some (.disjunction
          [.equalTo "name" (.string "x' OR 'a' = 'a"), .inRange "age" (.int 1) (.int 2)]))
        none none = .ok (namedAged (.string "x' OR 'a' = 'a") (.int 1) (.int 2)) ∧
      (namedAged (.string "x' OR 'a' = 'a") (.int 1) (.int 2)).render =
        ⟨"SELECT t0.* FROM \"people\" AS t0 WHERE (t0.\"name\" = $1 OR t0.\"age\" BETWEEN $2 AND $3)",
          [.string "x' OR 'a' = 'a", .int 1, .int 2]⟩ ∧
      (namedAged (.string "x") (.int 3) .null).render.sql
        = (namedAged (.string "x' OR 'a' = 'a") (.int 1) (.int 2)).render.sql ∧
      (namedAged (.string "x' OR 'a' = 'a") (.int 1) (.int 2)).renderCount.params
        = [.string "x' OR 'a' = 'a", .int 1, .int 2] := by
  have hmade : ofSpecs (Schema.ofList [person]) "person"
      (some (.disjunction
        [.equalTo "name" (.string "x' OR 'a' = 'a"), .inRange "age" (.int 1) (.int 2)]))
      none none = .ok (namedAged (.string "x' OR 'a' = 'a") (.int 1) (.int 2)) := by rfl
  obtain ⟨-, -, hsame, hcompiled⟩ :=
    literals_in_slots (namedAged (.string "x' OR 'a' = 'a") (.int 1) (.int 2))
  refine ⟨hmade, by decide +kernel, (hsame _ rfl).1, ?_⟩
  rw [(hcompiled _ _ _ _ _ hmade).1]
  rfl

end Select

end EntityStore
