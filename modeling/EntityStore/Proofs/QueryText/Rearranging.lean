import EntityStore.Proofs.QueryText.Commas
import EntityStore.Proofs.QueryText.Counting
import EntityStore.Proofs.QueryText.Loosening
import EntityStore.Samples.Types

/-!
# Rearranging the literals of a criterion

A criterion is written as the names of a path and an operator, and after them pieces of text with
commas between: each a literal, whether it can be read or not, or nothing. The pieces are read one by
one, so their order and number matter only to what the literals amount to. **They may be permuted and
repeated, and empty strings may be put among them: the text compiles just when it did before, and to a
predicate that holds of the same entities.**
-/

namespace EntityStore.QueryText

open Text

/-! ## Pieces -/

/-- A piece of text between commas: it is cut into tokens without a comma, and if it can be read as
values, then to its end. -/
def isPiece (cs : List Char) : Bool :=
  match tokensFrom 0 cs with
  | .error _ => false
  | .ok ts =>
    ts.all (fun t => t.kind != .comma) &&
      match readValues true ts with
      | .error _ => true
      | .ok (_, rest) => rest.isEmpty

/-- The literals of a piece, if it can be read. -/
def literals? (cs : List Char) : Option (List Literal) :=
  (tokensFrom 0 cs).toOption.bind fun ts => (readValues true ts).toOption.map (·.1)

/-- The tokens of a piece, wherever it stands. -/
structure CutsPiece (cs : List Char) (ts : List Token) : Prop where
  commas : ∀ t ∈ ts, t.kind ≠ .comma
  read : (readValues true ts).toOption = (literals? cs).map fun ls => (ls, [])

theorem exists_cutsPiece {cs : List Char} (h : isPiece cs = true) (position : Nat) :
    ∃ ts, tokensFrom position cs = .ok ts ∧ CutsPiece cs ts := by
  unfold isPiece at h
  split at h
  · cases h
  case h_2 ts hcut =>
    rw [Bool.and_eq_true, List.all_eq_true] at h
    obtain ⟨hcommas, hread⟩ := h
    have hshift := tokensFrom_shift hcut position
    rw [Nat.zero_add] at hshift
    refine ⟨_, hshift, ?_, ?_⟩
    · intro t ht
      obtain ⟨u, hu, rfl⟩ := List.mem_map.mp ht
      simpa using hcommas u hu
    · rw [readValues_shift]
      split at hread
      case h_1 e he => simp [literals?, hcut, he, Except.toOption]
      case h_2 ls rest hls =>
        obtain rfl : rest = [] := List.isEmpty_iff.mp hread
        simp [literals?, hcut, hls, Except.toOption]

/-- Tokens that are none, or begin with a comma. -/
def CommaNext (ts : List Token) : Prop := ∀ t ∈ ts.head?, t.kind = .comma

theorem CommaNext.unglued {ts : List Token} (h : CommaNext ts) : Unglued ts := fun t ht => by
  simp [h t ht]

/-- Where a comma comes next, or nothing, it does not matter whether a literal may. -/
theorem CommaNext.readValues_eq {ts : List Token} (h : CommaNext ts) (expecting : Bool) :
    readValues expecting ts = readValues true ts := by
  cases ts with
  | nil => rw [readValues, readValues]
  | cons t ts =>
      rw [readValues.eq_def, readValues.eq_def true]
      simp [h t rfl]

/-- Without a comma there is at most one literal. -/
theorem readValues_of_not_expecting {ts : List Token} (h : ∀ t ∈ ts, t.kind ≠ .comma) :
    readValues false ts = .ok ([], ts) := by
  cases ts with
  | nil => rw [readValues]
  | cons t ts =>
      rw [readValues]
      simp [h t List.mem_cons_self]

/-- What follows a literal does not change it, where it does not go on with it. -/
theorem readRangeEnd_append {stop : Nat} {ts rest : List Token} (h : Unglued rest) :
    readRangeEnd stop (ts ++ rest) = readRangeEnd stop ts := by
  cases ts with
  | nil => exact readRangeEnd_of_unglued h
  | cons t ts =>
      rw [List.cons_append, readRangeEnd.eq_def, readRangeEnd.eq_def stop (t :: ts)]
      cases ts with
      | cons u ts => rfl
      | nil =>
          -- after a hyphen the bound is missing, be there nothing or no number
          cases rest with
          | nil => rfl
          | cons u rest => simp [(h u rfl).1]

theorem readLiteral_append {t : Token} {ts rest : List Token} (h : Unglued rest) :
    readLiteral t (ts ++ rest) = readLiteral t ts := by
  unfold readLiteral
  rw [readRangeEnd_append h]

/-- **A piece is read as on its own**, and then what comes after the comma. -/
theorem CutsPiece.readValues_append {cs : List Char} {ts rest : List Token} (h : CutsPiece cs ts)
    (hrest : CommaNext rest) :
    (readValues true (ts ++ rest)).toOption = (literals? cs).bind fun ls =>
      (readValues true rest).toOption.map fun (ls', rest) => (ls ++ ls', rest) := by
  obtain ⟨hcommas, hread⟩ := h
  cases ts with
  | nil =>
      obtain ⟨ls, hls, hnone⟩ := Option.map_eq_some_iff.mp (hread.symm.trans (by rw [readValues]; rfl))
      obtain ⟨rfl, -⟩ := Prod.mk.inj hnone
      rw [hls, List.nil_append]
      simp
  | cons t ts =>
      rw [readValues_cons, if_neg (hcommas t List.mem_cons_self)] at hread
      rw [List.cons_append, readValues_cons, if_neg (hcommas t List.mem_cons_self),
        readLiteral_append hrest.unglued]
      by_cases hstarts : (true && startsLiteral t) = true
      · rw [if_pos hstarts] at hread ⊢
        cases hl : readLiteral t ts with
        | error e =>
            rw [hl] at hread
            rw [Option.map_eq_none_iff.mp hread.symm]
            rfl
        | ok r =>
            -- the literal takes all tokens of the piece, of which none is left
            obtain ⟨l, n⟩ := r
            have hnext : ∀ u ∈ ts.drop n, u.kind ≠ .comma := fun u hu =>
              hcommas u (List.mem_cons_of_mem t (List.mem_of_mem_drop hu))
            rw [hl] at hread
            dsimp only [Except.toOption, Option.bind_some] at hread ⊢
            rw [readValues_of_not_expecting hnext] at hread
            obtain ⟨ls, hls, hall⟩ := Option.map_eq_some_iff.mp hread.symm
            obtain ⟨rfl, hnil⟩ := Prod.mk.inj hall
            obtain ⟨us, vs, rfl, rfl, -⟩ := readLiteral_local hl
            rw [List.drop_left] at hnil
            subst hnil
            rw [hls, List.append_nil, List.drop_left, hrest.readValues_eq]
            rfl
      · rw [if_neg hstarts] at hread
        obtain ⟨ls, -, hall⟩ := Option.map_eq_some_iff.mp hread.symm
        cases hall

/-- **Pieces with commas between are read one by one.** -/
theorem exists_readValues {pieces : List (List Char)} (h : ∀ cs ∈ pieces, isPiece cs = true)
    (position : Nat) :
    ∃ ts, tokensFrom position ([','].intercalate pieces) = .ok ts ∧
      (readValues true ts).toOption = (pieces.mapM literals?).map fun lss => (lss.flatten, []) := by
  induction pieces generalizing position with
  | nil => exact ⟨[], by rw [List.intercalate_nil, tokensFrom], by rw [readValues]; rfl⟩
  | cons cs pieces ih =>
      obtain ⟨ts, hcut, hpiece⟩ := exists_cutsPiece (h cs List.mem_cons_self) position
      cases pieces with
      | nil =>
          refine ⟨ts, by rwa [List.intercalate_singleton], ?_⟩
          rw [hpiece.read]
          cases hls : literals? cs <;> simp [hls]
      | cons cs' pieces =>
          obtain ⟨us, hcuts, hread⟩ := ih (fun cs hcs => h cs (List.mem_cons_of_mem _ hcs))
            (position + byteLength cs + 1)
          have hcomma : CommaNext (⟨.comma, [','], position + byteLength cs⟩ :: us) := by
            rintro t ⟨⟩
            rfl
          refine ⟨ts ++ ⟨.comma, [','], position + byteLength cs⟩ :: us, ?_, ?_⟩
          · rw [List.intercalate_cons_cons, List.append_assoc]
            exact tokensFrom_comma hcut hcuts
          · rw [hpiece.readValues_append hcomma, readValues_cons, if_pos rfl, hread]
            generalize cs' :: pieces = others
            rw [List.mapM_cons]
            cases literals? cs with
            | none => rfl
            | some ls => cases others.mapM literals? <;> simp

/-! ## Names before the pieces -/

/-- Counting stops at a character that does not count. -/
theorem head_drop_countWhile (p : Char → Bool) (cs : List Char) :
    ∀ c ∈ (cs.drop (countWhile p cs)).head?, p c = false := by
  induction cs with
  | nil => simp
  | cons d cs ih =>
      by_cases hd : p d = true
      · rw [countWhile, List.takeWhile_cons_of_pos hd, List.length_cons, List.drop_succ_cons]
        exact ih
      · rw [countWhile, List.takeWhile_cons_of_neg hd]
        rintro c ⟨⟩
        exact eq_false_of_ne_true hd

/-- **Names that end with a colon are cut as on their own**, whatever is cut after them. -/
theorem tokensFrom_names {position : Nat} {cs more : List Char} {ts us : List Token}
    (h : tokensFrom position cs = .ok ts)
    (hkinds : ∀ t ∈ ts, t.kind = .word ∨ t.kind = .dot ∨ t.kind = .colon)
    (hlast : ∀ t ∈ ts.getLast?, t.kind = .colon)
    (hmore : tokensFrom (position + byteLength cs) more = .ok us) :
    tokensFrom position (cs ++ more) = .ok (ts ++ us) := by
  fun_induction tokensFrom position cs generalizing ts with
  | case1 position =>
      obtain rfl := Except.ok.inj h
      exact hmore
  | case2 position c rest hgap ih =>
      rw [byteLength_cons, ← Nat.add_assoc] at hmore
      rw [List.cons_append, tokensFrom_gap hgap]
      exact ih h hkinds hlast hmore
  | case3 => cases h
  | case4 => cases h
  | case5 position c rest hgap kind n hext tokens hrest ih =>
      obtain rfl := Except.ok.inj h
      obtain ⟨hkind, hkinds⟩ := List.forall_mem_cons.mp hkinds
      have hwhole : position + byteLength (c :: rest)
          = position + byteLength (c :: rest.take n) + byteLength (rest.drop n) := by
        rw [Nat.add_assoc, ← byteLength_append, List.cons_append, List.take_append_drop]
      rw [hwhole] at hmore
      have htail := ih hrest hkinds
        (fun t ht => hlast t (by rw [List.getLast?_cons, Option.mem_def.mp ht]; rfl)) hmore
      -- a mark ends anywhere; a word ends where its own text goes on with something else
      have htoken : IsToken kind (c :: rest.take n) (rest.drop n ++ more) := by
        cases extends_of_extent hext with
        | mark hmark => exact isToken_mark hmark _
        | word hstart =>
            refine isToken_word ((cut_of_extent hext position).word rfl)
              (wordEnd_of_tokensFrom htail fun d hd => ?_)
            -- something comes after the word, since that is no colon
            cases hdrop : rest.drop (countWhile isWordPart rest) with
            | nil =>
                rw [hdrop, tokensFrom] at hrest
                obtain rfl := Except.ok.inj hrest
                cases hlast _ rfl
            | cons d' after =>
                rw [hdrop] at hd
                obtain rfl : d' = d := by simpa using hd
                exact head_drop_countWhile isWordPart rest d' (by rw [hdrop]; rfl)
        | _ => rcases hkind with hkind | hkind | hkind <;> cases hkind
      have hcut := htoken.tokensFrom_ok htail
      rw [← List.append_assoc, List.cons_append, List.take_append_drop] at hcut
      exact hcut

theorem SpellsRest.kinds {segments : List String} {ts : List Token} (h : SpellsRest segments ts) :
    ∀ t ∈ ts, t.kind = .word ∨ t.kind = .dot ∨ t.kind = .colon := by
  induction h with
  | nil => exact fun t ht => (by cases ht)
  | cons hdot hw _ ih =>
      exact List.forall_mem_cons.mpr ⟨.inr (.inl hdot), List.forall_mem_cons.mpr ⟨.inl hw, ih⟩⟩

theorem SpellsNames.kinds {path : List String} {operator : String} {ts : List Token}
    (h : SpellsNames path operator ts) :
    (∀ t ∈ ts, t.kind = .word ∨ t.kind = .dot ∨ t.kind = .colon) ∧
      ∀ t ∈ ts.getLast?, t.kind = .colon := by
  obtain ⟨hw, -, -, hpath, hcolon, hoperator, hcolon'⟩ := h
  refine ⟨List.forall_mem_cons.mpr ⟨.inl hw, fun t ht => ?_⟩, fun t ht => ?_⟩
  · rcases List.mem_append.mp ht with ht | ht
    · exact hpath.kinds t ht
    · simp only [List.mem_cons, List.not_mem_nil, or_false] at ht
      rcases ht with rfl | rfl | rfl
      · exact .inr (.inr hcolon)
      · exact .inl hoperator
      · exact .inr (.inr hcolon')
  · rw [List.getLast?_cons, List.getLast?_append] at ht
    obtain rfl := Option.some.inj ht
    exact hcolon'

/-! ## Texts of criteria -/

/-- The text of a criterion: its names, and pieces with commas between. -/
def textOf (names : List Char) (pieces : List (List Char)) : String :=
  String.ofList (names ++ [','].intercalate pieces)

/-- Names are read, and then values. -/
theorem SpellsNames.readCriterion {path : List String} {operator : String} {ts : List Token}
    (h : SpellsNames path operator ts) (size : Nat) (vs : List Token) :
    ∃ w us, ts ++ vs = w :: us ∧ w.kind = .word ∧ w.isKeyword "and" = false ∧
      w.isKeyword "or" = false ∧
      QueryText.readCriterion size w us = (readValues true vs).map fun (ls, rest) =>
        (⟨path, operator, ls, w.start⟩, rest) := by
  obtain @⟨w, _, _, _, _, _, hw, hand, hor, hpath, hcolon, hoperator, hcolon'⟩ := h
  refine ⟨w, _, List.cons_append, hw, hand, hor, ?_⟩
  rw [List.append_assoc, QueryText.readCriterion, List.cons_append, hpath.readPathRest hcolon]
  cases hvalues : readValues true vs <;>
    simp [expect, hcolon, hoperator, hcolon', hvalues, Except.map]

/-- A criterion that cannot be read. -/
theorem readGroups_of_readCriterion_error {size : Nat} {outer : List Group} {g : Group} {t : Token}
    {ts : List Token} (ht : t.kind = .word) (hand : t.isKeyword "and" = false)
    (hor : t.isKeyword "or" = false) (hg : g.separated = true) {e : SyntaxError}
    (hread : readCriterion size t ts = .error e) : readGroups size outer g (t :: ts) = .error e := by
  rw [readGroups.eq_def]
  simp only [ht, hand, hor, hg, reduceCtorEq, decide_false, Bool.or_false, Bool.false_eq_true,
    if_false, if_true]
  split
  · rename_i h
    rw [hread] at h
    rw [Except.error.inj h]
  · rename_i h
    rw [hread] at h
    cases h

/-- **What the text of a criterion answers** is what its path, its operator and the literals of its
pieces do, if they can all be read. -/
theorem answered_textOf {names : List Char} {path : List String} {operator : String}
    {ts : List Token} (hcut : tokensFrom 0 names = .ok ts) (hnames : SpellsNames path operator ts)
    {pieces : List (List Char)} (hpieces : ∀ cs ∈ pieces, isPiece cs = true) (q : Question) :
    answered q (parseFilter (textOf names pieces)) = (pieces.mapM literals?).bind fun lss =>
      answered q (RawCriterion.toSpec ⟨path, operator, lss.flatten, 0⟩) := by
  obtain ⟨vs, hcuts, hread⟩ := exists_readValues hpieces (byteLength names)
  have htokens : tokens (textOf names pieces) = .ok (ts ++ vs) := by
    obtain ⟨hkinds, hlast⟩ := hnames.kinds
    rw [tokens, textOf, String.toList_ofList]
    exact tokensFrom_names hcut hkinds hlast (by rwa [Nat.zero_add])
  generalize hsize : byteLength (textOf names pieces).toList = size
  obtain ⟨w, us, htext, hw, hand, hor, hcriterion⟩ := hnames.readCriterion size vs
  rw [parseFilter, readFilter, htokens, hsize]
  dsimp only
  rw [htext]
  cases hvalues : readValues true vs with
  | error e =>
      rw [hvalues] at hread hcriterion
      rw [readGroups_of_readCriterion_error hw hand hor rfl hcriterion]
      rw [Option.map_eq_none_iff.mp hread.symm]
      rfl
  | ok r =>
      obtain ⟨ls, rest⟩ := r
      rw [hvalues] at hread hcriterion
      obtain ⟨lss, hlss, hflat⟩ := Option.map_eq_some_iff.mp hread.symm
      obtain ⟨rfl, rfl⟩ := Prod.mk.inj hflat
      rw [readGroups_criterion hw hand hor rfl hcriterion, hlss]
      have hresult : readGroups size [] (Group.empty.addTerm (some (.criterion
          ⟨path, operator, lss.flatten, w.start⟩))) []
          = .ok (some (.criterion ⟨path, operator, lss.flatten, w.start⟩)) := by
        rw [readGroups]
        rfl
      rw [hresult]
      exact answered_toSpec_of_literals (fun l _ => Iff.rfl) w.start 0 q

/-! ## Rearranging -/

/-- The pieces permuted; or with one of them written otherwise, such as with other blanks; or with
one of them again; or with an empty string more. -/
inductive Rearranges : List (List Char) → List (List Char) → Prop
  | permute {pieces pieces' : List (List Char)} (h : pieces.Perm pieces') :
    Rearranges pieces pieces'
  | respell {pieces : List (List Char)} {cs cs' : List Char} (hpiece : isPiece cs' = true)
    (h : literals? cs' = literals? cs) : Rearranges (cs :: pieces) (cs' :: pieces)
  | again {pieces : List (List Char)} {cs : List Char} (h : cs ∈ pieces) :
    Rearranges pieces (cs :: pieces)
  | empty {pieces : List (List Char)} {cs : List Char} (hpiece : isPiece cs = true)
    (h : literals? cs = some [.value (.string "")]) : Rearranges pieces (cs :: pieces)

theorem isPiece_of_rearranges {pieces pieces' : List (List Char)}
    (h : Relation.ReflTransGen Rearranges pieces pieces') (hpieces : ∀ cs ∈ pieces, isPiece cs = true) :
    ∀ cs ∈ pieces', isPiece cs = true := by
  induction h with
  | refl => exact hpieces
  | tail _ hstep ih =>
      cases hstep with
      | permute h => exact fun cs hcs => ih cs (h.mem_iff.mpr hcs)
      | respell hpiece =>
          exact List.forall_mem_cons.mpr ⟨hpiece, fun cs hcs => ih cs (List.mem_cons_of_mem _ hcs)⟩
      | again h => exact List.forall_mem_cons.mpr ⟨ih _ h, ih⟩
      | empty hpiece => exact List.forall_mem_cons.mpr ⟨hpiece, ih⟩

/-- However often pieces are rearranged, apart from empty strings they are read as the same. -/
theorem mem_literals?_iff_of_rearranges {pieces pieces' : List (List Char)}
    (h : Relation.ReflTransGen Rearranges pieces pieces') {read : Option (List Literal)}
    (hread : read ≠ some [.value (.string "")]) :
    read ∈ pieces.map literals? ↔ read ∈ pieces'.map literals? := by
  induction h with
  | refl => exact Iff.rfl
  | tail _ hstep ih =>
      refine ih.trans ?_
      cases hstep with
      | permute h => exact (h.map literals?).mem_iff
      | respell _ h => rw [List.map_cons, List.map_cons, h]
      | again h =>
          rw [List.map_cons, List.mem_cons]
          exact ⟨.inr, (Or.elim · (fun heq => heq ▸ List.mem_map_of_mem h) id)⟩
      | empty _ h =>
          rw [List.map_cons, List.mem_cons, h]
          exact ⟨.inr, (Or.resolve_left · hread)⟩

/-- A list can be read as a whole, element by element, or there is one that cannot. -/
theorem mapM_cases {α β : Type} (f : α → Option β) (xs : List α) :
    (∃ ys, xs.mapM f = some ys ∧ xs.map f = ys.map some) ∨ xs.mapM f = none ∧ none ∈ xs.map f := by
  induction xs with
  | nil => exact .inl ⟨[], rfl, rfl⟩
  | cons x xs ih =>
      rw [List.mapM_cons, List.map_cons]
      cases hx : f x with
      | none => exact .inr ⟨rfl, List.mem_cons_self⟩
      | some y =>
          rcases ih with ⟨ys, hys, hmap⟩ | ⟨hnone, hmem⟩
          · exact .inl ⟨y :: ys, by rw [hys]; rfl, by rw [hmap, List.map_cons]⟩
          · exact .inr ⟨by rw [hnone]; rfl, List.mem_cons_of_mem _ hmem⟩

/-- **Pieces that are read as the same apart from empty strings answer the same.** -/
theorem answered_textOf_of_mem_iff {names : List Char} {path : List String} {operator : String}
    {ts : List Token} (hcut : tokensFrom 0 names = .ok ts) (hnames : SpellsNames path operator ts)
    {pieces pieces' : List (List Char)} (hpieces : ∀ cs ∈ pieces, isPiece cs = true)
    (hpieces' : ∀ cs ∈ pieces', isPiece cs = true)
    (h : ∀ read, read ≠ some [.value (.string "")] →
      (read ∈ pieces.map literals? ↔ read ∈ pieces'.map literals?)) (q : Question) :
    answered q (parseFilter (textOf names pieces')) = answered q (parseFilter (textOf names pieces)) := by
  have hfails : none ∈ pieces.map literals? ↔ none ∈ pieces'.map literals? := h none nofun
  rw [answered_textOf hcut hnames hpieces, answered_textOf hcut hnames hpieces']
  rcases mapM_cases literals? pieces with ⟨lss, hlss, hmap⟩ | ⟨hnone, hfail⟩
  · rcases mapM_cases literals? pieces' with ⟨lss', hlss', hmap'⟩ | ⟨-, hfail⟩
    · rw [hlss, hlss']
      refine answered_toSpec_of_literals (fun l hcounts => ?_) 0 0 q
      -- a literal that counts is none of an empty string, and so is read of both
      have hls : ∀ ls, l ∈ ls → (ls ∈ lss ↔ ls ∈ lss') := by
        intro ls hl
        have hboth := h (some ls) fun hempty => by
          rw [Option.some.inj hempty, List.mem_singleton] at hl
          rw [hl] at hcounts
          cases hcounts
        simpa [hmap, hmap'] using hboth
      rw [List.mem_flatten, List.mem_flatten]
      exact ⟨fun ⟨ls, hmem, hl⟩ => ⟨ls, (hls ls hl).mpr hmem, hl⟩,
        fun ⟨ls, hmem, hl⟩ => ⟨ls, (hls ls hl).mp hmem, hl⟩⟩
    · rw [← hfails, hmap] at hfail
      simp at hfail
  · rcases mapM_cases literals? pieces' with ⟨lss', -, hmap'⟩ | ⟨hnone', -⟩
    · rw [hfails, hmap'] at hfail
      simp at hfail
    · rw [hnone, hnone']

/-- The text compiles, for a type of a schema, to the predicate. -/
def CompilesTo (input : String) (schema : Schema) (root : String) (p : Predicate) : Prop :=
  ∃ spec, parseFilter input = .ok spec ∧ spec.compile schema root = .ok p

theorem CompilesTo.answered_eq {input : String} {schema : Schema} {root : String} {p : Predicate}
    (h : CompilesTo input schema root p) (pool : Pool) (handle : Handle) :
    answered ⟨schema, root, pool, handle⟩ (parseFilter input) = some (p.holds pool handle) := by
  obtain ⟨spec, hparse, hcompile⟩ := h
  rw [hparse, answered]
  exact FilterSpec.answer_of_compile (q := ⟨schema, root, pool, handle⟩) hcompile

theorem exists_compilesTo {input : String} {q : Question} {b : Bool}
    (h : answered q (parseFilter input) = some b) : ∃ p, CompilesTo input q.schema q.root p := by
  cases hparse : parseFilter input with
  | error e =>
      rw [hparse] at h
      cases h
  | ok spec =>
      rw [hparse, answered, FilterSpec.answer] at h
      cases hcompile : spec.compile q.schema q.root with
      | error e =>
          rw [hcompile] at h
          cases h
      | ok p => exact ⟨p, spec, hparse, hcompile⟩

/-- **The literals of a criterion may be rearranged**, be its operator what it may: permuted, repeated,
with empty strings among them, and with other blanks, any number of times. The text compiles for a
type just when it did before, and what it compiles to holds of the same entities. -/
theorem compilesTo_of_rearranges {names : List Char} {path : List String} {operator : String}
    {ts : List Token} (hcut : tokensFrom 0 names = .ok ts) (hnames : SpellsNames path operator ts)
    {pieces pieces' : List (List Char)} (hpieces : ∀ cs ∈ pieces, isPiece cs = true)
    (h : Relation.ReflTransGen Rearranges pieces pieces') (schema : Schema) (root : String) :
    ((∃ p, CompilesTo (textOf names pieces') schema root p) ↔
        ∃ p, CompilesTo (textOf names pieces) schema root p) ∧
      ∀ p p', CompilesTo (textOf names pieces) schema root p →
        CompilesTo (textOf names pieces') schema root p' →
          ∀ pool handle, p'.holds pool handle = p.holds pool handle := by
  have hanswered : ∀ q, answered q (parseFilter (textOf names pieces'))
      = answered q (parseFilter (textOf names pieces)) :=
    answered_textOf_of_mem_iff hcut hnames hpieces (isPiece_of_rearranges h hpieces)
      fun _ => mem_literals?_iff_of_rearranges h
  refine ⟨⟨?_, ?_⟩, fun p p' hp hp' pool handle => ?_⟩
  · rintro ⟨p', hp'⟩
    exact exists_compilesTo ((hanswered _).symm.trans (hp'.answered_eq default 0))
  · rintro ⟨p, hp⟩
    exact exists_compilesTo ((hanswered _).trans (hp.answered_eq default 0))
  · have hsame := hanswered ⟨schema, root, pool, handle⟩
    rw [hp.answered_eq, hp'.answered_eq] at hsame
    exact Option.some.inj hsame

/-- Two zeros change places, the one is repeated, and an empty string is put between them. -/
theorem rearranges_zeros :
    Relation.ReflTransGen Rearranges ["0.0".toList, " -0.0".toList]
      ["-0.0".toList, " \"\"".toList, " 0.0".toList, " -0.0".toList] := by
  have hblank : Rearranges ["0.0".toList, " -0.0".toList] [" 0.0".toList, " -0.0".toList] :=
    .respell (by decide +kernel) (by decide +kernel)
  have hempty : Rearranges [" 0.0".toList, " -0.0".toList]
      [" \"\"".toList, " 0.0".toList, " -0.0".toList] :=
    .empty (by decide +kernel) (by decide +kernel)
  have hagain : Rearranges [" \"\"".toList, " 0.0".toList, " -0.0".toList]
      [" -0.0".toList, " \"\"".toList, " 0.0".toList, " -0.0".toList] := .again (by decide)
  have hfront : Rearranges [" -0.0".toList, " \"\"".toList, " 0.0".toList, " -0.0".toList]
      ["-0.0".toList, " \"\"".toList, " 0.0".toList, " -0.0".toList] :=
    .respell (by decide +kernel) (by decide +kernel)
  exact (((Relation.ReflTransGen.single hblank).tail hempty).tail hagain).tail hfront

/-- Whoever is younger than a zero of either sign. -/
theorem compilesTo_of_rearranges_zeros :
    ∃ p p', CompilesTo "age:less-than:0.0, -0.0" ⟨[Samples.person]⟩ "person" p ∧
      CompilesTo "age:less-than:-0.0, \"\", 0.0, -0.0" ⟨[Samples.person]⟩ "person" p' ∧
        ∀ pool handle, p'.holds pool handle = p.holds pool handle := by
  have hcut : tokensFrom 0 "age:less-than:".toList = .ok (youngerNames 0) := by decide +kernel
  obtain ⟨hiff, hsame⟩ := compilesTo_of_rearranges hcut (spellsNames_younger 0)
    (by decide +kernel) rearranges_zeros ⟨[Samples.person]⟩ "person"
  have hanswer : answered ⟨⟨[Samples.person]⟩, "person", ⟨fun _ => Samples.blank Samples.person, 1⟩, 0⟩
      (parseFilter (textOf "age:less-than:".toList ["0.0".toList, " -0.0".toList])) = some false := by
    decide +kernel
  obtain ⟨p, hp⟩ := exists_compilesTo hanswer
  obtain ⟨p', hp'⟩ := hiff.mpr ⟨p, hp⟩
  exact ⟨p, p', hp, hp', hsame p p' hp hp'⟩

end EntityStore.QueryText
