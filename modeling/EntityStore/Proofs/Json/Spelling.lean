import EntityStore.Proofs.Json.Numerals
import EntityStore.Proofs.Json.Strings
import EntityStore.Text.Blank
import Mathlib.Data.List.Forall2

/-!
# How values are spelled

A value is legible when its integers have 64 bits and its floats are read back from their digits. **The
text of a legible value is read as a document that spells it**: member by member in the order they
are written, every name and every string with its characters, every numeral with its number. What a
document says is for its readers to make out.

A text gives the reader two units of fuel for every character, and a value needs no more.

Legible or not, the text of a value is one line, since no control character is left in it, and that
line is not blank.
-/

namespace EntityStore.Json

open Text

/-- A value whose numbers are read back from their digits. -/
inductive Legible : Json → Prop
  | null : Legible .null
  | bool (b : Bool) : Legible (.bool b)
  | int {i : Int} (hi : InRange i) : Legible (.int i)
  | float {x : Binary64} (hx : ReadsBack x) : Legible (.float x)
  | text (s : String) : Legible (.text s)
  | array {items : List Json} (h : ∀ j ∈ items, Legible j) : Legible (.array items)
  | object {members : List (String × Json)} (h : ∀ m ∈ members, Legible m.2) :
    Legible (.object members)

mutual

/-- A document spells a value: its strings have the characters of the value's, its numerals stand for
the value's numbers, and its items and members are the value's, in their order. -/
inductive Spells : Written → Json → Prop
  | null : Spells .null .null
  | bool (b : Bool) : Spells (.bool b) (.bool b)
  | int {n : Numeral} {i : Int} (h : n.toJson? = some (.int i)) : Spells (.number n) (.int i)
  | float {n : Numeral} {x : Binary64} (h : n.toJson? = some (.float x)) : Spells (.number n) (.float x)
  | text {p : List Piece} {s : String} (h : decodeText? p = some s) : Spells (.text p) (.text s)
  | array {ws : List Written} {items : List Json} (h : SpellsItems ws items) :
    Spells (.array ws) (.array items)
  | object {ws : List (List Piece × Written)} {members : List (String × Json)}
    (h : SpellsMembers ws members) : Spells (.object ws) (.object members)

@[inherit_doc Spells]
inductive SpellsItems : List Written → List Json → Prop
  | nil : SpellsItems [] []
  | cons {w : Written} {ws : List Written} {j : Json} {items : List Json} (h : Spells w j)
    (hrest : SpellsItems ws items) : SpellsItems (w :: ws) (j :: items)

@[inherit_doc Spells]
inductive SpellsMembers : List (List Piece × Written) → List (String × Json) → Prop
  | nil : SpellsMembers [] []
  | cons {w : List Piece × Written} {ws : List (List Piece × Written)} {m : String × Json}
    {members : List (String × Json)} (hname : decodeText? w.1 = some m.1) (h : Spells w.2 m.2)
    (hrest : SpellsMembers ws members) : SpellsMembers (w :: ws) (m :: members)

end

theorem toList_write_array (items : List Json) :
    (write (.array items)).toList = '[' :: ((writeItems items).toList ++ [']']) := by
  simp [write]

theorem toList_write_object (members : List (String × Json)) :
    (write (.object members)).toList = '\x7b' :: ((writeMembers members).toList ++ ['\x7d']) := by
  simp [write]

/-! ## The form of a text -/

/-- How the text of a value begins, and what it is made of. -/
structure WellFormed (text : List Char) : Prop where
  begins : ∃ c cs, text = c :: cs ∧ isBlank c = false ∧ c ≠ ']'
  printable : ∀ c ∈ text, 0x20 ≤ c.toNat

theorem wellFormed_cons {c : Char} {cs : List Char} (hblank : isBlank c = false) (hne : c ≠ ']')
    (hc : 0x20 ≤ c.toNat) (hcs : ∀ c ∈ cs, 0x20 ≤ c.toNat) : WellFormed (c :: cs) :=
  ⟨⟨c, cs, rfl, hblank, hne⟩, List.forall_mem_cons.mpr ⟨hc, hcs⟩⟩

theorem printable_of_all {cs : List Char} (h : cs.all (fun c => 0x20 ≤ c.toNat) = true) :
    ∀ c ∈ cs, 0x20 ≤ c.toNat :=
  fun c hc => of_decide_eq_true (List.all_eq_true.mp h c hc)

theorem toNat_of_isNumeralChar {c : Char} (hc : isNumeralChar c = true) :
    0x2B ≤ c.toNat ∧ c.toNat ≤ 0x65 ∧ c ≠ ']' := by
  simp only [isNumeralChar, Bool.or_eq_true, beq_iff_eq] at hc
  rcases hc with ((((hdigit | rfl) | rfl) | rfl) | rfl) | rfl
  · have hbounds : 48 ≤ c.toNat ∧ c.toNat ≤ 57 := by
      simpa [Char.isDigit, Char.le_def, UInt32.le_iff_toNat_le] using hdigit
    refine ⟨by omega, by omega, ?_⟩
    rintro rfl
    cases hdigit
  all_goals decide

/-- A text of the characters of numerals. -/
theorem wellFormed_of_numeral {text : List Char} (hne : text ≠ [])
    (htext : ∀ c ∈ text, isNumeralChar c = true) : WellFormed text := by
  obtain ⟨c, cs, rfl⟩ := List.exists_cons_of_ne_nil hne
  have hprintable : ∀ d ∈ c :: cs, 0x20 ≤ d.toNat := by
    intro d hd
    have hbounds := toNat_of_isNumeralChar (htext d hd)
    omega
  obtain ⟨hlow, hhigh, hbracket⟩ := toNat_of_isNumeralChar (htext c List.mem_cons_self)
  refine ⟨⟨c, cs, rfl, ?_, hbracket⟩, hprintable⟩
  simp only [isBlank, Bool.or_eq_false_iff, Bool.and_eq_false_iff, decide_eq_false_iff_not, beq_eq_false_iff_ne]
  omega

/-- What is made of printable texts, with commas between them. -/
theorem printable_writeItems {items : List Json}
    (h : ∀ j ∈ items, ∀ c ∈ (write j).toList, 0x20 ≤ c.toNat) :
    ∀ c ∈ (writeItems items).toList, 0x20 ≤ c.toNat := by
  induction items with
  | nil => exact nofun
  | cons j rest ih =>
    obtain ⟨hj, hrest⟩ := List.forall_mem_cons.mp h
    cases rest with
    | nil => exact hj
    | cons k rest =>
      intro c hc
      simp only [writeItems, String.toList_append, List.mem_append] at hc
      rcases hc with (hc | hc) | hc
      · exact hj c hc
      · rw [List.mem_singleton.mp hc]
        decide
      · exact ih hrest c hc

theorem printable_writeMembers {members : List (String × Json)}
    (h : ∀ m ∈ members, ∀ c ∈ (write m.2).toList, 0x20 ≤ c.toNat) :
    ∀ c ∈ (writeMembers members).toList, 0x20 ≤ c.toNat := by
  induction members with
  | nil => exact nofun
  | cons m rest ih =>
    obtain ⟨hm, hrest⟩ := List.forall_mem_cons.mp h
    obtain ⟨name, j⟩ := m
    have hmember : ∀ c ∈ (quote name ++ ":" ++ write j).toList, 0x20 ≤ c.toNat := by
      intro c hc
      simp only [String.toList_append, List.mem_append] at hc
      rcases hc with (hc | hc) | hc
      · exact le_toNat_of_mem_quote hc
      · rw [List.mem_singleton.mp hc]
        decide
      · exact hm c hc
    cases rest with
    | nil => exact hmember
    | cons n rest =>
      intro c hc
      have hsplit : writeMembers ((name, j) :: n :: rest)
          = quote name ++ ":" ++ write j ++ "," ++ writeMembers (n :: rest) := rfl
      rw [hsplit, String.toList_append, List.mem_append, String.toList_append, List.mem_append] at hc
      rcases hc with (hc | hc) | hc
      · exact hmember c hc
      · rw [List.mem_singleton.mp hc]
        decide
      · exact ih hrest c hc

/-- Induction on a value, with what is known of its items and of what its members hold. -/
@[elab_as_elim]
theorem ind {P : Json → Prop} (null : P .null) (bool : ∀ b, P (.bool b)) (int : ∀ i, P (.int i))
    (float : ∀ x, P (.float x)) (text : ∀ s, P (.text s))
    (array : ∀ items : List Json, (∀ j ∈ items, P j) → P (.array items))
    (object : ∀ members : List (String × Json), (∀ m ∈ members, P m.2) → P (.object members))
    (j : Json) : P j :=
  @Json.rec P (fun items => ∀ j ∈ items, P j) (fun members => ∀ m ∈ members, P m.2) (fun m => P m.2)
    null bool int float text array object
    (fun _ hj => absurd hj List.not_mem_nil) (fun _ _ hj hrest => List.forall_mem_cons.mpr ⟨hj, hrest⟩)
    (fun _ hm => absurd hm List.not_mem_nil) (fun _ _ hm hrest => List.forall_mem_cons.mpr ⟨hm, hrest⟩)
    (fun _ _ hj => hj) j

/-- **The text of a value is one line**, and is not blank. -/
theorem wellFormed_write (j : Json) : WellFormed (write j).toList := by
  have hnull : WellFormed "null".toList :=
    wellFormed_cons (by decide) (by decide) (by decide) (printable_of_all rfl)
  induction j using ind with
  | null => exact hnull
  | bool b =>
    cases b <;>
      exact wellFormed_cons (by decide) (by decide) (by decide) (printable_of_all rfl)
  | int i =>
    refine wellFormed_of_numeral ?_ (isNumeralChar_writeInt i)
    rw [write, toList_writeInt]
    exact List.append_ne_nil_of_right_ne_nil _ Nat.toDigits_ne_nil
  | float x =>
    by_cases hfinite : x.isFinite = true
    · obtain ⟨hne, hchars⟩ := isNumeralChar_writeFloat hfinite
      exact wellFormed_of_numeral hne hchars
    · -- a number without a value is written as no value
      rw [write, writeFloat, if_neg hfinite]
      exact hnull
  | text s =>
    have hprintable : ∀ c ∈ (quote s).toList, 0x20 ≤ c.toNat := fun c => le_toNat_of_mem_quote
    rw [write]
    rw [toList_quote] at hprintable ⊢
    obtain ⟨hquote, hrest⟩ := List.forall_mem_cons.mp hprintable
    exact wellFormed_cons (by decide) (by decide) hquote hrest
  | array items ih =>
    have hitems := printable_writeItems fun j hj => (ih j hj).printable
    rw [toList_write_array]
    refine wellFormed_cons (by decide) (by decide) (by decide) fun c hc => ?_
    rcases List.mem_append.mp hc with hc | hc
    · exact hitems c hc
    · rw [List.mem_singleton.mp hc]
      decide
  | object members ih =>
    have hmembers := printable_writeMembers fun m hm => (ih m hm).printable
    rw [toList_write_object]
    refine wellFormed_cons (by decide) (by decide) (by decide) fun c hc => ?_
    rcases List.mem_append.mp hc with hc | hc
    · exact hmembers c hc
    · rw [List.mem_singleton.mp hc]
      decide

/-! ## Reading it back -/

/-- A value that its text spells, whatever follows that is no part of a numeral. -/
def Spelled (j : Json) : Prop :=
  ∀ {fuel : Nat} {rest : List Char}, EndsNumeral rest → 2 * (write j).toList.length < fuel →
    ∃ w, readValue? fuel ((write j).toList ++ rest) = some (w, rest) ∧ Spells w j

variable {fuel : Nat} {rest : List Char}

theorem isSpace_of_isBlank {c : Char} (hc : isBlank c = false) : isSpace c = false := by
  by_contra hspace
  rw [Bool.not_eq_false, isSpace] at hspace
  simp only [Bool.or_eq_true, beq_iff_eq] at hspace
  rcases hspace with ((rfl | rfl) | rfl) | rfl <;> cases hc

theorem toList_writeItems_cons (j k : Json) (items : List Json) :
    (writeItems (j :: k :: items)).toList
      = (write j).toList ++ ',' :: (writeItems (k :: items)).toList := by
  have hsplit : writeItems (j :: k :: items) = write j ++ "," ++ writeItems (k :: items) := rfl
  simp [hsplit]

/-- The text of a member. -/
def memberText (m : String × Json) : List Char := (quote m.1).toList ++ ':' :: (write m.2).toList

theorem toList_writeMembers_singleton (m : String × Json) :
    (writeMembers [m]).toList = memberText m := by
  have hmember : writeMembers [m] = quote m.1 ++ ":" ++ write m.2 := rfl
  simp [hmember, memberText]

theorem toList_writeMembers_cons (m n : String × Json) (members : List (String × Json)) :
    (writeMembers (m :: n :: members)).toList
      = memberText m ++ ',' :: (writeMembers (n :: members)).toList := by
  have hsplit : writeMembers (m :: n :: members)
      = quote m.1 ++ ":" ++ write m.2 ++ "," ++ writeMembers (n :: members) := rfl
  simp [hsplit, memberText]

/-- The items of an array, of which there is at least one. -/
theorem readItems?_writeItems {items : List Json} (rest : List Char) (hne : items ≠ [])
    (h : ∀ j ∈ items, Spelled j) (hfuel : 2 * (writeItems items).toList.length + 1 < fuel) :
    ∃ ws, readItems? fuel ((writeItems items).toList ++ ']' :: rest) = some (ws, rest) ∧
      SpellsItems ws items := by
  induction items generalizing fuel with
  | nil => exact absurd rfl hne
  | cons j items ih =>
    obtain ⟨hj, hitems⟩ := List.forall_mem_cons.mp h
    cases fuel with
    | zero => omega
    | succ fuel =>
      cases items with
      | nil =>
        have hlength : 2 * (write j).toList.length < fuel := by
          have hsame : writeItems [j] = write j := rfl
          rw [hsame] at hfuel
          omega
        obtain ⟨w, hread, hspells⟩ := hj (endsNumeral_cons (c := ']') rfl rest) hlength
        refine ⟨[w], ?_, .cons hspells .nil⟩
        rw [writeItems, readItems?, hread]
        rfl
      | cons k items =>
        rw [toList_writeItems_cons] at hfuel ⊢
        rw [List.length_append, List.length_cons] at hfuel
        rw [List.append_assoc, List.cons_append]
        have hlength : 2 * (write j).toList.length < fuel ∧
            2 * (writeItems (k :: items)).toList.length + 1 < fuel := by omega
        obtain ⟨w, hread, hspells⟩ := hj (endsNumeral_cons (c := ',') rfl
          ((writeItems (k :: items)).toList ++ ']' :: rest)) hlength.1
        obtain ⟨ws, hreads, hrest⟩ := ih (List.cons_ne_nil _ _) hitems hlength.2
        refine ⟨w :: ws, ?_, .cons hspells hrest⟩
        rw [readItems?, hread]
        show (readItems? fuel _).map _ = _
        rw [hreads]
        rfl

/-- The pieces that the name of a member is read as. -/
def namePieces (m : String × Json) : List Piece := m.1.toList.map pieceOf

theorem memberText_append (m : String × Json) (rest : List Char) : memberText m ++ rest
    = '"' :: (m.1.toList.flatMap escapeChar ++ '"' :: ':' :: ((write m.2).toList ++ rest)) := by
  simp [memberText, toList_quote]

/-- The last member of an object is read. -/
theorem readMembers?_last {m : String × Json} {w : Written}
    (hread : readValue? fuel ((write m.2).toList ++ '\x7d' :: rest) = some (w, '\x7d' :: rest)) :
    readMembers? (fuel + 1) (memberText m ++ '\x7d' :: rest) = some ([(namePieces m, w)], rest) := by
  rw [memberText_append, readMembers?, skipSpace_cons rfl]
  simp only [readPieces?_escaped, Option.bind_eq_bind, Option.bind_some, hread, namePieces,
    skipSpace_cons (c := ':') rfl, skipSpace_cons (c := '\x7d') rfl]

/-- A member is read that others follow. -/
theorem readMembers?_more {m : String × Json} {w : Written}
    (hread : readValue? fuel ((write m.2).toList ++ ',' :: rest) = some (w, ',' :: rest)) :
    readMembers? (fuel + 1) (memberText m ++ ',' :: rest)
      = (readMembers? fuel rest).map fun (members, r) => ((namePieces m, w) :: members, r) := by
  rw [memberText_append, readMembers?, skipSpace_cons rfl]
  simp only [readPieces?_escaped, Option.bind_eq_bind, Option.bind_some, hread, namePieces,
    skipSpace_cons (c := ':') rfl, skipSpace_cons (c := ',') rfl]

/-- The members of an object, of which there is at least one. -/
theorem readMembers?_writeMembers {members : List (String × Json)} (rest : List Char)
    (hne : members ≠ []) (h : ∀ m ∈ members, Spelled m.2)
    (hfuel : 2 * (writeMembers members).toList.length < fuel) :
    ∃ ws, readMembers? fuel ((writeMembers members).toList ++ '\x7d' :: rest) = some (ws, rest) ∧
      SpellsMembers ws members := by
  induction members generalizing fuel with
  | nil => exact absurd rfl hne
  | cons m members ih =>
    obtain ⟨hm, hmembers⟩ := List.forall_mem_cons.mp h
    have hname : decodeText? (namePieces m) = some m.1 := decodeText?_pieces m.1
    cases fuel with
    | zero => omega
    | succ fuel =>
      cases members with
      | nil =>
        rw [toList_writeMembers_singleton] at hfuel ⊢
        have hlength : 2 * (write m.2).toList.length < fuel := by
          rw [memberText, toList_quote] at hfuel
          simp only [List.length_append, List.length_cons] at hfuel
          omega
        obtain ⟨w, hread, hspells⟩ := hm (endsNumeral_cons (c := '\x7d') rfl rest) hlength
        exact ⟨[(namePieces m, w)], readMembers?_last hread, .cons hname hspells .nil⟩
      | cons n members =>
        rw [toList_writeMembers_cons] at hfuel ⊢
        rw [List.append_assoc, List.cons_append]
        have hlength : 2 * (write m.2).toList.length < fuel ∧
            2 * (writeMembers (n :: members)).toList.length < fuel := by
          rw [memberText, toList_quote] at hfuel
          simp only [List.length_append, List.length_cons] at hfuel
          omega
        obtain ⟨w, hread, hspells⟩ := hm (endsNumeral_cons (c := ',') rfl
          ((writeMembers (n :: members)).toList ++ '\x7d' :: rest)) hlength.1
        obtain ⟨ws, hreads, hrest⟩ := ih (List.cons_ne_nil _ _) hmembers hlength.2
        refine ⟨(namePieces m, w) :: ws, ?_, .cons hname hspells hrest⟩
        rw [readMembers?_more hread, hreads]
        rfl

/-- The items of an array begin with the text of the first one. -/
theorem exists_writeItems (j : Json) (items : List Json) :
    ∃ tail, (writeItems (j :: items)).toList = (write j).toList ++ tail := by
  cases items with
  | nil => exact ⟨[], (List.append_nil _).symm⟩
  | cons k items => exact ⟨_, toList_writeItems_cons j k items⟩

/-- The members of an object begin with a quote. -/
theorem exists_writeMembers (m : String × Json) (members : List (String × Json)) :
    ∃ tail, (writeMembers (m :: members)).toList = '"' :: tail := by
  cases members with
  | nil =>
    rw [toList_writeMembers_singleton, memberText, toList_quote]
    exact ⟨_, rfl⟩
  | cons n members =>
    rw [toList_writeMembers_cons, memberText, toList_quote]
    exact ⟨_, rfl⟩

/-- What a reader does with an array that is not empty. -/
theorem readValue?_array {c : Char} {cs r : List Char} {ws : List Written} (hblank : isBlank c = false)
    (hc : c ≠ ']') (hread : readItems? fuel (c :: cs) = some (ws, r)) :
    readValue? (fuel + 1) ('[' :: c :: cs) = some (.array ws, r) := by
  have hskip : skipSpace (c :: cs) = c :: cs :=
    skipSpace_cons (isSpace_of_isBlank hblank)
  have hstart : skipSpace ('[' :: c :: cs) = '[' :: c :: cs :=
    skipSpace_cons rfl
  rw [readValue?, hstart]
  simp only
  rw [hskip]
  split
  · next h => exact absurd (List.cons.inj h).1 hc
  · rw [hread]
    rfl

/-- What a reader does with an object that is not empty. -/
theorem readValue?_object {cs r : List Char} {ws : List (List Piece × Written)}
    (hread : readMembers? fuel ('"' :: cs) = some (ws, r)) :
    readValue? (fuel + 1) ('\x7b' :: '"' :: cs) = some (.object ws, r) := by
  have hskip : skipSpace ('"' :: cs) = '"' :: cs :=
    skipSpace_cons rfl
  have hstart : skipSpace ('\x7b' :: '"' :: cs) = '\x7b' :: '"' :: cs :=
    skipSpace_cons rfl
  rw [readValue?, hstart]
  simp only
  rw [hskip]
  show (readMembers? fuel ('"' :: cs)).map _ = _
  rw [hread]
  rfl

/-- No text is shorter than nothing, so the reader has fuel to begin with. -/
theorem spelled_of_succ {j : Json}
    (h : ∀ (fuel : Nat) {rest : List Char}, EndsNumeral rest → 2 * (write j).toList.length ≤ fuel →
      ∃ w, readValue? (fuel + 1) ((write j).toList ++ rest) = some (w, rest) ∧ Spells w j) :
    Spelled j := by
  intro fuel rest hrest hfuel
  cases fuel with
  | zero => omega
  | succ fuel => exact h fuel hrest (Nat.le_of_lt_succ hfuel)

theorem spelled_text (s : String) : Spelled (.text s) := by
  refine spelled_of_succ fun fuel rest _ _ => ?_
  refine ⟨.text (s.toList.map pieceOf), ?_, .text (decodeText?_pieces s)⟩
  have htext : (write (.text s)).toList ++ rest
      = '"' :: (s.toList.flatMap escapeChar ++ '"' :: rest) := by
    simp [write, toList_quote]
  have hstart : skipSpace ('"' :: (s.toList.flatMap escapeChar ++ '"' :: rest)) = _ :=
    skipSpace_cons rfl
  rw [htext, readValue?, hstart]
  show (readPieces? _).map _ = _
  rw [readPieces?_escaped]
  rfl

theorem spelled_array {items : List Json} (h : ∀ j ∈ items, Spelled j) :
    Spelled (.array items) := by
  refine spelled_of_succ fun fuel rest hrest hfuel => ?_
  rw [toList_write_array] at hfuel ⊢
  rw [List.length_cons, List.length_append, List.length_singleton] at hfuel
  cases items with
  | nil => exact ⟨.array [], rfl, .array .nil⟩
  | cons j items =>
    have hlength : 2 * (writeItems (j :: items)).toList.length + 1 < fuel := by omega
    obtain ⟨ws, hread, hspells⟩ := readItems?_writeItems rest (List.cons_ne_nil j items) h hlength
    refine ⟨.array ws, ?_, .array hspells⟩
    -- the reader looks whether the array is empty, and no item begins with a bracket that closes it
    obtain ⟨tail, htail⟩ := exists_writeItems j items
    obtain ⟨c, cs, hc, hblank, hbracket⟩ := (wellFormed_write j).begins
    rw [htail, hc, List.cons_append, List.cons_append] at hread
    rw [htail, hc, List.cons_append, List.append_assoc, List.cons_append, List.cons_append]
    exact readValue?_array hblank hbracket hread

theorem spelled_object {members : List (String × Json)} (h : ∀ m ∈ members, Spelled m.2) :
    Spelled (.object members) := by
  refine spelled_of_succ fun fuel rest hrest hfuel => ?_
  rw [toList_write_object] at hfuel ⊢
  rw [List.length_cons, List.length_append, List.length_singleton] at hfuel
  cases members with
  | nil => exact ⟨.object [], rfl, .object .nil⟩
  | cons m members =>
    have hlength : 2 * (writeMembers (m :: members)).toList.length < fuel := by omega
    obtain ⟨ws, hread, hspells⟩ :=
      readMembers?_writeMembers rest (List.cons_ne_nil m members) h hlength
    refine ⟨.object ws, ?_, .object hspells⟩
    obtain ⟨tail, htail⟩ := exists_writeMembers m members
    rw [htail, List.cons_append] at hread
    rw [htail, List.cons_append, List.cons_append, List.cons_append, List.append_assoc]
    exact readValue?_object hread

/-- **The text of a legible value spells it**, whatever follows. -/
theorem Legible.spelled {j : Json} (hj : Legible j) : Spelled j := by
  induction hj with
  | null => exact spelled_of_succ fun _ _ _ _ => ⟨.null, rfl, .null⟩
  | bool b =>
    refine spelled_of_succ fun _ _ _ _ => ?_
    cases b <;> exact ⟨.bool _, rfl, .bool _⟩
  | int hi =>
    refine spelled_of_succ fun fuel _ hrest _ => ?_
    obtain ⟨n, hread, hvalue⟩ := readValue?_writeInt hi fuel hrest
    exact ⟨.number n, hread, .int hvalue⟩
  | float hx =>
    refine spelled_of_succ fun fuel _ hrest _ => ?_
    obtain ⟨n, hread, hvalue⟩ := readValue?_writeFloat hx fuel hrest
    exact ⟨.number n, hread, .float hvalue⟩
  | text s => exact spelled_text s
  | array _ ih => exact spelled_array ih
  | object _ ih => exact spelled_object ih

/-- **The text of a legible value is read as a document that spells it.** -/
theorem Legible.ofText?_write {j : Json} (hj : Legible j) :
    ∃ w, Written.ofText? (write j).toList = some w ∧ Spells w j := by
  have hfuel : 2 * (write j).toList.length < 2 * (write j).toList.length + 2 := by omega
  obtain ⟨w, hread, hspells⟩ := hj.spelled endsNumeral_nil hfuel
  rw [List.append_nil] at hread
  refine ⟨w, ?_, hspells⟩
  rw [Written.ofText?, hread]
  rfl

/-! ## Documents read back from JSON

A value is faithful when it is legible, the members of its objects are in order and it nests no
deeper than a reader goes. **A faithful value is read back from its text**: of a document that spells
it, it is what the document says.
-/

section Documents

/-- A value that is read back from its text where `depth` levels of nesting are allowed. -/
inductive Faithful : Nat → Json → Prop
  | null {depth : Nat} : Faithful depth .null
  | bool {depth : Nat} (b : Bool) : Faithful depth (.bool b)
  | int {depth : Nat} {i : Int} (hi : InRange i) : Faithful depth (.int i)
  | float {depth : Nat} {x : Binary64} (hx : ReadsBack x) : Faithful depth (.float x)
  | text {depth : Nat} (s : String) : Faithful depth (.text s)
  | array {depth : Nat} {items : List Json} (h : ∀ j ∈ items, Faithful depth j) :
    Faithful (depth + 1) (.array items)
  | object {depth : Nat} {members : List (String × Json)}
    (hsorted : members.Pairwise fun m n => m.1 < n.1) (h : ∀ m ∈ members, Faithful depth m.2) :
    Faithful (depth + 1) (.object members)

variable {depth : Nat} {w : Written} {j : Json}

theorem Faithful.legible (hj : Faithful depth j) : Legible j := by
  induction hj with
  | null => exact .null
  | bool b => exact .bool b
  | int hi => exact .int hi
  | float hx => exact .float hx
  | text s => exact .text s
  | array _ ih => exact .array ih
  | object _ _ ih => exact .object ih

/-! ## What a document says -/

theorem toItems?_of_spells {ws : List Written} {items : List Json} (hspells : SpellsItems ws items)
    (h : ∀ j ∈ items, ∀ w, Spells w j → w.toJson? depth = some j) :
    Written.toItems? depth ws = some items := by
  induction items generalizing ws with
  | nil =>
    cases hspells
    rfl
  | cons j items ih =>
    obtain ⟨hj, hitems⟩ := List.forall_mem_cons.mp h
    cases hspells with
    | cons hw hws => simp [Written.toItems?, hj _ hw, ih hws hitems]

/-- A member that comes after all that have been read. -/
theorem putMember_of_last {sofar : List (String × Json)} {m : String × Json}
    (h : ∀ n ∈ sofar, n.1 < m.1) : putMember m.1 m.2 sofar = sofar ++ [m] := by
  induction sofar with
  | nil => rfl
  | cons n sofar ih =>
    obtain ⟨hn, hrest⟩ := List.forall_mem_cons.mp h
    have hne : m.1 ≠ n.1 := fun heq => String.lt_irrefl _ (heq ▸ hn)
    have hnot : ¬ m.1 < n.1 := fun hlt => String.lt_irrefl _ (String.lt_trans hn hlt)
    obtain ⟨name, value⟩ := n
    rw [putMember, if_neg hne, if_neg hnot, ih hrest]
    rfl

/-- Members that are in order are left in it. -/
theorem toMembers?_of_spells {ws : List (List Piece × Written)} {members : List (String × Json)}
    (hspells : SpellsMembers ws members) (sofar : List (String × Json))
    (hsorted : (sofar ++ members).Pairwise fun m n => m.1 < n.1)
    (h : ∀ m ∈ members, ∀ w, Spells w m.2 → w.toJson? depth = some m.2) :
    Written.toMembers? depth sofar ws = some (sofar ++ members) := by
  induction members generalizing ws sofar with
  | nil =>
    cases hspells
    rw [List.append_nil]
    rfl
  | cons m members ih =>
    obtain ⟨hm, hmembers⟩ := List.forall_mem_cons.mp h
    obtain ⟨-, -, hbefore⟩ := List.pairwise_append.mp hsorted
    cases hspells with
    | @cons w ws _ _ hname hw hws =>
      have hput := putMember_of_last fun n hn => hbefore n hn m List.mem_cons_self
      have happend : sofar ++ [m] ++ members = sofar ++ m :: members := by simp
      obtain ⟨name, w⟩ := w
      rw [Written.toMembers?, hname, hm _ hw]
      show Written.toMembers? depth (putMember m.1 m.2 sofar) ws = _
      rw [hput, ih hws (sofar ++ [m]) (happend ▸ hsorted) hmembers, happend]

/-- A document says the faithful value that it spells. -/
theorem Faithful.toJson?_of_spells (hj : Faithful depth j) (hspells : Spells w j) :
    w.toJson? depth = some j := by
  induction hj generalizing w with
  | null => cases hspells; rfl
  | bool b => cases hspells; rfl
  | int _ => cases hspells with | int h => exact h
  | float _ => cases hspells with | float h => exact h
  | text s => cases hspells with | text h => simp [Written.toJson?, h]
  | array _ ih =>
    cases hspells with
    | array h => simp [Written.toJson?, toItems?_of_spells h fun j hj w => ih j hj]
  | object hsorted _ ih =>
    cases hspells with
    | object h => simp [Written.toJson?, toMembers?_of_spells h [] hsorted fun m hm w => ih m hm]

/-- **A faithful document is read back from its text.** -/
theorem Faithful.ofText?_write (hj : Faithful depthLimit j) : ofText? (write j).toList = some j := by
  obtain ⟨w, hread, hspells⟩ := hj.legible.ofText?_write
  rw [ofText?, hread]
  exact hj.toJson?_of_spells hspells

end Documents

end EntityStore.Json
