import EntityStore.Proofs.Json.Trailing
import EntityStore.Proofs.Repository.Writing

/-!
# Tables line by line

A row is written on a line of its own, and a table is read line by line: the lines of its file are
those that its rows were written on. Lines are what they commonly are. A line feed ends a line, and so
does a carriage return with a line feed behind it; the last line need not be ended. The reader leaves
carriage returns where they are, which comes to the same: they are space, and space behind a row makes
no difference.
-/

namespace EntityStore

open Json Text

namespace Text

/-- A line without the carriage return at its end, should it have one there. -/
def withoutReturn (line : List Char) : List Char :=
  if line.getLast? = some '\r' then line.dropLast else line

/-- The lines that pieces between line feeds are: all but the last have been ended, and the last is
a line unless it is empty. -/
def linesOf : List (List Char) → List (List Char)
  | [] => []
  | [last] => if last.isEmpty then [] else [last]
  | line :: rest => withoutReturn line :: linesOf rest

/-- The lines of a text. -/
def lines (cs : List Char) : List (List Char) := linesOf (pieces '\n' cs)

theorem linesOf_cons (line : List Char) {rest : List (List Char)} (hne : rest ≠ []) :
    linesOf (line :: rest) = withoutReturn line :: linesOf rest := by
  obtain ⟨next, rest, rfl⟩ := List.exists_cons_of_ne_nil hne
  rfl

theorem withoutReturn_append (line : List Char) :
    ∃ rest, Spaces rest ∧ rest.all isBlank = true ∧ line = withoutReturn line ++ rest := by
  by_cases hlast : line.getLast? = some '\r'
  · refine ⟨['\r'], ?_, rfl, ?_⟩
    · intro c hc
      rw [List.mem_singleton.mp hc]
      rfl
    · rw [withoutReturn, if_pos hlast, List.dropLast_append_getLast? '\r' hlast]
  · refine ⟨[], nofun, rfl, ?_⟩
    rw [withoutReturn, if_neg hlast, List.append_nil]

theorem isBlank_withoutReturn (line : List Char) :
    (withoutReturn line).all isBlank = line.all isBlank := by
  obtain ⟨rest, -, hblank, heq⟩ := withoutReturn_append line
  conv => rhs; rw [heq]
  rw [List.all_append, hblank, Bool.and_true]

theorem ofText?_withoutReturn (line : List Char) : ofText? (withoutReturn line) = ofText? line := by
  obtain ⟨rest, hspaces, -, heq⟩ := withoutReturn_append line
  conv => rhs; rw [heq]
  exact (ofText?_append_spaces hspaces _).symm

/-- A text without carriage returns at its end keeps its end. -/
theorem withoutReturn_of_not_mem {line : List Char} (h : '\r' ∉ line) : withoutReturn line = line := by
  refine if_neg fun hlast => h ?_
  exact List.mem_of_getLast? hlast

end Text

namespace Directory

variable {d d' : Directory} {table : String} {rows : List Json} {path : String} {number : Nat}

/-- A line that is not blank, and on which there is no row. -/
def Malformed (line : List Char) : Prop :=
  line.all isBlank = false ∧ (ofText? line).isNone = true

instance (line : List Char) : Decidable (Malformed line) :=
  inferInstanceAs (Decidable (_ ∧ _))

/-- The pieces between line feeds are read as the lines that they are. -/
theorem readRows_linesOf (path : String) (number : Nat) (texts : List (List Char)) :
    readRows path number (linesOf texts) = readRows path number texts := by
  induction texts generalizing number with
  | nil => rfl
  | cons line rest ih =>
    cases rest with
    | nil =>
      cases line with
      | nil => rfl
      | cons c line => rfl
    | cons next rest =>
      rw [linesOf_cons line (List.cons_ne_nil next rest), readRows, readRows,
        isBlank_withoutReturn, ofText?_withoutReturn, ih]

/-- The first malformed line is reported. -/
theorem readRows_of_malformed {front back : List (List Char)} {line : List Char}
    (hfront : ∀ l ∈ front, ¬ Malformed l) (hline : Malformed line) :
    readRows path number (front ++ line :: back)
      = .error (.malformedLine path (number + front.length)) := by
  induction front generalizing number with
  | nil =>
    obtain ⟨hblank, hnone⟩ := hline
    rw [List.nil_append, readRows, hblank, if_neg Bool.false_ne_true, Option.isNone_iff_eq_none.mp hnone]
    rfl
  | cons l front ih =>
    obtain ⟨hl, hfront⟩ := List.forall_mem_cons.mp hfront
    have hnumber : number + (l :: front).length = number + 1 + front.length := by
      rw [List.length_cons]
      omega
    -- a line before it is blank or a row, and either way the reader goes on
    rw [List.cons_append, readRows, ih hfront, hnumber]
    split
    · rfl
    · next hblank =>
      split
      · next hnone => exact absurd ⟨by simpa using hblank, by rw [hnone]; rfl⟩ hl
      · rfl

/-- Every line that is not blank is a row. -/
theorem readRows_of_wellFormed {texts : List (List Char)} (h : ∀ l ∈ texts, ¬ Malformed l)
    (number : Nat) :
    ∃ rows, readRows path number texts = .ok rows ∧
      List.Forall₂ (fun line row => ofText? line = some row)
        (texts.filter fun line => !line.all isBlank) rows := by
  induction texts generalizing number with
  | nil => exact ⟨[], rfl, .nil⟩
  | cons line rest ih =>
    obtain ⟨hline, hrest⟩ := List.forall_mem_cons.mp h
    obtain ⟨rows, hread, hrows⟩ := ih hrest (number + 1)
    rw [readRows]
    by_cases hblank : line.all isBlank = true
    · refine ⟨rows, ?_, ?_⟩
      · rw [if_pos hblank, hread]
      · rwa [List.filter_cons_of_neg (by simp [hblank])]
    · have hblank' : line.all isBlank = false := by simpa using hblank
      obtain ⟨row, hrow⟩ : ∃ row, ofText? line = some row := by
        rw [← Option.ne_none_iff_exists']
        intro hnone
        exact hline ⟨hblank', by rw [hnone]; rfl⟩
      refine ⟨row :: rows, ?_, ?_⟩
      · rw [if_neg hblank, hrow, hread]
      · rw [List.filter_cons_of_pos (by simp [hblank'])]
        exact .cons hrow hrows

/-- Rows are written on a line each. -/
theorem lines_writeRows (rows : List Json) :
    lines (writeRows rows).toList = rows.map fun row => row.write.toList := by
  induction rows with
  | nil => rfl
  | cons row rows ih =>
    have hreturn : '\r' ∉ row.write.toList := fun hmem =>
      absurd ((wellFormed_write row).printable _ hmem) (by decide)
    rw [lines, pieces_writeRows_cons, linesOf_cons _ (pieces_ne_nil _ _),
      withoutReturn_of_not_mem hreturn, List.map_cons]
    exact congrArg _ ih

/-- A table is loaded from the lines of its file. -/
theorem load_of_kept {text : String} (h : d.kept? table = some text.toUTF8) :
    d.load table = readRows (d.filePath table) 1 (lines text.toList) := by
  unfold load
  rw [h]
  simp only [fromUTF8?_toUTF8]
  rw [lines, readRows_linesOf]

/-- **Tables are kept on lines.** A table that has been written has one line in its file for each of
its rows, whatever the file held before; its temporary file is gone, and no other file has changed, nor
what tables are loaded as that are kept in others, as those are whose names have no slash and differ. If
the rows are read back from their texts then the table is loaded as these rows. A table with any text in
its file is loaded as one row for every line that is not blank, unless there is a malformed line; the
first of these is then reported by its number among all lines. -/
theorem dump_load_lines :
    (∀ (d d' : Directory) (table : String) (rows : List Json), d.dump table rows = .ok d' →
      (∃ text : String, d'.kept? table = some text.toUTF8 ∧
        lines text.toList = rows.map fun row => row.write.toList) ∧
      (∃ place temporary, d.place? table = some place ∧ d.temporaryPlace? table = some temporary ∧
        d'.content? temporary = none ∧
        ∀ name, name ≠ place → name ≠ temporary → d'.content? name = d.content? name) ∧
      (∀ other, d.Apart table other →
        d'.kept? other = d.kept? other ∧ d'.load other = d.load other) ∧
      ((∀ row ∈ rows, ofText? row.write.toList = some row) → d'.load table = .ok rows)) ∧
    (∀ (d : Directory) (table other : String), '/' ∉ table.toList → '/' ∉ other.toList →
      table ≠ other → d.Apart table other) ∧
    ∀ (d : Directory) (table text : String), d.kept? table = some text.toUTF8 →
      (∀ front line back, lines text.toList = front ++ line :: back →
        (∀ l ∈ front, ¬ Malformed l) → Malformed line →
        d.load table = .error (.malformedLine (d.filePath table) (front.length + 1))) ∧
      ((∀ l ∈ lines text.toList, ¬ Malformed l) →
        ∃ rows, d.load table = .ok rows ∧
          List.Forall₂ (fun line row => ofText? line = some row)
            ((lines text.toList).filter fun line => !line.all isBlank) rows) := by
  refine ⟨?_, fun d _ _ => d.apart_of_not_mem, ?_⟩
  · intro d d' table rows hdump
    obtain ⟨hsite, hkept, hothers⟩ := of_dump hdump
    obtain ⟨-, folder, hfolder, -, htemporary, hfiles⟩ := content?_of_dump hdump
    refine ⟨⟨writeRows rows, hkept, lines_writeRows rows⟩, ?_, ?_, load_of_kept_rows hkept⟩
    · refine ⟨folder ++ fileName table, folder ++ temporaryName table, place?_of_folderOf? hfolder, ?_,
        htemporary, hfiles⟩
      rw [temporaryPlace?, hfolder]
      rfl
    · intro other hapart
      exact ⟨hothers other hapart, load_congr hsite (hothers other hapart)⟩
  · intro d table text hkept
    rw [load_of_kept hkept]
    refine ⟨?_, fun hlines => readRows_of_wellFormed hlines 1⟩
    intro front line back hlines hfront hline
    rw [hlines, readRows_of_malformed hfront hline, Nat.add_comm 1]

/-- Two notes with a blank line between them, and a third that breaks off. -/
def tornNotes : String := "[1]\r\n\r\n[2]\r\n[3,"

/-- Two people, the second of whom has no line feed. -/
def twoPeople : String := "[1]\n \n[2]\r"

/-- A directory with three tables, and with what is left of writing one of them. -/
def threeTables : Directory where
  __ := empty "data"
  files := [("notes.jsonl", tornNotes.toUTF8), ("people.jsonl", twoPeople.toUTF8),
    ("tags.jsonl", "torn".toUTF8), ("tags.jsonl.tmp", "torn".toUTF8)]

/-- Rows with line breaks in their texts. -/
def brokenTexts : List Json :=
  [.object [("id", .int 1), ("name", .text "red\r\n\"blue\"")], .array [.text "\n"], .null]

/-- The torn table of tags is written over and loaded again, line breaks and all, and the note that
breaks off is still found on the fourth line; of the people, both are loaded. -/
theorem dump_load_lines_threeTables :
    (∃ d', threeTables.dump "tags" brokenTexts = .ok d' ∧ d'.load "tags" = .ok brokenTexts ∧
      d'.content? "tags.jsonl.tmp" = none ∧
      d'.load "notes" = .error (.malformedLine "data/notes.jsonl" 4)) ∧
    ∃ rows, threeTables.load "people" = .ok rows ∧ rows.length = 2 := by
  obtain ⟨hdumped, hplain, hloaded⟩ := dump_load_lines
  have hnotes : threeTables.load "notes" = .error (.malformedLine "data/notes.jsonl" 4) := by
    have hlines : lines tornNotes.toList =
        ["[1]".toList, [], "[2]".toList] ++ "[3,".toList :: [] := by decide +kernel
    refine (hloaded threeTables "notes" tornNotes ?_).1 _ _ _ hlines (by decide +kernel)
      (by decide +kernel)
    rfl
  refine ⟨?_, ?_⟩
  · have hroom : threeTables.full "tags" = false := rfl
    have hfolder : threeTables.folderOf? "tags" = some "" := by decide +kernel
    obtain ⟨d', hdump, -, -⟩ := dump_eq_ok hroom hfolder brokenTexts
    obtain ⟨-, ⟨_, _, -, hplace, htemporary, -⟩, hothers, hrows⟩ :=
      hdumped threeTables d' "tags" brokenTexts hdump
    have hnamed : threeTables.temporaryPlace? "tags" = some "tags.jsonl.tmp" := by decide +kernel
    obtain rfl := Option.some.inj (hplace.symm.trans hnamed)
    refine ⟨d', hdump, hrows ?_, htemporary, ?_⟩
    · have hint : InRange 1 := ⟨by decide, by decide⟩
      have htag : Faithful depthLimit
          (.object [("id", .int 1), ("name", .text "red\r\n\"blue\"")]) :=
        .object (by decide) (List.forall_mem_cons.mpr ⟨.int hint, List.forall_mem_cons.mpr
          ⟨.text _, nofun⟩⟩)
      have harray : Faithful depthLimit (.array [.text "\n"]) :=
        .array (List.forall_mem_cons.mpr ⟨.text _, nofun⟩)
      exact List.forall_mem_cons.mpr ⟨htag.ofText?_write, List.forall_mem_cons.mpr
        ⟨harray.ofText?_write, List.forall_mem_cons.mpr ⟨Faithful.null.ofText?_write, nofun⟩⟩⟩
    · have hapart := hplain threeTables "tags" "notes" (by decide) (by decide) (by decide)
      rw [(hothers "notes" hapart).2, hnotes]
  · obtain ⟨rows, hload, hrows⟩ := (hloaded threeTables "people" twoPeople rfl).2 (by decide +kernel)
    refine ⟨rows, hload, ?_⟩
    rw [← hrows.length_eq]
    decide +kernel

/-- The table of tags under two names: the folder that the second goes through is the directory
itself, so writing the one is writing the other. -/
theorem dump_reaches_other_name :
    let d := (empty "data").write "tags.jsonl" "1\n".toUTF8
    ∃ d', d.dump "./tags" [] = .ok d' ∧ d.load "tags" = .ok [.int 1] ∧ d'.load "tags" = .ok [] :=
  ⟨_, rfl, rfl, rfl⟩

end Directory

end EntityStore
