import EntityStore.Proofs.Json.Spelling
import EntityStore.Proofs.Json.Finite
import EntityStore.RowFormat

/-!
# Tables read back

A table is written to a temporary file, which is then given the name of the table's file. Each row is
one line there. What is read afterwards are the rows that were written, as long as each of them is
read back from its text, as faithful ones are. Whether the rows are then read as the entities that they
were made from is a matter of the format.
-/

namespace EntityStore

open Json Text

namespace Directory

variable {d d' : Directory} {name other table : String} {content : ByteArray} {rows : List Json}

/-! ## Files -/

theorem find?_putFile_self (files : List (String × ByteArray)) :
    (putFile name content files).find? (fun f => f.1 == name) = some (name, content) := by
  induction files with
  | nil => simp [putFile]
  | cons f rest ih =>
    obtain ⟨n, c⟩ := f
    by_cases hn : n = name
    · simp [putFile, hn]
    · rw [putFile, if_neg hn, List.find?_cons_of_neg (by simpa using hn)]
      exact ih

theorem content?_write_self (d : Directory) (name : String) (content : ByteArray) :
    (d.write name content).content? name = some content := by
  unfold content? write
  rw [find?_putFile_self]
  rfl

theorem content?_rename {source target : String} (h : d.content? source = some content) :
    (d.rename source target).content? target = some content := by
  unfold rename
  rw [h]
  exact content?_write_self _ _ _

@[simp] theorem toSite_rename (d : Directory) (source target : String) :
    (d.rename source target).toSite = d.toSite := by
  unfold rename
  split <;> rfl

@[simp] theorem full_rename (d : Directory) (source target : String) :
    (d.rename source target).full = d.full := by
  unfold rename
  split <;> rfl

/-! ## Where a table is kept -/

/-- A name without a folder leads to the directory itself. -/
theorem folderOf?_of_plain (d : Directory) (hplain : folderName table = "") :
    d.folderOf? table = some "" := if_pos hplain

theorem nameParts_of_not_mem (h : '/' ∉ table.toList) : nameParts table = [table] := by
  rw [nameParts, pieces_of_not_mem h, List.map_singleton, String.ofList_toList]

/-- A name without a slash has no folder. -/
theorem place?_of_not_mem (d : Directory) (h : '/' ∉ table.toList) :
    d.place? table = some (table ++ ".jsonl") := by
  have hplain : folderName table = "" := by
    rw [folderName, nameParts_of_not_mem h]
    rfl
  rw [place?, d.folderOf?_of_plain hplain, fileName, baseName, nameParts_of_not_mem h]
  exact congrArg some String.empty_append

/-- Where a table is kept is a matter of where the directory is. -/
theorem folderOf?_congr (hsite : d'.toSite = d.toSite) (table : String) :
    d'.folderOf? table = d.folderOf? table := by
  unfold folderOf?
  rw [hsite]

theorem place?_congr (hsite : d'.toSite = d.toSite) (table : String) :
    d'.place? table = d.place? table := by
  rw [place?, folderOf?_congr hsite, place?]

theorem place?_of_folderOf? {folder : String} (hfolder : d.folderOf? table = some folder) :
    d.place? table = some (folder ++ fileName table) := by
  rw [place?, hfolder]
  rfl

theorem kept?_of_folderOf? {folder : String} (hfolder : d.folderOf? table = some folder) :
    d.kept? table = d.content? (folder ++ fileName table) := by
  rw [kept?, place?_of_folderOf? hfolder]
  rfl

/-- **Writing a table** where there is room and a folder for it. -/
theorem dump_eq_ok {folder : String} (hroom : d.full table = false)
    (hfolder : d.folderOf? table = some folder) (rows : List Json) :
    ∃ d', d.dump table rows = .ok d' ∧ d'.full = d.full ∧
      d'.kept? table = some (writeRows rows).toUTF8 := by
  let temporary := d.write (folder ++ temporaryName table) (writeRows rows).toUTF8
  refine ⟨temporary.rename (folder ++ temporaryName table) (folder ++ fileName table), ?_,
    full_rename _ _ _, ?_⟩
  · unfold dump
    rw [hroom, if_neg Bool.false_ne_true, hfolder]
  · have hsite := toSite_rename temporary (folder ++ temporaryName table) (folder ++ fileName table)
    rw [kept?_of_folderOf? ((folderOf?_congr hsite table).trans hfolder)]
    exact content?_rename (content?_write_self _ _ _)

/-! ## Rows -/

theorem toList_writeRows_cons (row : Json) (rows : List Json) :
    (writeRows (row :: rows)).toList = row.write.toList ++ '\n' :: (writeRows rows).toList := by
  simp [writeRows, String.join_cons]

/-- A row is a line of its own. -/
theorem pieces_writeRows_cons (row : Json) (rows : List Json) :
    pieces '\n' (writeRows (row :: rows)).toList
      = row.write.toList :: pieces '\n' (writeRows rows).toList := by
  have hnone : '\n' ∉ row.write.toList := fun hmem =>
    absurd ((wellFormed_write row).printable _ hmem) (by decide)
  rw [toList_writeRows_cons, pieces_append, pieces_of_not_mem hnone]
  rfl

theorem isBlank_write (row : Json) : row.write.toList.all isBlank = false := by
  obtain ⟨c, cs, htext, hblank, -⟩ := (wellFormed_write row).begins
  rw [htext, List.all_cons, hblank, Bool.false_and]

/-- **Rows are read back from their lines**, if each of them is read back from its text. What follows
the last of them is a blank line. -/
theorem readRows_writeRows (path : String) (line : Nat)
    (h : ∀ row ∈ rows, ofText? row.write.toList = some row) :
    readRows path line (pieces '\n' (writeRows rows).toList) = .ok rows := by
  induction rows generalizing line with
  | nil => rfl
  | cons row rest ih =>
    obtain ⟨hrow, hrest⟩ := List.forall_mem_cons.mp h
    rw [pieces_writeRows_cons, readRows, isBlank_write, if_neg Bool.false_ne_true, hrow]
    simp only [ih (line + 1) hrest]

theorem read_of_readRows {path : String} {line : Nat} {texts : List (List Char)}
    (h : readRows path line texts = .ok rows) : ∀ row ∈ rows, Read row := by
  induction texts generalizing line rows with
  | nil =>
    obtain rfl := Except.ok.inj h
    exact fun row hrow => absurd hrow List.not_mem_nil
  | cons text rest ih =>
    rw [readRows] at h
    split at h
    · exact ih h
    · cases htext : ofText? text with
      | none =>
        rw [htext] at h
        cases h
      | some row =>
        rw [htext] at h
        cases hrest : readRows path (line + 1) rest with
        | error fault =>
          rw [hrest] at h
          cases h
        | ok others =>
          rw [hrest] at h
          obtain rfl := Except.ok.inj h
          exact List.forall_mem_cons.mpr ⟨read_of_ofText? htext, ih hrest⟩

/-- The rows of a table come from a document each. -/
theorem read_of_load (h : d.load table = .ok rows) : ∀ row ∈ rows, Read row := by
  have hnone : (Except.ok [] : Except PersistFault (List Json)) = .ok rows → ∀ row ∈ rows, Read row := by
    intro h
    obtain rfl := Except.ok.inj h
    exact fun row hrow => absurd hrow List.not_mem_nil
  unfold load at h
  split at h
  · exact hnone h
  · split at h
    · cases h
    · exact read_of_readRows h

theorem fromUTF8?_toUTF8 (s : String) : String.fromUTF8? s.toUTF8 = some s := by
  have hvalid : s.toUTF8.IsValidUTF8 := s.isValidUTF8
  unfold String.fromUTF8?
  rw [dif_pos hvalid]
  rfl

/-- **A table is read back** from the file that its rows were written to. -/
theorem load_of_kept_rows (hkept : d.kept? table = some (writeRows rows).toUTF8)
    (h : ∀ row ∈ rows, ofText? row.write.toList = some row) : d.load table = .ok rows := by
  unfold load
  rw [hkept]
  simp only [fromUTF8?_toUTF8]
  exact readRows_writeRows _ 1 h

end Directory

namespace RowFormat

variable {format : RowFormat} {d : Directory} {es : List Entity}

/-- The file of a table of entities. -/
def file (format : RowFormat) (es : List Entity) : ByteArray :=
  (Directory.writeRows (es.map format.encode)).toUTF8

/-- Rows are read as the entities they were made from, if each of them is. -/
theorem decodeAll_encode (h : ∀ e ∈ es, format.decode? (format.encode e) = some e) :
    format.decodeAll (es.map format.encode) = .ok es := by
  induction es with
  | nil => rfl
  | cons e rest ih =>
    obtain ⟨he, hrest⟩ := List.forall_mem_cons.mp h
    rw [List.map_cons, decodeAll, he]
    simp only [ih hrest]

/-- One row that is not read makes the table unreadable. -/
theorem decodeAll_of_unfit {rows : List Json} (h : ∃ row ∈ rows, format.decode? row = none) :
    format.decodeAll rows = .error (.unfitRow format.type.table) := by
  induction rows with
  | nil =>
    obtain ⟨row, hrow, -⟩ := h
    exact absurd hrow List.not_mem_nil
  | cons row rest ih =>
    rw [decodeAll]
    cases hdecode : format.decode? row with
    | none => rfl
    | some e =>
      obtain ⟨unfit, hmem, hnone⟩ := h
      rcases List.mem_cons.mp hmem with rfl | hmem
      · rw [hdecode] at hnone
        cases hnone
      · simp only [ih ⟨unfit, hmem, hnone⟩]

theorem mem_decodeAll {rows : List Json} (h : format.decodeAll rows = .ok es) :
    ∀ e ∈ es, ∃ row ∈ rows, format.decode? row = some e := by
  induction rows generalizing es with
  | nil =>
    obtain rfl := Except.ok.inj h
    exact fun e he => absurd he List.not_mem_nil
  | cons row rest ih =>
    rw [decodeAll] at h
    cases hrow : format.decode? row with
    | none =>
      rw [hrow] at h
      cases h
    | some e =>
      rw [hrow] at h
      cases hrest : format.decodeAll rest with
      | error fault =>
        rw [hrest] at h
        cases h
      | ok others =>
        rw [hrest] at h
        obtain rfl := Except.ok.inj h
        refine List.forall_mem_cons.mpr ⟨⟨row, List.mem_cons_self, hrow⟩, fun e he => ?_⟩
        obtain ⟨row', hmem, hdecode⟩ := ih hrest e he
        exact ⟨row', List.mem_cons_of_mem row hmem, hdecode⟩

/-- What is loaded of a type comes from rows that have been read. -/
theorem mem_load (h : format.load d = .ok es) :
    ∀ e ∈ es, ∃ row, Read row ∧ format.decode? row = some e := by
  unfold load at h
  cases hrows : d.load format.type.table with
  | error fault =>
    rw [hrows] at h
    cases h
  | ok rows =>
    rw [hrows] at h
    intro e he
    obtain ⟨row, hrow, hdecode⟩ := mem_decodeAll h e he
    exact ⟨row, Directory.read_of_load hrows row hrow, hdecode⟩

/-- **What the file of a table is read as**, when its rows are faithful. -/
theorem load_of_file (hkept : d.kept? format.type.table = some (format.file es))
    (h : ∀ e ∈ es, Faithful depthLimit (format.encode e)) :
    format.load d = format.decodeAll (es.map format.encode) := by
  have hrows := Directory.load_of_kept_rows hkept
    (List.forall_mem_map.mpr fun e he => (h e he).ofText?_write)
  unfold load
  rw [hrows]

end RowFormat

end EntityStore
