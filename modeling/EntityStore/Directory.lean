import EntityStore.Json.Printer
import EntityStore.Json.Reader
import EntityStore.StoreError
import EntityStore.Text.Blank
import EntityStore.Text.Pieces

/-!
# A directory of tables

A table is kept in a file of its own, one row in JSON on each line. Blank lines are skipped when
the file is read, but they count when a malformed line is reported. A table without a file has no
rows. Writing goes to a temporary file first, which then takes the name of the table's file, so a
reader never sees half a table.

The name of a table is joined to the directory as a path. It may lead into another folder, and more
than one name may lead to one file; what becomes of a folder's name is up to the system.
-/

namespace EntityStore

/-- Where a directory is. -/
structure Site where
  /-- The path of the directory, for reports. -/
  path : String
  /-- The folder to which a name leads from there, if there is one: what the names of its files
  begin with, as seen from the directory. A name has a slash behind each of its parts. -/
  folder? : String → Option String

/-- A directory with the files in it, and those elsewhere that names lead to. -/
structure Directory extends Site where
  files : List (String × ByteArray)
  /-- The tables that cannot be written: there is no room, or the system takes no such name. -/
  full : String → Bool

namespace Directory

/-! ## Names -/

/-- The parts of a table's name: folders and a base name. -/
def nameParts (table : String) : List String :=
  (Text.pieces '/' table.toList).map String.ofList

/-- The folder of a table's name, empty if there is none. -/
def folderName (table : String) : String :=
  String.join ((nameParts table).dropLast.map (· ++ "/"))

/-- A table's name without its folder. -/
def baseName (table : String) : String := (nameParts table).getLastD ""

def fileName (table : String) : String := baseName table ++ ".jsonl"

/-- The ending that a table's temporary file adds to the table's name. A file whose name is an
ending alone keeps it as its stem. -/
def temporaryEnding (table : String) : String :=
  if baseName table = "" then ".jsonl.jsonl.tmp" else ".jsonl.tmp"

def temporaryName (table : String) : String := baseName table ++ temporaryEnding table

/-- The folders that are there whatever else is: the directory itself, those above it, and the
root. -/
def givenFolder? (name : String) : Option String :=
  let parts := nameParts name
  if parts.all fun part => part == "" || part == "." || part == ".." then
    if parts.head? = some "" then some "/"
    else some (String.join ((parts.filter (· == "..")).map (· ++ "/")))
  else none

/-- An empty directory, from which no name leads into a folder below. -/
def empty (path : String) : Directory where
  path
  folder? := givenFolder?
  files := []
  full _ := false

/-- A name joined to a path. One that starts at the root takes its place. -/
def joined (path name : String) : String :=
  if path = "" ∨ name.toList.head? = some '/' then name
  else if path.toList.getLast? = some '/' then path ++ name
  else path ++ "/" ++ name

/-- The path of a table's file, for reports. -/
def filePath (d : Directory) (table : String) : String := joined d.path (table ++ ".jsonl")

def temporaryPath (d : Directory) (table : String) : String :=
  joined d.path (table ++ temporaryEnding table)

/-! ## Files -/

def content? (d : Directory) (name : String) : Option ByteArray :=
  (d.files.find? fun f => f.1 == name).map (·.2)

/-- Put a file into a list of files, over the one of its name. -/
def putFile (name : String) (content : ByteArray) :
    List (String × ByteArray) → List (String × ByteArray)
  | [] => [(name, content)]
  | (n, c) :: rest =>
    if n = name then (name, content) :: rest else (n, c) :: putFile name content rest

def write (d : Directory) (name : String) (content : ByteArray) : Directory :=
  { d with files := putFile name content d.files }

def erase (d : Directory) (name : String) : Directory :=
  { d with files := d.files.filter fun f => f.1 != name }

/-- Give a file another name; a file that had it is gone. -/
def rename (d : Directory) (source target : String) : Directory :=
  match d.content? source with
  | some content => (d.erase source).write target content
  | none => d

/-! ## Where a table is kept -/

/-- The folder that the files of a table are in. -/
def folderOf? (d : Directory) (table : String) : Option String :=
  if folderName table = "" then some "" else d.folder? (folderName table)

/-- The file of a table, if there is the folder for it. -/
def place? (d : Directory) (table : String) : Option String :=
  (d.folderOf? table).map (· ++ fileName table)

/-- The temporary file of a table. -/
def temporaryPlace? (d : Directory) (table : String) : Option String :=
  (d.folderOf? table).map (· ++ temporaryName table)

/-- What is kept of a table. -/
def kept? (d : Directory) (table : String) : Option ByteArray := (d.place? table).bind d.content?

/-! ## Rows -/

/-- The rows on the lines of a file, the first of which has the number `line`. -/
def readRows (path : String) (line : Nat) : List (List Char) → Except PersistFault (List Json)
  | [] => .ok []
  | text :: rest =>
    if text.all Text.isBlank then readRows path (line + 1) rest
    else
      match Json.ofText? text with
      | none => .error (.malformedLine path line)
      | some row =>
        match readRows path (line + 1) rest with
        | .error e => .error e
        | .ok rows => .ok (row :: rows)

/-- The text of a file with the given rows. -/
def writeRows (rows : List Json) : String := String.join (rows.map fun row => row.write ++ "\n")

/-- The rows of a table. A carriage return before a line feed is a blank like any other. -/
def load (d : Directory) (table : String) : Except PersistFault (List Json) :=
  match d.kept? table with
  | none => .ok []
  | some content =>
    match String.fromUTF8? content with
    | none => .error (.notText (d.filePath table))
    | some text => readRows (d.filePath table) 1 (Text.pieces '\n' text.toList)

/-- Keep the rows of a table, in the place of those it had. -/
def dump (d : Directory) (table : String) (rows : List Json) : Except PersistFault Directory :=
  if d.full table then .error .diskFull
  else
    match d.folderOf? table with
    | none => .error (.noDirectory (d.temporaryPath table))
    | some folder =>
      .ok ((d.write (folder ++ temporaryName table) (writeRows rows).toUTF8).rename
        (folder ++ temporaryName table) (folder ++ fileName table))

end Directory

end EntityStore
