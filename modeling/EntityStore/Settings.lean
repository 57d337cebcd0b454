import EntityStore.Json.Reader
import EntityStore.Json.Typed
import EntityStore.Text.Blank

/-!
# Settings

How a repository behaves, and in which form it logs. Both are read from environment variables;
a flag that cannot be understood keeps its default.
-/

namespace EntityStore

/-- The settings of a repository. -/
structure Settings where
  /-- The name used in logs. -/
  name : String
  /-- Whether a session commits after every addition and removal. -/
  autocommit : Bool
  /-- Whether a session re-indexes before every read. -/
  autoflush : Bool
  /-- Where a repository on files keeps them. -/
  directory : String
  deriving DecidableEq, Repr, Inhabited

namespace Settings

def defaults : Settings := ⟨"default", false, true, "."⟩

/-- The value of a flag as written, in any case and with blanks around it. -/
def readFlag? (text : String) : Option Bool :=
  match String.ofList (Text.lowerAscii (Text.trim text.toList)) with
  | "1" => some true
  | "true" => some true
  | "yes" => some true
  | "on" => some true
  | "0" => some false
  | "false" => some false
  | "no" => some false
  | "off" => some false
  | _ => none

/-- A flag that may be set in the environment. -/
def flag (env : String → Option String) (key : String) (default : Bool) : Bool :=
  ((env key).bind readFlag?).getD default

/-- The defaults, overridden by the environment. -/
def ofEnvironment (env : String → Option String) : Settings where
  name := (env "QUARRY_REPOSITORY_NAME").getD defaults.name
  autocommit := flag env "QUARRY_AUTOCOMMIT" defaults.autocommit
  autoflush := flag env "QUARRY_AUTOFLUSH" defaults.autoflush
  directory := (env "QUARRY_DATA_DIR").getD defaults.directory

/-- A field of a record, or its default when it is not given. -/
def fieldOr (read : Json.Written → Option α) (default : α) : Option Json.Written → Option α
  | none => some default
  | some w => read w

/-- Settings from a record in which any field may be missing. -/
def ofWritten? (w : Json.Written) : Option Settings := do
  match ← w.fields? ["name", "autocommit", "autoflush", "directory"] with
  | [name, autocommit, autoflush, directory] =>
    let name ← fieldOr Json.Written.string? defaults.name name
    let autocommit ← fieldOr Json.Written.bool? defaults.autocommit autocommit
    let autoflush ← fieldOr Json.Written.bool? defaults.autoflush autoflush
    let directory ← fieldOr Json.Written.string? defaults.directory directory
    some ⟨name, autocommit, autoflush, directory⟩
  | _ => none

end Settings

/-- The form of log lines. -/
inductive LogFormat
  | json
  | compact
  deriving DecidableEq, Repr

def LogFormat.name : LogFormat → String
  | .json => "Json"
  | .compact => "Compact"

/-- The settings of the log. -/
structure LogSettings where
  format : LogFormat
  filter : String
  deriving DecidableEq, Repr

/-- Log lines are JSON unless the environment asks for the compact form. -/
def LogSettings.ofEnvironment (env : String → Option String) : LogSettings where
  format :=
    match env "QUARRY_LOG_FORMAT" with
    | some text =>
      if String.ofList (Text.lowerAscii (Text.trim text.toList)) = "compact" then .compact
      else .json
    | none => .json
  filter := "info"

end EntityStore
