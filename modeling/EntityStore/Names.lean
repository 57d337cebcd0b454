import EntityStore.Entity.Basic
import EntityStore.Sorting

/-!
# Names of handles

A handle can be given a name, or several. A name stands for one handle at a time, the one it was
given to last.
-/

namespace EntityStore

/-- Names with the handles they stand for. -/
abbrev Names := List (String × Handle)

namespace Names

/-- Give a name to a handle. -/
def bind (names : Names) (name : String) (h : Handle) : Names :=
  (name, h) :: List.filter (fun n => n.1 != name) names

/-- Give numbered names to handles. -/
def bindAll (names : Names) (stem : String) (handles : List Handle) : Names :=
  handles.zipIdx.foldl (fun names (h, i) => names.bind (stem ++ toString i) h) names

/-- The handle a name stands for. -/
def find? (names : Names) (name : String) : Option Handle :=
  (List.find? (fun n => n.1 == name) names).map (·.2)

/-- The names of a handle in ascending order. -/
def of (names : Names) (h : Handle) : List String :=
  Sorting.sort compare ((List.filter (fun n => n.2 == h) names).map (·.1))

end Names

end EntityStore
