/-!
# Windows

A window is what a caller wants to see of a longer list: it skips so many items and takes at most
so many. It never influences how many there are.
-/

namespace EntityStore

/-- How many items to skip, and how many to take. -/
structure Window where
  offset : Nat
  limit : Nat
  deriving DecidableEq, Repr

/-- The part of a list that a window shows. -/
def Window.slice (w : Window) (items : List α) : List α := (items.drop w.offset).take w.limit

/-- The part of a list that an optional window shows; without one it is all of it. -/
def Window.sliceIn (items : List α) : Option Window → List α
  | none => items
  | some w => w.slice items

end EntityStore
