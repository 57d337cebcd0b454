import EntityStore.Filter.Basic
import EntityStore.Order.Basic
import EntityStore.Window

/-!
# Views

What a collection shows of the entities behind it: those that pass a filter, in an order, through
a window. In search mode a collection shows nothing until it has a filter.
-/

namespace EntityStore

structure View where
  filter : Option FilterSpec
  order : Option OrderSpec
  window : Option Window
  searchMode : Bool

namespace View

/-- Everything, as it comes. -/
def all : View := ⟨none, none, none, false⟩

/-- Whether nothing is shown for want of a filter. -/
def suppressed (v : View) : Bool := v.searchMode && v.filter.isNone

end View

end EntityStore
