/-!
# Order specifications

Sort keys from the most to the least significant, as a tree so that orders can be joined. What
counts is the list of keys from left to right.
-/

namespace EntityStore

inductive Direction
  | asc
  | desc
  deriving DecidableEq, Repr, Inhabited

namespace Direction

def name : Direction → String
  | .asc => "asc"
  | .desc => "desc"

def ofName? : String → Option Direction
  | "asc" => some .asc
  | "desc" => some .desc
  | _ => none

/-- An ordering in this direction. -/
def apply : Direction → Ordering → Ordering
  | .asc, o => o
  | .desc, o => o.swap

end Direction

/-- A sort key. -/
structure OrderKey where
  path : String
  direction : Direction
  deriving DecidableEq, Repr, Inhabited

/-- An order specification. -/
inductive OrderSpec
  | key (k : OrderKey)
  | conjunction (children : List OrderSpec)
  deriving Inhabited

namespace OrderSpec

mutual

/-- The sort keys in order of precedence. -/
def keys : OrderSpec → List OrderKey
  | .key k => [k]
  | .conjunction children => keysOfList children

@[inherit_doc keys]
def keysOfList : List OrderSpec → List OrderKey
  | [] => []
  | spec :: rest => keys spec ++ keysOfList rest

end

mutual

/-- Equality of the trees. -/
def same : OrderSpec → OrderSpec → Bool
  | .key a, .key b => a == b
  | .conjunction as, .conjunction bs => sameList as bs
  | _, _ => false

@[inherit_doc same]
def sameList : List OrderSpec → List OrderSpec → Bool
  | [], [] => true
  | a :: as, b :: bs => same a b && sameList as bs
  | _, _ => false

end

/-- The children a spec contributes to a conjunction around it. -/
def parts : OrderSpec → List OrderSpec
  | .conjunction children => children
  | spec => [spec]

/-- Sort by the specs one after the other. A single one is left bare. -/
def all (specs : List OrderSpec) : OrderSpec :=
  match specs.flatMap parts with
  | [only] => only
  | children => .conjunction children

def and (a b : OrderSpec) : OrderSpec := all [a, b]

end OrderSpec

end EntityStore
