import EntityStore.Entity.Basic
import EntityStore.Filter.Check
import EntityStore.Sorting

/-!
# Orders in process

A checked order becomes a comparison of entities. A key whose path breaks off, at an unset
relation or at a field that cannot be read, is null and sorts first.
-/

namespace EntityStore

/-- The value at the end of a to-one path. -/
def Pool.sortKey (pool : Pool) : List String → Handle → Value
  | [], _ => .null
  | name :: rest, h =>
    match (pool.entity h).field? name with
    | some (.value v) => if rest.isEmpty then v else .null
    | some (.one (some related)) =>
      if rest.isEmpty then pool.idValue related else pool.sortKey rest related
    | _ => .null

/-- A checked sort key. -/
structure SortKey where
  path : List String
  direction : Direction
  deriving DecidableEq, Repr

def SortKey.compare (pool : Pool) (k : SortKey) (a b : Handle) : Ordering :=
  k.direction.apply ((pool.sortKey k.path a).sortCompare (pool.sortKey k.path b))

/-- A checked order: keys from the most to the least significant. -/
inductive Comparator
  | key (k : SortKey)
  | chain (children : List Comparator)
  deriving Inhabited

namespace Comparator

mutual

/-- The first key that tells two entities apart decides. -/
def compare (pool : Pool) (a b : Handle) : Comparator → Ordering
  | .key k => k.compare pool a b
  | .chain children => compareAll pool a b children

@[inherit_doc compare]
def compareAll (pool : Pool) (a b : Handle) : List Comparator → Ordering
  | [] => .eq
  | c :: rest => (compare pool a b c).then (compareAll pool a b rest)

end

end Comparator

mutual

/-- Check an order on the type named `root`. Of several faults the leftmost is reported. -/
def OrderSpec.compile (schema : Schema) (root : String) : OrderSpec → Except QueryError Comparator
  | .key k =>
    match k.resolve schema root with
    | .error e => .error e
    | .ok steps => .ok (.key ⟨steps.map fun s => s.attr.name, k.direction⟩)
  | .conjunction children =>
    match OrderSpec.compileAll schema root children with
    | .error e => .error e
    | .ok cs => .ok (.chain cs)

@[inherit_doc OrderSpec.compile]
def OrderSpec.compileAll (schema : Schema) (root : String) :
    List OrderSpec → Except QueryError (List Comparator)
  | [] => .ok []
  | spec :: rest =>
    match OrderSpec.compile schema root spec with
    | .error e => .error e
    | .ok c =>
      match OrderSpec.compileAll schema root rest with
      | .error e => .error e
      | .ok cs => .ok (c :: cs)

end

/-- Sort entities with a comparator. -/
def Comparator.sort (c : Comparator) (pool : Pool) (entities : List Handle) : List Handle :=
  Sorting.sort (fun a b => c.compare pool a b) entities

end EntityStore
