import EntityStore.Schema.Basic
import EntityStore.Text.Pieces

/-!
# Attribute paths

A path such as `parent.name` is resolved against the schema into steps, each an attribute with
the type that declares it. Every step but the last has to be a relation, and the next step is
looked up on the type it leads to. Both query backends work on steps and never on the text.
-/

namespace EntityStore

/-- One resolved step of a path. -/
structure Step where
  attr : Attribute
  /-- The type that declares the attribute. -/
  owner : EntityType

namespace Path

/-- The segments of a path. -/
def segments (path : String) : List String := (Text.pieces '.' path.toList).map String.ofList

/-- Segments with dots between them. -/
def join (segments : List String) : String := ".".intercalate segments

/-- Resolve segments starting at `owner`. `fault` makes an error of what is wrong with one. -/
def walk (schema : Schema) (fault : PathFault → SchemaError) :
    EntityType → List String → Except SchemaError (List Step)
  | _, [] => .ok []
  | owner, segment :: rest =>
    if segment = "" then .error (fault .emptySegment)
    else
      match owner.attribute? segment with
      | none => .error (fault (.noAttribute owner.name segment))
      | some a =>
        if rest.isEmpty then .ok [⟨a, owner⟩]
        else if a.isTerminal then .error (fault (.notTraversable segment))
        else
          match schema.targetOf a with
          | .error e => .error e
          | .ok next =>
            match walk schema fault next rest with
            | .error e => .error e
            | .ok steps => .ok (⟨a, owner⟩ :: steps)

end Path

/-- Resolve a path that starts at the type named `root`. -/
def Schema.inspect (schema : Schema) (root path : String) : Except SchemaError (List Step) :=
  match schema.lookup root with
  | .error e => .error e
  | .ok owner =>
    Path.walk schema (fun f => .invalidPath owner.name path f) owner (Path.segments path)

end EntityStore
