import RouteContract.Document.SchemaObject
import RouteContract.Registry
import RouteContract.Schema.Union

/-!
# Compiling schemas into schema objects

Everything is described as it appears on the wire: a transform by its encoded side, a custom codec
by its parent. A lazy definition is compiled once per name into the registry and referenced from
then on, so recursive schemas end.

The recursion is on the schema; a lazy node leaves it through the registry. Names in progress are
never entered again, so no more definitions are ever nested than there are lazy nodes, and
`Definitions.nestingBound` counts those.
-/

namespace RouteContract

/-- Compilation with a registry of shared definitions. -/
abbrev Describe (α : Type) := StateM (Registry SchemaObject) α

/-- The description of a node, else the one on its wire side. -/
def Schema.wireDescription : Schema → Option String
  | ⟨_, _, _, some text⟩ => some text
  | ⟨.transform encoded _ _ _, _, _, none⟩ => encoded.wireDescription
  | ⟨.custom _ parent _, _, _, none⟩ => parent.wireDescription
  | ⟨_, _, _, none⟩ => none

namespace Describe

/-! ## Keywords of one node -/

/-- The common type name of literals: all strings, all numbers or all booleans. -/
def literalType? (literals : List Json) : Option String :=
  if literals.isEmpty then none
  else if literals.all Json.isString then some "string"
  else if literals.all Json.isNumber then some "number"
  else if literals.all Json.isBool then some "boolean"
  else none

/-- Adds description and nullability to what the shape compiled to. A reference cannot have
siblings, so it is wrapped unless there is nothing to add. -/
def annotate (required : Bool) (description : Option String) (shape : SchemaObject) :
    SchemaObject :=
  if shape.ref.isSome then
    if required && description.isNone then shape
    else { allOf := some [shape], description, nullable := !required }
  else { shape with description := description.or shape.description, nullable := !required }

/-! ## The recursion -/

mutual

/-- Schema object of a schema; `follow` registers the definition of a name and a target. -/
def schema (follow : String → String → Describe Unit) : Schema → Describe SchemaObject
  | ⟨kind, required, refinement, description⟩ => do
    let compiled ← shape follow kind
    return annotate required (Schema.wireDescription ⟨kind, required, refinement, description⟩)
      compiled
termination_by structural s => s

/-- Schema object of a shape. -/
def shape (follow : String → String → Describe Unit) : Kind Schema → Describe SchemaObject
  | .number => return .ofType "number"
  | .string => return .ofType "string"
  | .boolean => return .ofType "boolean"
  | .any => return {}
  | .enum options => return { type := literalType? options, enum := some options }
  | .oneOf options => do
    let compiled ← list follow options
    return { oneOf := some compiled, discriminator := Schema.discriminator? options }
  | .array items => do
    let compiled ← schema follow items
    return { SchemaObject.ofType "array" with items := some compiled }
  | .object properties => do
    let compiled ← propertyList follow properties
    return { SchemaObject.ofType "object" with
      properties := some compiled
      required := (properties.filter fun p => p.2.required).map Prod.fst }
  | .map values => do
    let compiled ← schema follow values
    return { SchemaObject.ofType "object" with additionalProperties := some compiled }
  | .lazy name target => do
    follow name target
    return .reference name
  | .transform encoded _ _ _ => nested follow encoded
  | .custom name parent _ => do
    let compiled ← nested follow parent
    return { compiled with title := some name }
termination_by structural k => k

/-- Schema object of the shape of a schema inside a codec, whose own annotations do not count. -/
def nested (follow : String → String → Describe Unit) : Schema → Describe SchemaObject
  | ⟨kind, _, _, _⟩ => shape follow kind
termination_by structural s => s

/-- Schema objects of a list, in order. -/
def list (follow : String → String → Describe Unit) : List Schema → Describe (List SchemaObject)
  | [] => return []
  | s :: rest => do
    let compiled ← schema follow s
    let others ← list follow rest
    return compiled :: others
termination_by structural l => l

/-- Schema objects of properties, in order. -/
def propertyList (follow : String → String → Describe Unit) :
    List (String × Schema) → Describe (List (String × SchemaObject))
  | [] => return []
  | (key, s) :: rest => do
    let compiled ← schema follow s
    let others ← propertyList follow rest
    return (key, compiled) :: others
termination_by structural l => l

end

/-! ## Following references -/

/-- Registers the definition of a name, with at most the given number inside each other. -/
def followUpTo (defs : Definitions) : Nat → String → String → Describe Unit
  | 0, _, _ => return ()
  | depth + 1, name, target =>
    Registry.define name (schema (followUpTo defs depth) (defs.resolve target))

/-- Compiles a schema as it appears on the wire. -/
def compile (defs : Definitions) (s : Schema) : Describe SchemaObject :=
  schema (followUpTo defs (defs.nestingBound s)) s

end Describe

end RouteContract
