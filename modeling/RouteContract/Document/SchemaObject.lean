import RouteContract.Json.Record

/-!
# SchemaObject -- schema objects of OpenAPI 3.0

The keywords that the documentation uses, with their stored form. Keywords are written in the order
of the fields, absent and empty ones left out.
-/

namespace RouteContract

/-- A schema object of a document. -/
structure SchemaObject where
  /-- Name of the type. -/
  type : Option String := none
  /-- Properties of an object, in declaration order. -/
  properties : Option (List (String × SchemaObject)) := none
  /-- Properties that must be present. -/
  required : List String := []
  /-- Elements of an array. -/
  items : Option SchemaObject := none
  /-- Values of a map. -/
  additionalProperties : Option SchemaObject := none
  /-- Allowed literals. -/
  enum : Option (List Json) := none
  /-- Options of a union. -/
  oneOf : Option (List SchemaObject) := none
  /-- All of these hold; gives a reference siblings. -/
  allOf : Option (List SchemaObject) := none
  /-- Tag property of a union. -/
  discriminator : Option String := none
  /-- Reference to a shared definition. -/
  ref : Option String := none
  /-- Name of a custom type. -/
  title : Option String := none
  /-- Description of the value. -/
  description : Option String := none
  /-- Whether the value may be null. -/
  nullable : Bool := false

namespace SchemaObject

/-- A schema object with only a type. -/
def ofType (name : String) : SchemaObject := { type := some name }

/-- Where the definition of a name stands in a document. -/
def pointer (name : String) : String := "#/components/schemas/" ++ name

/-- A bare reference to a definition. -/
def reference (name : String) : SchemaObject := { ref := some (pointer name) }

/-! ## Stored form -/

/-- A flag that is only written when it is set. -/
def flag (b : Bool) : Option Json := if b then some (.bool true) else none

/-- A list that is only written when it has elements. -/
def nonEmpty (xs : List Json) : Option Json := if xs.isEmpty then none else some (.arr xs)

mutual

/-- The schema object as stored. -/
def toJson : SchemaObject → Json
  | ⟨type, properties, required, items, additionalProperties, enum, oneOf, allOf, discriminator,
      ref, title, description, nullable⟩ =>
    Json.ofFields [("type", type.map .str), ("properties", optionalProperties properties),
      ("required", nonEmpty (required.map .str)), ("items", optional items),
      ("additionalProperties", optional additionalProperties), ("enum", enum.map .arr),
      ("oneOf", optionalList oneOf), ("allOf", optionalList allOf),
      ("discriminator", discriminator.map fun key => .obj [("propertyName", .str key)]),
      ("$ref", ref.map .str), ("title", title.map .str), ("description", description.map .str),
      ("nullable", flag nullable)]
termination_by structural s => s

/-- A schema object that may be absent. -/
def optional : Option SchemaObject → Option Json
  | none => none
  | some s => some (toJson s)
termination_by structural s => s

/-- A list of schema objects that may be absent. -/
def optionalList : Option (List SchemaObject) → Option Json
  | none => none
  | some l => some (.arr (listToJson l))
termination_by structural s => s

/-- Properties that may be absent. -/
def optionalProperties : Option (List (String × SchemaObject)) → Option Json
  | none => none
  | some l => some (.obj (propertiesToJson l))
termination_by structural s => s

/-- Every schema object of a list. -/
def listToJson : List SchemaObject → List Json
  | [] => []
  | s :: rest => toJson s :: listToJson rest
termination_by structural l => l

/-- Every property. -/
def propertiesToJson : List (String × SchemaObject) → List (String × Json)
  | [] => []
  | (key, s) :: rest => (key, toJson s) :: propertiesToJson rest
termination_by structural l => l

end

/-- The keywords in the order in which they are stored. -/
def keywords : List String :=
  ["type", "properties", "required", "items", "additionalProperties", "enum", "oneOf", "allOf",
    "discriminator", "$ref", "title", "description", "nullable"]

/-- Reads the tag property of a union. -/
def discriminatorOfJson? (v : Json) : Option String := do
  (← Record.ofJson? ["propertyName"] v).required "propertyName" Record.string?

/-- Reads a stored schema object of at most the given depth. -/
def ofJsonUpTo : Nat → Json → Option SchemaObject
  | 0, _ => none
  | depth + 1, v => do
    let nested := ofJsonUpTo depth
    let r ← Record.ofJson? keywords v
    let type ← r.optional "type" Record.string?
    let properties ← r.optional "properties" (Record.entries? nested)
    let required ← r.orElse "required" [] (Record.list? Record.string?)
    let items ← r.optional "items" nested
    let additionalProperties ← r.optional "additionalProperties" nested
    let enum ← r.optional "enum" (Record.list? some)
    let oneOf ← r.optional "oneOf" (Record.list? nested)
    let allOf ← r.optional "allOf" (Record.list? nested)
    let discriminator ← r.optional "discriminator" discriminatorOfJson?
    let ref ← r.optional "$ref" Record.string?
    let title ← r.optional "title" Record.string?
    let description ← r.optional "description" Record.string?
    let nullable ← r.orElse "nullable" false Record.bool?
    return {
      type, properties, required, items, additionalProperties, enum, oneOf, allOf, discriminator,
      ref, title, description, nullable }

/-- Reads a stored schema object. -/
def ofJson? (v : Json) : Option SchemaObject := ofJsonUpTo (v.depth + 1) v

end SchemaObject

end RouteContract
