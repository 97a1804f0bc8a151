import RouteContract.Schema.Basic

/-!
# Codecs

A codec may not be built on another codec, nor on a union: the direction in which the inner one runs
would be ambiguous. `Schema.transform?` and `Schema.custom?` refuse such parents with a
`DefinitionError`. Only the wire side of a transform is a parent in this sense.
-/

namespace RouteContract

/-- Why a schema cannot be defined. -/
inductive DefinitionError where
  /-- The parent of the named codec is a codec of the given kind. -/
  | codecOverCodec (name parent : String)
  /-- The parent of the named codec is a union. -/
  | codecOverUnion (name : String)
deriving DecidableEq

/-- Text of a definition error. -/
def DefinitionError.message : DefinitionError → String
  | codecOverCodec name parent =>
    "`" ++ name ++ "` cannot inherit from " ++ parent ++ ": codecs cannot wrap other codecs"
  | codecOverUnion name =>
    "`" ++ name ++ "` cannot inherit from a oneOf: the matching branch is only known at runtime"

namespace Schema

/-- Why a schema cannot be the parent of the named codec. -/
def parentError? (name : String) (parent : Schema) : Option DefinitionError :=
  match parent.kind with
  | .transform _ _ _ _ | .custom _ _ _ => some (.codecOverCodec name parent.kind.name)
  | .oneOf _ => some (.codecOverUnion name)
  | _ => none

/-- A codec between a wire schema and a program schema. -/
def transform? (encoded decoded : Schema) (decode encode : Conversion) :
    Except DefinitionError Schema :=
  match parentError? "transform" encoded with
  | some error => .error error
  | none => .ok (ofKind (.transform encoded decoded decode encode))

/-- A named codec that only decodes; encoding checks the value against the parent. -/
def custom? (name : String) (parent : Schema) (decode : Conversion) :
    Except DefinitionError Schema :=
  match parentError? name parent with
  | some error => .error error
  | none => .ok (ofKind (.custom name parent decode))

/-- The sides of a transform: what goes in and what comes out in the given direction. -/
def transformSides (direction : Direction) (encoded decoded : Schema) : Schema × Schema :=
  match direction with
  | .decode => (encoded, decoded)
  | .encode => (decoded, encoded)

/-- The function of a codec node for a direction; custom codecs only have the decoding one. -/
def conversion? (s : Schema) (direction : Direction) : Option Conversion :=
  match s.kind, direction with
  | .transform _ _ decode _, .decode => some decode
  | .transform _ _ _ encode, .encode => some encode
  | .custom _ _ decode, _ => some decode
  | _, _ => none

end Schema

end RouteContract
