import RouteContract.Json.Record
import RouteContract.Schema.Basic
import RouteContract.Text.Blank

/-!
# Configurations

`ValidationConfig` says how validators treat their input and how rejected requests are answered,
`DocumentConfig` carries the caller's parts of the OpenAPI document, `RenderConfig` the layout of
rendered types. The first two have conditions, checked by `check`.
-/

namespace RouteContract

/-- Why a configuration is refused. -/
inductive ConfigError where
  /-- The status for rejected requests is not 4xx. -/
  | invalidErrorStatus (status : Nat)
  /-- The document title is blank. -/
  | emptyTitle
  /-- The overrides are neither an object nor null. -/
  | invalidOverrides
deriving DecidableEq

/-- Text of a configuration error. -/
def ConfigError.message : ConfigError → String
  | invalidErrorStatus status =>
    "error_status must be a 4xx status code (got " ++ toString status ++ ")"
  | emptyTitle => "document title must not be empty"
  | invalidOverrides => "document overrides must be a JSON object"

/-! ## Validation -/

/-- How values are validated and requests handled. -/
structure ValidationConfig where
  /-- Report unknown object members instead of carrying them through. -/
  strictObjects : Bool := false
  /-- Check what a codec produces against its output side. -/
  verifyOutput : Bool := true
  /-- Status of the answer to a rejected request. -/
  errorStatus : Nat := 400
  /-- Show internal details in 5xx answers. -/
  developmentMode : Bool := false
deriving DecidableEq

namespace ValidationConfig

/-- The error status has to be 4xx. -/
def check (c : ValidationConfig) : Except ConfigError Unit :=
  if 400 ≤ c.errorStatus ∧ c.errorStatus < 500 then .ok ()
  else .error (.invalidErrorStatus c.errorStatus)

/-- The configuration as stored. -/
def toJson (c : ValidationConfig) : Json :=
  .obj [("strict_objects", .bool c.strictObjects), ("verify_output", .bool c.verifyOutput),
    ("error_status", Json.ofNat c.errorStatus), ("development_mode", .bool c.developmentMode)]

/-- Reads a stored configuration; every field has to be there. -/
def ofJson? (v : Json) : Option ValidationConfig := do
  let r ← Record.ofJson? ["strict_objects", "verify_output", "error_status", "development_mode"] v
  let strictObjects ← r.required "strict_objects" Record.bool?
  let verifyOutput ← r.required "verify_output" Record.bool?
  let errorStatus ← r.required "error_status" Record.nat16?
  let developmentMode ← r.required "development_mode" Record.bool?
  return { strictObjects, verifyOutput, errorStatus, developmentMode }

theorem check_eq_ok_iff (c : ValidationConfig) :
    c.check = .ok () ↔ 400 ≤ c.errorStatus ∧ c.errorStatus ≤ 499 := by
  unfold check
  split <;> rename_i h
  · simp; omega
  · simp; omega

end ValidationConfig

/-! ## Documents -/

/-- The caller's parts of a document. -/
structure DocumentConfig where
  /-- Title of the interface. -/
  title : String := "API"
  /-- Version of the interface. -/
  version : String := "1.0.0"
  /-- Description of the interface. -/
  description : Option String := none
  /-- Addresses of servers. -/
  servers : List String := []
  /-- Values merged over the generated document. -/
  overrides : Json := .obj []

namespace DocumentConfig

/-- The title must not be blank, and the overrides have to be an object or null. -/
def check (c : DocumentConfig) : Except ConfigError Unit :=
  if (Text.trim c.title).isEmpty then .error .emptyTitle
  else match c.overrides with
    | .obj _ | .null => .ok ()
    | _ => .error .invalidOverrides

/-- The configuration as stored. -/
def toJson (c : DocumentConfig) : Json :=
  Json.ofFields [("title", some (.str c.title)), ("version", some (.str c.version)),
    ("description", c.description.map .str), ("servers", some (.arr (c.servers.map .str))),
    ("overrides", some c.overrides)]

/-- Reads a stored configuration; missing overrides are null. -/
def ofJson? (v : Json) : Option DocumentConfig := do
  let r ← Record.ofJson? ["title", "version", "description", "servers", "overrides"] v
  let title ← r.required "title" Record.string?
  let version ← r.required "version" Record.string?
  let description ← r.nullable "description" Record.string?
  let servers ← r.orElse "servers" [] (Record.list? Record.string?)
  let overrides ← r.orElse "overrides" .null some
  return { title, version, description, servers, overrides }

end DocumentConfig

/-! ## Rendered types -/

/-- The two directions by name. -/
def Direction.words : List (String × Direction) := [("decode", .decode), ("encode", .encode)]

/-- Reads a stored direction. -/
def Direction.ofJson? : Json → Option Direction := Record.word? Direction.words

/-- How types are rendered. -/
structure RenderConfig where
  /-- Unit of indentation. -/
  indent : String := "  "
  /-- Which side of a codec is rendered: `encode` for the wire side. -/
  direction : Direction := .encode
  /-- Whether declarations are exported. -/
  exportTypes : Bool := true
deriving DecidableEq

namespace RenderConfig

/-- The configuration as stored. -/
def toJson (c : RenderConfig) : Json :=
  .obj [("indent", .str c.indent), ("direction", .str c.direction.name),
    ("export_types", .bool c.exportTypes)]

/-- Reads a stored configuration; every field has to be there. -/
def ofJson? (v : Json) : Option RenderConfig := do
  let r ← Record.ofJson? ["indent", "direction", "export_types"] v
  let indent ← r.required "indent" Record.string?
  let direction ← r.required "direction" Direction.ofJson?
  let exportTypes ← r.required "export_types" Record.bool?
  return { indent, direction, exportTypes }

end RenderConfig

end RouteContract
