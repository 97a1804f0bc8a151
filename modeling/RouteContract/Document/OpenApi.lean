import RouteContract.Config
import RouteContract.Document.Merge
import RouteContract.Document.Operation
import RouteContract.Route.RouteMap
import RouteContract.Route.Segments

/-!
# OpenAPI documents

A document lists the operation of every route under its path and lower-case method, and the shared
definitions under `components`. The caller's overrides are merged in last and win at any depth.
-/

namespace RouteContract

/-- A document before overrides. -/
structure Document where
  /-- Version of the format. -/
  openapi : String := "3.0.0"
  /-- Title of the interface. -/
  title : String
  /-- Description of the interface. -/
  description : Option String
  /-- Version of the interface. -/
  version : String
  /-- Addresses of servers. -/
  servers : List String
  /-- Operations by path and method. -/
  paths : Entries (Entries Operation)
  /-- Shared definitions. -/
  schemas : Entries SchemaObject

namespace Document

/-- Drops the characters at the end of a text that satisfy a test. -/
def dropRightWhile (p : Char → Bool) (cs : List Char) : List Char :=
  (cs.reverse.dropWhile p).reverse

/-- One part of a template as documents write it: a parameter stands in braces, without the mark of
an optional one. -/
def pathPart (part : String) : String :=
  match part.toList with
  | ':' :: name => "\x7b" ++ String.ofList (dropRightWhile (fun c => c == '?') name) ++ "\x7d"
  | _ => part

/-- A template as documents write it. -/
def pathOf (template : String) : String := "/".intercalate ((Path.split template).map pathPart)

/-- Adds an operation. -/
def addOperation (paths : Entries (Entries Operation)) (path : String) (method : Method)
    (o : Operation) : Entries (Entries Operation) :=
  paths.put path (((paths.get? path).getD []).put method.lower o)

/-- Operations of all routes, in order; the first endpoint that cannot be described is the error. -/
def compilePaths (defs : Definitions) : List (RouteEntry Metadata) → Entries (Entries Operation) →
    ExceptT DocumentError Describe (Entries (Entries Operation))
  | [], paths => return paths
  | e :: rest, paths => do
    let o ← Describe.operation defs e.template e.method e.payload
    compilePaths defs rest (addOperation paths (pathOf e.template) e.method o)

/-- The document of a map of routes. -/
def build (defs : Definitions) (routes : RouteMap Metadata) (config : DocumentConfig) :
    Except DocumentError Document :=
  let (result, registry) := (compilePaths defs routes.entries []).run {}
  result.map fun paths => {
    title := config.title, description := config.description, version := config.version
    servers := config.servers, paths, schemas := registry.entries }

/-! ## Stored form -/

/-- The document as stored. -/
def toJson (d : Document) : Json :=
  Json.ofFields [
    ("openapi", some (.str d.openapi)),
    ("info", some (Json.ofFields [("title", some (.str d.title)),
      ("description", d.description.map .str), ("version", some (.str d.version))])),
    ("servers", SchemaObject.nonEmpty (d.servers.map fun url => .obj [("url", .str url)])),
    ("paths", some (.obj (d.paths.mapValues fun operations =>
      .obj (operations.mapValues Operation.toJson)))),
    ("components", some (.obj [("schemas", .obj (d.schemas.mapValues SchemaObject.toJson))]))]

/-- Reads the address of a stored server. -/
def serverOfJson? (v : Json) : Option String := do
  (← Record.ofJson? ["url"] v).required "url" Record.string?

/-- Reads the stored components. -/
def componentsOfJson? (v : Json) : Option (Entries SchemaObject) := do
  (← Record.ofJson? ["schemas"] v).orElse "schemas" [] (Record.entries? SchemaObject.ofJson?)

/-- Reads a stored document. -/
def ofJson? (v : Json) : Option Document := do
  let r ← Record.ofJson? ["openapi", "info", "servers", "paths", "components"] v
  let openapi ← r.required "openapi" Record.string?
  let info ← r.required "info" (Record.ofJson? ["title", "description", "version"])
  let title ← info.required "title" Record.string?
  let description ← info.optional "description" Record.string?
  let version ← info.required "version" Record.string?
  let servers ← r.orElse "servers" [] (Record.list? serverOfJson?)
  let paths ← r.required "paths" (Record.entries? (Record.entries? Operation.ofJson?))
  let schemas ← r.required "components" componentsOfJson?
  return { openapi, title, description, version, servers, paths, schemas }

end Document

/-- The document of a map of routes as a value, overrides merged in. Overrides that are not an
object have no effect. -/
def openApiDocument (defs : Definitions) (routes : RouteMap Metadata) (config : DocumentConfig) :
    Except DocumentError Json :=
  (Document.build defs routes config).map fun d =>
    match config.overrides with
    | .obj overrides => d.toJson.merge (.obj overrides)
    | _ => d.toJson

end RouteContract
