import RouteContract.Document.Compiler
import RouteContract.Endpoint.Metadata
import RouteContract.Http.Method

/-!
# Operations of a document

An operation describes one endpoint: the properties of its params, query and headers schemas become
parameters, its body and response schemas become JSON contents. A params, query or headers schema
that is not an object has no parameters to describe and is refused.
-/

namespace RouteContract

/-- Where a parameter is read from. -/
inductive ParameterLocation where
  | path
  | query
  | header
deriving DecidableEq

namespace ParameterLocation

/-- Name of a location in documents. -/
def name : ParameterLocation → String
  | path => "path"
  | query => "query"
  | header => "header"

/-- Reads a stored location. -/
def ofJson? : Json → Option ParameterLocation :=
  Record.word? [("path", path), ("query", query), ("header", header)]

end ParameterLocation

/-- A parameter of an operation. -/
structure Parameter where
  /-- Name of the parameter. -/
  name : String
  /-- Where it is read from. -/
  location : ParameterLocation
  /-- Whether it must be present. -/
  required : Bool
  /-- Its schema on the wire. -/
  schema : SchemaObject

/-- Schemas by media type. -/
abbrev Content := Entries SchemaObject

/-- The body of a request. -/
structure RequestBody where
  /-- Whether it must be present. -/
  required : Bool
  /-- What it holds. -/
  content : Content

/-- A response of an operation. -/
structure ResponseObject where
  /-- Description of the response. -/
  description : String
  /-- What it holds, if anything is declared. -/
  content : Option Content

/-- The description of one endpoint. -/
structure Operation where
  /-- Path, query and header parameters. -/
  parameters : List Parameter
  /-- Body of the request. -/
  requestBody : Option RequestBody
  /-- Responses by status. -/
  responses : Entries ResponseObject

/-- A section of an endpoint that cannot be described. -/
structure DocumentError where
  /-- Template of the route. -/
  template : String
  /-- Method of the route. -/
  method : Method
  /-- The section that should be an object. -/
  sectionName : String
  /-- Kind of its schema. -/
  found : String
deriving DecidableEq

namespace DocumentError

/-- What is wrong with the section. -/
def reason (e : DocumentError) : String :=
  e.sectionName ++ " schema must be an object, found " ++ e.found

/-- Text of a document error. -/
def message (e : DocumentError) : String :=
  e.method.upper ++ " " ++ e.template ++ ": " ++ e.reason

end DocumentError

/-! ## Stored form -/

/-- Content as stored. -/
def Content.toJson (c : Content) : Json :=
  .obj (c.mapValues fun schema => .obj [("schema", schema.toJson)])

/-- Reads stored content. -/
def Content.ofJson? : Json → Option Content :=
  Record.entries? fun v => do
    (← Record.ofJson? ["schema"] v).required "schema" SchemaObject.ofJson?

namespace Parameter

/-- The parameter as stored. -/
def toJson (p : Parameter) : Json :=
  .obj [("name", .str p.name), ("in", .str p.location.name), ("required", .bool p.required),
    ("schema", p.schema.toJson)]

/-- Reads a stored parameter. -/
def ofJson? (v : Json) : Option Parameter := do
  let r ← Record.ofJson? ["name", "in", "required", "schema"] v
  let name ← r.required "name" Record.string?
  let location ← r.required "in" ParameterLocation.ofJson?
  let required ← r.required "required" Record.bool?
  let schema ← r.required "schema" SchemaObject.ofJson?
  return { name, location, required, schema }

end Parameter

namespace RequestBody

/-- The body as stored. -/
def toJson (b : RequestBody) : Json :=
  .obj [("required", .bool b.required), ("content", b.content.toJson)]

/-- Reads a stored body. -/
def ofJson? (v : Json) : Option RequestBody := do
  let r ← Record.ofJson? ["required", "content"] v
  let required ← r.required "required" Record.bool?
  let content ← r.required "content" Content.ofJson?
  return { required, content }

end RequestBody

namespace ResponseObject

/-- The response as stored. -/
def toJson (r : ResponseObject) : Json :=
  Json.ofFields [("description", some (.str r.description)),
    ("content", r.content.map Content.toJson)]

/-- Reads a stored response. -/
def ofJson? (v : Json) : Option ResponseObject := do
  let r ← Record.ofJson? ["description", "content"] v
  let description ← r.required "description" Record.string?
  let content ← r.optional "content" Content.ofJson?
  return { description, content }

end ResponseObject

namespace Operation

/-- The operation as stored. -/
def toJson (o : Operation) : Json :=
  Json.ofFields [
    ("parameters", SchemaObject.nonEmpty (o.parameters.map Parameter.toJson)),
    ("requestBody", o.requestBody.map RequestBody.toJson),
    ("responses", some (.obj (o.responses.mapValues ResponseObject.toJson)))]

/-- Reads a stored operation. -/
def ofJson? (v : Json) : Option Operation := do
  let r ← Record.ofJson? ["parameters", "requestBody", "responses"] v
  let parameters ← r.orElse "parameters" [] (Record.list? Parameter.ofJson?)
  let requestBody ← r.optional "requestBody" RequestBody.ofJson?
  let responses ← r.required "responses" (Record.entries? ResponseObject.ofJson?)
  return { parameters, requestBody, responses }

end Operation

/-! ## Compiling -/

namespace Describe

/-- The media type of all contents. -/
def jsonMediaType : String := "application/json"

/-- Content of one schema. -/
def content (defs : Definitions) (s : Schema) : Describe Content := do
  return [(jsonMediaType, ← compile defs s)]

/-- Parameters of the properties of a section, in order. -/
def parameters (defs : Definitions) (location : ParameterLocation) :
    List (String × Schema) → Describe (List Parameter)
  | [] => return []
  | (name, s) :: rest => do
    let compiled ← compile defs s
    let others ← parameters defs location rest
    return ⟨name, location, s.required, compiled⟩ :: others

/-- Parameters of a section, which has to be an object if it is declared. -/
def sectionParameters (defs : Definitions) (template : String) (method : Method)
    (location : ParameterLocation) (sectionName : String) (s : Option Schema) :
    ExceptT DocumentError Describe (List Parameter) :=
  match s with
  | none => return []
  | some s =>
    match s.properties? with
    | none => throw ⟨template, method, sectionName, s.kind.name⟩
    | some properties => parameters defs location properties

/-- Compiles the operation of one endpoint. -/
def operation (defs : Definitions) (template : String) (method : Method) (m : Metadata) :
    ExceptT DocumentError Describe Operation := do
  let path ← sectionParameters defs template method .path "params" m.params
  let query ← sectionParameters defs template method .query "query" m.query
  let header ← sectionParameters defs template method .header "headers" m.headers
  let requestBody ← m.body.mapM fun body => do
    return { required := body.required, content := ← content defs body : RequestBody }
  let response ← m.response.mapM fun response => do
    return ← content defs response
  return {
    parameters := path ++ query ++ header, requestBody
    responses := [("200", ⟨"Successful response", response⟩)] }

end Describe

end RouteContract
