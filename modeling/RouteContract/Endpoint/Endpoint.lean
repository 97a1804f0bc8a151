import RouteContract.Endpoint.Metadata
import RouteContract.Endpoint.Reply

/-!
# Endpoints -- handlers behind schemas

An endpoint decodes the four sections of a request, each by its own schema and independently of the
others. If any of them is rejected, the handler is not run and the answer lists the issues of every
rejected section; otherwise the handler runs on exactly the decoded sections. A fault that the
handler returns is sanitized on its way out.

A request whose sections are not decoded to an end, or whose handler never ends, has no response.

What is logged on the way, and the spans around a request, are left out: nothing reads them back.
-/

namespace RouteContract

/-! ## Rejected requests -/

/-- Issues of a rejected request by section; a section without a list was not rejected. -/
structure RequestErrors where
  /-- Issues of the path parameters. -/
  params : Option (List Issue) := none
  /-- Issues of the query. -/
  query : Option (List Issue) := none
  /-- Issues of the body. -/
  body : Option (List Issue) := none
  /-- Issues of the headers. -/
  headers : Option (List Issue) := none

namespace RequestErrors

/-- The issues as stored, rejected sections only. -/
def toJson (e : RequestErrors) : Json :=
  let list (issues : List Issue) : Json := .arr (issues.map Issue.toJson)
  Json.ofFields [("params", e.params.map list), ("query", e.query.map list),
    ("body", e.body.map list), ("headers", e.headers.map list)]

/-- Reads stored issues. -/
def ofJson? (v : Json) : Option RequestErrors := do
  let r ← Record.ofJson? ["params", "query", "body", "headers"] v
  let params ← r.optional "params" (Record.list? Issue.ofJson?)
  let query ← r.optional "query" (Record.list? Issue.ofJson?)
  let body ← r.optional "body" (Record.list? Issue.ofJson?)
  let headers ← r.optional "headers" (Record.list? Issue.ofJson?)
  return { params, query, body, headers }

end RequestErrors

/-! ## Endpoints -/

/-- What an application does with a decoded request; it may never end. -/
abbrev Application := TypedRequest → Reply → Option (Except Fault Response)

/-- What a router runs for a request: a handler that gets a fresh id besides, and may never end. -/
abbrev Handler := RequestId → Request → Option Response

/-- An application handler with its schemas. -/
structure Endpoint where
  /-- Identity of the endpoint; registrations of one endpoint share it. -/
  name : String
  /-- Declared schemas. -/
  metadata : Metadata := {}
  /-- Definitions that the schemas refer to. -/
  definitions : Definitions := {}
  /-- Configuration of all validators. -/
  config : ValidationConfig := {}
  /-- Rejected requests are answered with a 4xx status. -/
  statusIs4xx : 400 ≤ config.errorStatus ∧ config.errorStatus ≤ 499 := by decide
  /-- The application. -/
  application : Application

namespace Endpoint

/-- The same endpoint under another configuration, which has to pass its check. -/
def withConfig (e : Endpoint) (config : ValidationConfig) : Except ConfigError Endpoint :=
  match h : config.check with
  | .ok () => .ok { e with config, statusIs4xx := config.check_eq_ok_iff.1 h }
  | .error error => .error error

/-- Validator of one section. -/
def validator (e : Endpoint) (direction : Direction) (schema : Schema) : Validator :=
  { schema, definitions := e.definitions, direction, config := e.config }

/-- Decodes a section; one without a schema is passed on as it is. -/
def decodeSection (e : Endpoint) (schema : Option Schema) (value : Option Json) :
    Outcome Report (Option Json) :=
  match schema with
  | none => .ok value
  | some s => (e.validator .decode s).validateOptional value

/-- Decodes all sections of a request. -/
def decodeRequest (e : Endpoint) (fresh : RequestId) (r : Request) :
    Outcome RequestErrors TypedRequest :=
  let params := e.decodeSection e.metadata.params (some (.obj r.params))
  let query := e.decodeSection e.metadata.query (some (.obj r.query))
  let headers := e.decodeSection e.metadata.headers (some (.obj r.headers))
  let body := e.decodeSection e.metadata.body r.body
  let issues (o : Outcome Report (Option Json)) : Option (List Issue) :=
    o.reason?.map Report.issues
  match params, query, headers, body with
  | .looping, _, _, _ | _, .looping, _, _ | _, _, .looping, _ | _, _, _, .looping => .looping
  | .ok params, .ok query, .ok headers, .ok body =>
    .ok {
      method := r.method, path := r.path, requestId := RequestId.ofHeaders r.headers fresh
      params := params.getD .null, query := query.getD .null, headers := headers.getD .null, body }
  | params, query, headers, body =>
    .failed {
      params := issues params, query := issues query, body := issues body
      headers := issues headers }

/-- What handlers of the endpoint reply through. -/
def reply (e : Endpoint) : Reply :=
  { response := e.metadata.response.map (e.validator .encode)
    developmentMode := e.config.developmentMode }

/-- The response to the result of the handler. -/
def answer (e : Endpoint) : Except Fault Response → Response
  | .ok response => response
  | .error fault => (fault.sanitize e.config.developmentMode).toResponse

/-- Answers a request. -/
def serve (e : Endpoint) : Handler := fun fresh r =>
  match e.decodeRequest fresh r with
  | .failed errors => some (.json e.config.errorStatus (.obj [("errors", errors.toJson)]))
  | .looping => none
  | .ok typed => (e.application typed e.reply).map e.answer

/-! ## Activation -/

/-- What an endpoint hands to a router when it is activated. -/
structure Activation where
  /-- Declared schemas. -/
  metadata : Metadata
  /-- Handler to run for requests. -/
  handler : Handler

/-- The activation of an endpoint, the same however often it is asked for. -/
def activate (e : Endpoint) : Activation := ⟨e.metadata, e.serve⟩

end Endpoint

end RouteContract
