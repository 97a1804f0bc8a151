import RouteContract.Http.Method

/-!
# Requests and responses

A request carries its path parameters, query and headers as named JSON values, and a body that may
be missing. Header names are kept in lower case.
-/

namespace RouteContract

/-! ## Requests -/

/-- An incoming request. -/
structure Request where
  /-- Method. -/
  method : Method
  /-- Path, without the query string. -/
  path : String
  /-- Path parameters found by the router. -/
  params : Entries Json := []
  /-- Query parameters. -/
  query : Entries Json := []
  /-- Headers by lower-case name. -/
  headers : Entries Json := []
  /-- Body, if one was sent. -/
  body : Option Json := none

namespace Request

/-- Sets a path parameter. -/
def withParam (r : Request) (name : String) (value : Json) : Request :=
  { r with params := r.params.put name value }

/-- Sets a query parameter. -/
def withQuery (r : Request) (name : String) (value : Json) : Request :=
  { r with query := r.query.put name value }

/-- Sets a header; its name is stored with ASCII letters in lower case. -/
def withHeader (r : Request) (name : String) (value : Json) : Request :=
  { r with headers := r.headers.put (String.ofList (name.toList.map Char.toLower)) value }

/-- Sets the body. -/
def withBody (r : Request) (body : Json) : Request := { r with body := some body }

/-- The request as stored. -/
def toJson (r : Request) : Json :=
  Json.ofFields [("method", some (.str r.method.lower)), ("path", some (.str r.path)),
    ("params", some (.obj r.params)), ("query", some (.obj r.query)),
    ("headers", some (.obj r.headers)), ("body", r.body)]

/-- Reads a stored request; a null body is no body. -/
def ofJson? (v : Json) : Option Request := do
  let r ← Record.ofJson? ["method", "path", "params", "query", "headers", "body"] v
  let method ← r.required "method" Method.ofJson?
  let path ← r.required "path" Record.string?
  let params ← r.orElse "params" [] Json.members?
  let query ← r.orElse "query" [] Json.members?
  let headers ← r.orElse "headers" [] Json.members?
  let body ← r.nullable "body" some
  return { method, path, params, query, headers, body }

end Request

/-! ## Responses -/

/-- An outgoing response. -/
structure Response where
  /-- Status code. -/
  status : Nat
  /-- Body, if there is one. -/
  body : Option Json := none

namespace Response

/-- A response with a body. -/
def json (status : Nat) (body : Json) : Response := ⟨status, some body⟩

/-- A response without a body. -/
def empty (status : Nat) : Response := ⟨status, none⟩

/-- Whether the status is 2xx. -/
def isSuccess (r : Response) : Bool := decide (200 ≤ r.status) && decide (r.status < 300)

/-- The response as stored. -/
def toJson (r : Response) : Json :=
  Json.ofFields [("status", some (Json.ofNat r.status)), ("body", r.body)]

/-- Reads a stored response; a null body is no body. -/
def ofJson? (v : Json) : Option Response := do
  let r ← Record.ofJson? ["status", "body"] v
  let status ← r.required "status" Record.nat16?
  let body ← r.nullable "body" some
  return { status, body }

end Response

end RouteContract
