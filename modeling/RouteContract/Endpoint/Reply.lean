import RouteContract.Endpoint.RequestId
import RouteContract.Http.Fault
import RouteContract.Validation.Validator

/-!
# What a handler sees and sends

A handler gets the decoded sections of its request as a `TypedRequest` and answers through a
`Reply`, which encodes values by the response schema. A value that does not match the schema is an
error of the server: the client gets a fault, with the issues only in development mode. Where encoding
a value never ends, nothing is sent.
-/

namespace RouteContract

/-- A request after decoding. -/
structure TypedRequest where
  /-- Method. -/
  method : Method
  /-- Path of the request. -/
  path : String
  /-- Id of the request. -/
  requestId : RequestId
  /-- Decoded path parameters. -/
  params : Json
  /-- Decoded query. -/
  query : Json
  /-- Decoded headers. -/
  headers : Json
  /-- Decoded body, if one was sent. -/
  body : Option Json

namespace TypedRequest

variable {α : Type}

/-- Reads a section by a reader whose errors become faults. -/
def readSection (read : Json → Except String α) (value : Json) : Except Fault α :=
  (read value).mapError Fault.ofJsonError

/-- Reads the path parameters. -/
def readParams (r : TypedRequest) (read : Json → Except String α) : Except Fault α :=
  readSection read r.params

/-- Reads the query. -/
def readQuery (r : TypedRequest) (read : Json → Except String α) : Except Fault α :=
  readSection read r.query

/-- Reads the headers. -/
def readHeaders (r : TypedRequest) (read : Json → Except String α) : Except Fault α :=
  readSection read r.headers

/-- Reads the body; a missing one is read as null. -/
def readBody (r : TypedRequest) (read : Json → Except String α) : Except Fault α :=
  readSection read (r.body.getD .null)

end TypedRequest

/-- Writes responses through the response schema of an endpoint. -/
structure Reply where
  /-- Validator of the response schema, if one is declared. -/
  response : Option Validator := none
  /-- Whether faults keep their internals. -/
  developmentMode : Bool := false
  /-- Status of the response. -/
  status : Nat := 200

namespace Reply

/-- Sets the status. -/
def withStatus (r : Reply) (status : Nat) : Reply := { r with status }

/-- The fault for a value that the response schema rejects. -/
def mismatch (report : Report) : Fault :=
  { code := .responseValidationError
    message := "Response does not match its declared schema"
    details := some report.toJson }

/-- Sends a value as it is. -/
def sendRaw (r : Reply) (value : Json) : Response := .json r.status value

/-- Encodes a value by the response schema and sends it; there is no response if that never ends. -/
def sendTransformed (r : Reply) (value : Json) : Option Response :=
  match r.response with
  | none => some (r.sendRaw value)
  | some validator =>
    match validator.validate value with
    | .ok encoded => some (.json r.status encoded)
    | .failed report => some ((mismatch report).sanitize r.developmentMode).toResponse
    | .looping => none

/-- Sends what a value is turned into, or the fault that it cannot be turned into JSON. -/
def sendTyped (r : Reply) (written : Except String Json) : Option Response :=
  match written with
  | .ok value => r.sendTransformed value
  | .error reason => some ((Fault.ofJsonError reason).sanitize r.developmentMode).toResponse

end Reply

end RouteContract
