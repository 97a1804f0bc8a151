import RouteContract.Http.Message

/-!
# Faults -- errors that reach the client

A handler answers with a `Fault`: a code, a message and perhaps details. The code fixes the status.
`Fault.sanitize` is what keeps internals inside: outside development mode a server error loses its
message and its details, and nothing else changes.
-/

namespace RouteContract

/-- What kind of error it is. -/
inductive FaultCode where
  | badRequest
  | unauthorized
  | forbidden
  | notFound
  | validationError
  | conflict
  | internalError
  | notImplemented
  | serializationError
  | responseValidationError
deriving DecidableEq

namespace FaultCode

/-- All codes. -/
def all : List FaultCode :=
  [badRequest, unauthorized, forbidden, notFound, validationError, conflict, internalError,
    notImplemented, serializationError, responseValidationError]

/-- Name on the wire. -/
def name : FaultCode → String
  | badRequest => "BAD_REQUEST"
  | unauthorized => "UNAUTHORIZED"
  | forbidden => "FORBIDDEN"
  | notFound => "NOT_FOUND"
  | validationError => "VALIDATION_ERROR"
  | conflict => "CONFLICT"
  | internalError => "INTERNAL_ERROR"
  | notImplemented => "NOT_IMPLEMENTED"
  | serializationError => "SERIALIZATION_ERROR"
  | responseValidationError => "RESPONSE_VALIDATION_ERROR"

/-- Status of the response. -/
def status : FaultCode → Nat
  | badRequest => 400
  | unauthorized => 401
  | forbidden => 403
  | notFound => 404
  | validationError => 400
  | conflict => 409
  | internalError => 500
  | notImplemented => 501
  | serializationError => 500
  | responseValidationError => 500

/-- Whether the server is to blame. -/
def isServerError (c : FaultCode) : Bool := decide (500 ≤ c.status)

/-- The code of a name. -/
def ofName? (text : String) : Option FaultCode := all.find? fun c => c.name == text

/-- Reads a stored code. -/
def ofJson? : Json → Option FaultCode := Record.word? (all.map fun c => (c.name, c))

theorem mem_all (c : FaultCode) : c ∈ all := by cases c <;> decide

end FaultCode

/-- An error answered to the client. -/
structure Fault where
  /-- Kind of error. -/
  code : FaultCode
  /-- Message for the reader. -/
  message : String
  /-- Further details. -/
  details : Option Json := none

namespace Fault

def badRequest (message : String) : Fault := { code := .badRequest, message }
def unauthorized (message : String) : Fault := { code := .unauthorized, message }
def forbidden (message : String) : Fault := { code := .forbidden, message }
def notFound (message : String) : Fault := { code := .notFound, message }
def validation (message : String) : Fault := { code := .validationError, message }
def conflict (message : String) : Fault := { code := .conflict, message }
def internal (message : String) : Fault := { code := .internalError, message }
def serialization (message : String) : Fault := { code := .serializationError, message }

/-- A value that cannot be turned into JSON or out of it. -/
def ofJsonError (reason : String) : Fault := serialization ("JSON error: " ++ reason)

/-- One line for logs and terminals. -/
def display (f : Fault) : String := "[" ++ f.code.name ++ "] " ++ f.message

/-- Takes the internals out of a server error, unless developing. -/
def sanitize (f : Fault) (developmentMode : Bool) : Fault :=
  if !developmentMode && f.code.isServerError then
    { code := f.code, message := "An internal error occurred" }
  else f

/-- The error as stored. -/
def toJson (f : Fault) : Json :=
  Json.ofFields [("code", some (.str f.code.name)), ("message", some (.str f.message)),
    ("details", f.details)]

/-- Reads a stored error. -/
def ofJson? (v : Json) : Option Fault := do
  let r ← Record.ofJson? ["code", "message", "details"] v
  let code ← r.required "code" FaultCode.ofJson?
  let message ← r.required "message" Record.string?
  let details ← r.optional "details" some
  return { code, message, details }

/-- The response that carries the error. -/
def toResponse (f : Fault) : Response := .json f.code.status (.obj [("error", f.toJson)])

/-! ## Laws -/

@[simp] theorem sanitize_code (f : Fault) (developmentMode : Bool) :
    (f.sanitize developmentMode).code = f.code := by
  unfold sanitize
  split <;> rfl

theorem sanitize_of_client (f : Fault) (developmentMode : Bool)
    (h : f.code.isServerError = false) : f.sanitize developmentMode = f := by
  simp [sanitize, h]

end Fault

end RouteContract
