import RouteContract.Validation.Traversal

/-!
# Validators

A `Validator` is a schema with a direction and a configuration. It accepts a value with an output,
or rejects it with a report that names every failing place once.
-/

namespace RouteContract

/-- A schema to validate against in one direction. -/
structure Validator where
  /-- The schema. -/
  schema : Schema
  /-- The definitions its lazy nodes refer to. -/
  definitions : Definitions := {}
  /-- Direction in which codecs run. -/
  direction : Direction := .decode
  /-- Strictness and output checks. -/
  config : ValidationConfig := {}

namespace Validator

/-- Validates a value that may be absent. An absent value is accepted only by a schema that is not
required, and stays absent. -/
def validateOptional (v : Validator) (value : Option Json) : Outcome Report (Option Json) :=
  (Traversal.run v.definitions v.config v.direction v.schema "" value).mapReason Report.ofFindings

/-- Validates a present value. -/
def validate (v : Validator) (value : Json) : Outcome Report Json :=
  (v.validateOptional (some value)).map fun output => output.getD .null

end Validator

end RouteContract
