import RouteContract.Decimal.Literal
import RouteContract.Json.Text

/-!
# Shapes -- reading typed values out of JSON, with reasons

A program that reads its own structures out of a decoded section says what it expected and what it
found. `ShapeError` lists the reasons, and the readers give them.
-/

namespace RouteContract

/-- Why a value cannot be read as what the program expects. -/
inductive ShapeError where
  /-- The value has another type. -/
  | wrongType (found : Json) (expected : String)
  /-- The number lies outside the expected range. -/
  | outOfRange (found : Json) (expected : String)
  /-- An object lacks a field. -/
  | missingField (name : String)
  /-- An array has the wrong number of elements. -/
  | wrongLength (found : Nat) (expected : String)

namespace ShapeError

/-- How messages name a value. -/
def found : Json → String
  | .null => "null"
  | .bool b => "boolean `" ++ (if b then "true" else "false") ++ "`"
  | .num (.int n) => "integer `" ++ toString n ++ "`"
  | .num (.float x) => "floating point `" ++ x.text Number.layout ++ "`"
  | .str s => "string " ++ Json.quote s
  | .arr _ => "sequence"
  | .obj _ => "map"

/-- Text of a shape error. -/
def message : ShapeError → String
  | wrongType v expected => "invalid type: " ++ found v ++ ", expected " ++ expected
  | outOfRange v expected => "invalid value: " ++ found v ++ ", expected " ++ expected
  | missingField name => "missing field `" ++ name ++ "`"
  | wrongLength n expected => "invalid length " ++ toString n ++ ", expected " ++ expected

end ShapeError

namespace Shape

/-- Reads a string. -/
def string : Json → Except ShapeError String
  | .str s => .ok s
  | v => .error (.wrongType v "a string")

/-- Reads a signed 64-bit integer. -/
def int64 : Json → Except ShapeError Int
  | .num (.int n) =>
    if n ≤ Decimal.greatestInt64 then .ok n else .error (.outOfRange (.num (.int n)) "i64")
  | v => .error (.wrongType v "i64")

/-- Reads null as nothing and everything else by a reader. -/
def nullable {α : Type} (read : Json → Except ShapeError α) : Json → Except ShapeError (Option α)
  | .null => .ok none
  | v => (read v).map some

end Shape

end RouteContract
