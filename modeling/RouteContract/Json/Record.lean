import RouteContract.Json.Value

/-!
# Records -- structures stored as JSON

A structure is stored as an object with one member per field, or as an array with the fields in
order. `Record` is the view common to both, and the readers say what a missing field means: an
error, an absent value or a default. Unknown members are ignored, surplus elements are refused. An
array may only leave out trailing fields that have a default.
-/

namespace RouteContract

/-- The stored fields of a structure. -/
structure Record where
  /-- Stored values by field name. -/
  fields : Entries Json
  /-- Whether the fields were stored by position. -/
  positional : Bool

namespace Record

/-- The record in a value, for a structure with the given field names. -/
def ofJson? (names : List String) : Json → Option Record
  | .obj ms => some ⟨ms, false⟩
  | .arr xs => if xs.length ≤ names.length then some ⟨names.zip xs, true⟩ else none
  | _ => none

variable {α : Type}

/-- A field that has to be stored. -/
def required (r : Record) (key : String) (read : Json → Option α) : Option α :=
  (Entries.get? r.fields key).bind read

/-- A field that may be null or, in an object, missing. -/
def optional (r : Record) (key : String) (read : Json → Option α) : Option (Option α) :=
  match Entries.get? r.fields key with
  | none => if r.positional then none else some none
  | some .null => some none
  | some v => (read v).map some

/-- A field with a default for when it is missing. -/
def orElse (r : Record) (key : String) (default : α) (read : Json → Option α) : Option α :=
  match Entries.get? r.fields key with
  | none => some default
  | some v => read v

/-- A field that may be null or missing in either form. -/
def nullable (r : Record) (key : String) (read : Json → Option α) : Option (Option α) :=
  match Entries.get? r.fields key with
  | none | some .null => some none
  | some v => (read v).map some

/-! ## Readers of single values -/

def bool? : Json → Option Bool
  | .bool b => some b
  | _ => none

def string? : Json → Option String := Json.string?

/-- An unsigned 16-bit number. -/
def nat16? : Json → Option Nat
  | .num (.int n) => if 0 ≤ n ∧ n < 65536 then some n.toNat else none
  | _ => none

/-- A list of values. -/
def list? (read : Json → Option α) : Json → Option (List α)
  | .arr xs => xs.mapM read
  | _ => none

/-- Values by name. -/
def entries? (read : Json → Option α) : Json → Option (Entries α)
  | .obj ms => ms.mapM fun m => (read m.2).map fun v => (m.1, v)
  | _ => none

/-- A word out of a list of named values. The word may also be the name of a single null member. -/
def word? (words : List (String × α)) : Json → Option α
  | .str s => Entries.get? words s
  | .obj [(s, .null)] => Entries.get? words s
  | _ => none

end Record

end RouteContract
