import RouteContract.Decimal.Literal
import RouteContract.Json.Text
import RouteContract.Schema.Basic
import RouteContract.Text.Blank

/-!
# Casts -- scalars carried as strings

Path, query and header values arrive as strings. The three casts are transforms from `string` to
`number` or `boolean`: numbers and integers are read after trimming blanks, booleans exactly. On the
way back a number is written as JSON writes it.
-/

namespace RouteContract

namespace Cast

/-! ## Conversions -/

/-- Applies a reader to a string and refuses everything else. -/
def onString (read : String → Except String Json) : Conversion
  | .str s => read s
  | _ => .error "expected a string"

/-- A number in text: a signed 64-bit integer if it is one, else the nearest double. -/
def number? (s : String) : Option Number :=
  match Decimal.int64? s.toList with
  | some n => some (.int n)
  | none => (Decimal.binary64? s.toList).map .float

/-- Reads a number, blanks around it allowed. -/
def readNumber (s : String) : Except String Json :=
  let text := Text.trim s
  match number? text with
  | some n => .ok (.num n)
  | none => .error ("'" ++ text ++ "' is not a number")

/-- Reads a signed 64-bit integer, blanks around it allowed. -/
def readInteger (s : String) : Except String Json :=
  let text := Text.trim s
  match Decimal.int64? text.toList with
  | some n => .ok (.num (.int n))
  | none => .error ("'" ++ text ++ "' is not an integer")

/-- Reads one of the two words for booleans. -/
def readBoolean (s : String) : Except String Json :=
  if s = "true" then .ok (.bool true)
  else if s = "false" then .ok (.bool false)
  else .error ("'" ++ s ++ "' is not a boolean, expected 'true' or 'false'")

/-- Writes a number. -/
def writeNumber : Conversion
  | .num n => .ok (.str n.text)
  | _ => .error "expected a number"

/-- Writes a boolean. -/
def writeBoolean : Conversion
  | .bool b => .ok (.str (if b then "true" else "false"))
  | _ => .error "expected a boolean"

/-- Accepts integers only. -/
def integerOnly : Refinement
  | .num (.int _) => .ok ()
  | _ => .error "expected an integer"

end Cast

namespace Schema

/-- A number carried as a string. -/
def castNumber : Schema :=
  ofKind (.transform string number (Cast.onString Cast.readNumber) Cast.writeNumber)

/-- An integer carried as a string. -/
def castInteger : Schema :=
  ofKind (.transform string (number.refine Cast.integerOnly) (Cast.onString Cast.readInteger)
    Cast.writeNumber)

/-- A boolean carried as a string. -/
def castBoolean : Schema :=
  ofKind (.transform string boolean (Cast.onString Cast.readBoolean) Cast.writeBoolean)

end Schema

end RouteContract
