import RouteContract.Decimal.Shortest
import RouteContract.Json.Value

/-!
# Compact JSON text

`Json.text` writes a value without blanks, members in insertion order. Strings escape the quote, the
backslash and the characters below U+0020, and nothing else. The same text stands for literals
inside messages, type expressions and quoted keys.
-/

namespace RouteContract

/-- Doubles are written positionally from `1e-5` to just below `1e16`. -/
def Number.layout : DecimalLayout := ⟨-5, 15⟩

/-- Text of a number. -/
def Number.text : Number → String
  | .int n => toString n
  | .float x => x.text Number.layout

namespace Json

/-- Four lower-case hexadecimal digits. -/
def hex4 (n : Nat) : List Char :=
  [n / 4096 % 16, n / 256 % 16, n / 16 % 16, n % 16].map Nat.digitChar

/-- One character inside a quoted string. -/
def escapeChar (c : Char) : List Char :=
  if c = '"' then ['\\', '"']
  else if c = '\\' then ['\\', '\\']
  else if c = '\x08' then ['\\', 'b']
  else if c = '\x0c' then ['\\', 'f']
  else if c = '\n' then ['\\', 'n']
  else if c = '\r' then ['\\', 'r']
  else if c = '\t' then ['\\', 't']
  else if c.toNat < 0x20 then '\\' :: 'u' :: hex4 c.toNat
  else [c]

/-- A quoted string. -/
def quote (s : String) : String := String.ofList ('"' :: (s.toList.flatMap escapeChar ++ ['"']))

mutual

/-- Compact text of a value. -/
def text : Json → String
  | .null => "null"
  | .bool true => "true"
  | .bool false => "false"
  | .num n => n.text
  | .str s => quote s
  | .arr xs => "[" ++ ",".intercalate (elementTexts xs) ++ "]"
  | .obj ms => "\x7b" ++ ",".intercalate (memberTexts ms) ++ "\x7d"

/-- Text of every element. -/
def elementTexts : List Json → List String
  | [] => []
  | x :: rest => text x :: elementTexts rest

/-- Text of every member. -/
def memberTexts : List (String × Json) → List String
  | [] => []
  | (k, v) :: rest => (quote k ++ ":" ++ text v) :: memberTexts rest

end

/-- Literals in brackets, as messages list them. -/
def listText (literals : List Json) : String :=
  "[" ++ ", ".intercalate (literals.map text) ++ "]"

end Json

end RouteContract
