import RouteContract.Json.Text

/-!
# Type expressions of TypeScript

A `TypeExpr` is the text of a type together with whether a `|` stands at its top level, which
decides whether an array of it needs parentheses.
-/

namespace RouteContract

/-- Text of a type, and whether it is a union at the top. -/
structure TypeExpr where
  /-- The text. -/
  text : String
  /-- Whether it is a union of several parts. -/
  isUnion : Bool := false
deriving DecidableEq

namespace TypeExpr

/-- The union of some parts; of none it is empty, of one it is that part. -/
def union : List String → TypeExpr
  | [] => { text := "never" }
  | [part] => { text := part }
  | parts => { text := " | ".intercalate parts, isUnion := true }

/-- The array of a type. -/
def array (item : TypeExpr) : TypeExpr :=
  if item.isUnion then { text := "(" ++ item.text ++ ")[]" } else { text := item.text ++ "[]" }

/-- The record of a type. -/
def record (value : TypeExpr) : TypeExpr := { text := "Record<string, " ++ value.text ++ ">" }

/-- Characters that start an identifier. -/
def isIdentifierStart (c : Char) : Bool := c.isAlpha || c == '_' || c == '$'

/-- Characters inside an identifier. -/
def isIdentifierChar (c : Char) : Bool := c.isAlphanum || c == '_' || c == '$'

/-- Whether a name needs no quotes as a property name. -/
def isIdentifier (name : String) : Bool :=
  match name.toList with
  | [] => false
  | c :: rest => isIdentifierStart c && rest.all isIdentifierChar

/-- A property name, quoted unless it is an identifier. -/
def propertyKey (name : String) : String := if isIdentifier name then name else Json.quote name

/-- A member of an object type, with its description as a comment. -/
def member (name : String) (description : Option String) (required : Bool) (type : TypeExpr) :
    String :=
  let comment := match description with
    | some text => "/** " ++ text ++ " */ "
    | none => ""
  comment ++ propertyKey name ++ (if required then "" else "?") ++ ": " ++ type.text

/-- An object type. -/
def object : List String → TypeExpr
  | [] => { text := "\x7b\x7d" }
  | members => { text := "\x7b " ++ "; ".intercalate members ++ " \x7d" }

end TypeExpr

end RouteContract
