import RouteContract.Bindings.TypeExpr
import RouteContract.Registry
import RouteContract.Schema.Basic

/-!
# Rendering schemas as types

Types are rendered for one side of every codec: the wire side or the program side, on which the
value of a custom codec is unknown. A lazy definition is declared once under its name, by the same
registry that keeps shared definitions of documents.
-/

namespace RouteContract

/-- Rendering with a registry of declarations. -/
abbrev Render (α : Type) := StateM (Registry String) α

namespace Render

/-- A type that also admits null, unless it admits anything. -/
def orNull {σ : Type} (kind : Kind σ) (required : Bool) (type : TypeExpr) : TypeExpr :=
  match kind with
  | .any => type
  | _ => if required then type else .union [type.text, "null"]

mutual

/-- Type of a schema; `follow` declares the definition of a name and a target. -/
def schema (side : Direction) (follow : String → String → Render Unit) : Schema → Render TypeExpr
  | ⟨kind, required, _, _⟩ => do
    let type ← shape side follow kind
    return orNull kind required type
termination_by structural s => s

/-- Type of a shape. -/
def shape (side : Direction) (follow : String → String → Render Unit) :
    Kind Schema → Render TypeExpr
  | .number => return { text := "number" }
  | .string => return { text := "string" }
  | .boolean => return { text := "boolean" }
  | .any => return { text := "any" }
  | .enum options => return .union (options.map Json.text)
  | .oneOf options => return .union (← list side follow options)
  | .array items => return (← schema side follow items).array
  | .object properties => return .object (← members side follow properties)
  | .map values => return (← schema side follow values).record
  | .lazy name target => do
    follow name target
    return { text := name }
  | .transform encoded decoded _ _ =>
    match side with
    | .encode => nested side follow encoded
    | .decode => nested side follow decoded
  | .custom _ parent _ =>
    match side with
    | .encode => nested side follow parent
    | .decode => return { text := "unknown" }
termination_by structural k => k

/-- Type of the shape of a schema inside a codec. -/
def nested (side : Direction) (follow : String → String → Render Unit) : Schema → Render TypeExpr
  | ⟨kind, _, _, _⟩ => shape side follow kind
termination_by structural s => s

/-- Texts of the types of a list of schemas, in order. -/
def list (side : Direction) (follow : String → String → Render Unit) :
    List Schema → Render (List String)
  | [] => return []
  | s :: rest => do
    let type ← schema side follow s
    let others ← list side follow rest
    return type.text :: others
termination_by structural l => l

/-- Members of an object type, in order. -/
def members (side : Direction) (follow : String → String → Render Unit) :
    List (String × Schema) → Render (List String)
  | [] => return []
  | (name, s) :: rest => do
    let type ← schema side follow s
    let others ← members side follow rest
    return TypeExpr.member name s.description s.required type :: others
termination_by structural l => l

end

/-- Declares the definition of a name, with at most the given number inside each other. -/
def followUpTo (defs : Definitions) (side : Direction) : Nat → String → String → Render Unit
  | 0, _, _ => return ()
  | depth + 1, name, target =>
    Registry.define name do
      return (← schema side (followUpTo defs side depth) (defs.resolve target)).text

/-- Text of the type of a schema. -/
def render (defs : Definitions) (side : Direction) (s : Schema) : Render String := do
  return (← schema side (followUpTo defs side (defs.nestingBound s)) s).text

end Render

end RouteContract
