import RouteContract.Json.Value

/-!
# Schema -- descriptions of JSON values with codecs

A `Schema` describes the shape of a value, whether it may be null or absent, and how it is converted
between its wire form and its program form. It holds no validation or rendering logic; the
traversal, the documentation compiler and the type renderer each recurse on it.

`Kind` is the closed set of shapes, with a parameter for the schemas inside, so that a node is a
plain structure around it. Recursion between schemas goes by name: a `Kind.lazy` node names the
definition that it stands for, and `Definitions` says what each name means.
-/

namespace RouteContract

/-- Conversion of a value, or the message why it cannot be converted. -/
abbrev Conversion := Json → Except String Json

/-- Judgement on a value, or the message why it is refused. -/
abbrev Refinement := Json → Except String Unit

/-- Which way a value travels through the codecs of a schema. -/
inductive Direction where
  /-- From the wire to the program. -/
  | decode
  /-- From the program to the wire. -/
  | encode
deriving DecidableEq

namespace Direction

/-- The opposite direction. -/
def reverse : Direction → Direction
  | decode => encode
  | encode => decode

/-- Name of a direction, as configurations write it. -/
def name : Direction → String
  | decode => "decode"
  | encode => "encode"

@[simp] theorem reverse_reverse (d : Direction) : d.reverse.reverse = d := by cases d <;> rfl

end Direction

/-! ## Schemas -/

/-- The shapes of a schema over schemas `σ`. -/
inductive Kind (σ : Type) where
  /-- Any number. -/
  | number
  /-- Any string. -/
  | string
  /-- `true` or `false`. -/
  | boolean
  /-- Anything. -/
  | any
  /-- One of a fixed list of literals. -/
  | enum (options : List Json)
  /-- One of several schemas. -/
  | oneOf (options : List σ)
  /-- A sequence of values of one schema. -/
  | array (items : σ)
  /-- An object with declared properties, in declaration order. -/
  | object (properties : List (String × σ))
  /-- An object with arbitrary names and values of one schema. -/
  | map (values : σ)
  /-- The definition `target`, documented under `name`. -/
  | lazy (name target : String)
  /-- A codec between a wire schema and a program schema. -/
  | transform (encoded decoded : σ) (decode encode : Conversion)
  /-- A named codec with a decoding function only. -/
  | custom (name : String) (parent : σ) (decode : Conversion)

/-- Name of a shape, as messages write it. -/
def Kind.name {σ : Type} : Kind σ → String
  | number => "number"
  | string => "string"
  | boolean => "boolean"
  | any => "any"
  | enum _ => "enum"
  | oneOf _ => "oneOf"
  | array _ => "array"
  | object _ => "object"
  | map _ => "hashMap"
  | lazy _ _ => "lazy"
  | transform _ _ _ _ => "transform"
  | custom _ _ _ => "customType"

/-- Whether values of the shape are converted by a function of the node itself. -/
def Kind.isCodec {σ : Type} : Kind σ → Bool
  | transform _ _ _ _ | custom _ _ _ => true
  | _ => false

/-- A schema node. -/
structure Schema where
  /-- Shape of the value. -/
  kind : Kind Schema
  /-- Whether null and absent values are refused here. -/
  required : Bool := true
  /-- Judgement on the program value, after the shape has been checked. -/
  refinement : Option Refinement := none
  /-- Text for the documentation. -/
  description : Option String := none

instance : Inhabited Schema := ⟨⟨.any, true, none, none⟩⟩

/-- Induction over a schema with the hypothesis for every schema inside. -/
@[elab_as_elim, induction_eliminator]
theorem Schema.induct {P : Schema → Prop}
    (number : ∀ r f d, P ⟨.number, r, f, d⟩) (string : ∀ r f d, P ⟨.string, r, f, d⟩)
    (boolean : ∀ r f d, P ⟨.boolean, r, f, d⟩) (any : ∀ r f d, P ⟨.any, r, f, d⟩)
    (enum : ∀ options r f d, P ⟨.enum options, r, f, d⟩)
    (oneOf : ∀ options r f d, (∀ s ∈ options, P s) → P ⟨.oneOf options, r, f, d⟩)
    (array : ∀ items r f d, P items → P ⟨.array items, r, f, d⟩)
    (object : ∀ properties r f d, (∀ p ∈ properties, P p.2) → P ⟨.object properties, r, f, d⟩)
    (map : ∀ values r f d, P values → P ⟨.map values, r, f, d⟩)
    (lazy : ∀ name target r f d, P ⟨.lazy name target, r, f, d⟩)
    (transform : ∀ encoded decoded dec enc r f d, P encoded → P decoded →
      P ⟨.transform encoded decoded dec enc, r, f, d⟩)
    (custom : ∀ name parent dec r f d, P parent → P ⟨.custom name parent dec, r, f, d⟩)
    (schema : Schema) : P schema := by
  refine @Schema.rec P (fun k => ∀ r f d, P ⟨k, r, f, d⟩) (fun os => ∀ s ∈ os, P s)
    (fun ps => ∀ p ∈ ps, P p.2) (fun p => P p.2) (fun _ r f d h => h r f d)
    number string boolean any enum (fun os h r f d => oneOf os r f d h)
    (fun s h r f d => array s r f d h) (fun ps h r f d => object ps r f d h)
    (fun s h r f d => map s r f d h) lazy
    (fun e c dec enc he hc r f d => transform e c dec enc r f d he hc)
    (fun n p dec h r f d => custom n p dec r f d h) ?_ ?_ ?_ ?_ ?_ schema
  · simp
  · intro s os hs hos t ht
    rcases List.mem_cons.1 ht with rfl | ht
    · exact hs
    · exact hos t ht
  · simp
  · intro p ps hp hps q hq
    rcases List.mem_cons.1 hq with rfl | hq
    · exact hp
    · exact hps q hq
  · exact fun _ _ h => h

namespace Schema

/-! ## Views -/

/-- The properties of an object schema. -/
def properties? (s : Schema) : Option (Entries Schema) :=
  match s.kind with
  | .object properties => some properties
  | _ => none

/-- One property of an object schema. -/
def property? (s : Schema) (key : String) : Option Schema :=
  s.properties?.bind fun properties => Entries.get? properties key

/-- The literal of an enum with exactly one option. -/
def singleLiteral? (s : Schema) : Option Json :=
  match s.kind with
  | .enum [literal] => some literal
  | _ => none

/-- The verdict of the node's own refinement; without one every value passes. -/
def judge (s : Schema) (v : Json) : Except String Unit :=
  match s.refinement with
  | some refine => refine v
  | none => .ok ()

/-! ## Building -/

/-- A required node of the given shape. -/
def ofKind (kind : Kind Schema) : Schema := { kind }

/-- The same node, accepting null and absent values. -/
def asOptional (s : Schema) : Schema := { s with required := false }

/-- The same node, refusing null and absent values. -/
def asRequired (s : Schema) : Schema := { s with required := true }

/-- The same node with a description. -/
def describe (s : Schema) (text : String) : Schema := { s with description := some text }

/-- The same node with one more refinement; earlier ones judge first. -/
def refine (s : Schema) (judgement : Refinement) : Schema :=
  { s with
    refinement := some (match s.refinement with
      | some earlier => fun v => do earlier v; judgement v
      | none => judgement) }

def number : Schema := ofKind .number
def string : Schema := ofKind .string
def boolean : Schema := ofKind .boolean
def any : Schema := ofKind .any

/-- One of the given literals. -/
def enum (options : List Json) : Schema := ofKind (.enum options)

/-- Exactly the given literal. -/
def literal (value : Json) : Schema := enum [value]

/-- One of the given schemas. -/
def oneOf (options : List Schema) : Schema := ofKind (.oneOf options)

/-- A sequence. -/
def array (items : Schema) : Schema := ofKind (.array items)

/-- An object; of a repeated property the last schema counts, at the first position. -/
def object (properties : List (String × Schema)) : Schema :=
  ofKind (.object (Entries.ofList properties))

/-- An object with arbitrary names. -/
def map (values : Schema) : Schema := ofKind (.map values)

/-- A reference to a definition. -/
def lazy (name target : String) : Schema := ofKind (.lazy name target)

/-! ## References -/

mutual

/-- Number of lazy nodes in a schema. -/
def lazyCount : Schema → Nat
  | ⟨kind, _, _, _⟩ => lazyCountKind kind
termination_by structural s => s

/-- Number of lazy nodes in a shape. -/
def lazyCountKind : Kind Schema → Nat
  | .oneOf options => lazyCountList options
  | .array items => lazyCount items
  | .object properties => lazyCountProperties properties
  | .map values => lazyCount values
  | .lazy _ _ => 1
  | .transform encoded decoded _ _ => lazyCount encoded + lazyCount decoded
  | .custom _ parent _ => lazyCount parent
  | .number | .string | .boolean | .any | .enum _ => 0
termination_by structural k => k

/-- Number of lazy nodes in a list of schemas. -/
def lazyCountList : List Schema → Nat
  | [] => 0
  | s :: rest => lazyCount s + lazyCountList rest
termination_by structural l => l

/-- Number of lazy nodes in a list of properties. -/
def lazyCountProperties : List (String × Schema) → Nat
  | [] => 0
  | (_, s) :: rest => lazyCount s + lazyCountProperties rest
termination_by structural l => l

end

end Schema

/-! ## Definitions -/

/-- The definitions that lazy nodes stand for. -/
structure Definitions where
  /-- Definitions by target name. -/
  entries : Entries Schema := []

namespace Definitions

/-- The definition of a target. A target without one stands for the union of nothing, which accepts
no value. -/
def resolve (defs : Definitions) (target : String) : Schema :=
  (Entries.get? defs.entries target).getD (Schema.oneOf [])

/-- Number of definitions. -/
def size (defs : Definitions) : Nat := defs.entries.length

/-- Number of lazy nodes in all definitions. -/
def lazyCount (defs : Definitions) : Nat := Schema.lazyCountProperties defs.entries

/-- Bound on the definitions opened one inside the other from a schema, as long as no name is opened
inside itself. -/
def nestingBound (defs : Definitions) (s : Schema) : Nat := s.lazyCount + defs.lazyCount

end Definitions

end RouteContract
