import RouteContract.Config
import RouteContract.Json.Text
import RouteContract.Schema.Codec
import RouteContract.Schema.Union
import RouteContract.Validation.Outcome
import RouteContract.Validation.Report

/-!
# Traversal -- checking a value against a schema, running codecs on the way

Every schema becomes a `Visitor`, a function from a path and a value to an outcome; the recursion on
the schema only assembles visitors, and each shape has one rule that says how its visitor is made
from those of its parts. Siblings are all visited, so that one pass reports every failure; unions
and codecs stop at the first.

A traversal runs in one of two modes. In `Mode.run` codecs are applied, and what they produce is
checked against their output side. In `Mode.check` no codec is applied: a value is checked against
the output sides as it stands.

A lazy node leaves the recursion on the schema. `checkUpTo` and `runUpTo` bound the number of lazy
nodes followed in a row, one inside the other, and `hopBudget` is enough for every traversal that
ends: at each part of the value at most as many definitions can be opened as there are, or one of
them would be opened inside itself on the same value.
-/

namespace RouteContract

/-- Outcome of visiting a value. -/
abbrev Visit (α : Type) := Outcome (List Finding) α

/-- What a schema does with a value at a path; the value may be absent. -/
abbrev Visitor := String → Option Json → Visit (Option Json)

/-- Whether codecs are applied, and if so how their results are checked. -/
inductive Mode where
  /-- The value is checked against the output sides of codecs. -/
  | check
  /-- Codecs are applied and their results verified against the output side. -/
  | run (verify : Schema → String → Json → Visit Json)

/-- What a traversal needs to know besides schema and value. -/
structure Pass where
  /-- Strictness and output checks. -/
  config : ValidationConfig
  /-- Direction in which codecs run. -/
  direction : Direction
  /-- Whether they run. -/
  mode : Mode
  /-- Visits a present value by the definition of a target. -/
  follow : String → String → Json → Visit Json

namespace Visit

variable {α : Type}

/-- Failure with one message. -/
def fail (path message : String) : Visit α := .failed [⟨path, message⟩]

/-- Succeeds with the value itself, or reports that it has the wrong type. -/
def expect (ok : Bool) (expected : String) (path : String) (input : Json) : Visit Json :=
  if ok then .ok input
  else fail path ("expected " ++ expected ++ ", received " ++ input.typeName)

/-- Path of an object member. -/
def childPath (path key : String) : String :=
  if path.isEmpty then key else path ++ "." ++ key

/-- Path of an array element. -/
def elementPath (path : String) (index : Nat) : String := path ++ "[" ++ toString index ++ "]"

/-- Hands a present value on to a visitor; a result that is absent counts as null. -/
def present (visit : Visitor) (path : String) (input : Json) : Visit Json :=
  (visit path (some input)).map fun output => output.getD .null

end Visit

namespace Pass

/-! ## Rules of the shapes -/

/-- The value that a refinement judges: the program value. For a codec that encodes this is its
input, which a check of outputs does not have. -/
def programValue? (p : Pass) (isCodec : Bool) (input output : Json) : Option Json :=
  match p.direction, isCodec with
  | .encode, true =>
    match p.mode with
    | .run _ => some input
    | .check => none
  | _, _ => some output

/-- Rule of a node: null and absent values are refused or passed through as they are, all others go
to the shape and then to the refinement. -/
def node (p : Pass) (isCodec required : Bool) (refinement : Option Refinement)
    (visit : String → Json → Visit Json) : Visitor := fun path value =>
  match value with
  | none | some .null => if required then Visit.fail path "is required" else .ok value
  | some input =>
    (visit path input).bind fun output =>
      match p.programValue? isCodec input output, refinement with
      | some v, some refine =>
        match refine v with
        | .ok () => .ok (some output)
        | .error message => Visit.fail path message
      | _, _ => .ok (some output)

/-- Rule of an enum: the value equals one of the literals. -/
def enum (options : List Json) (path : String) (input : Json) : Visit Json :=
  if options.any fun option => Json.literalsEqual option input then .ok input
  else Visit.fail path ("expected one of " ++ Json.listText options)

/-- Rule of an array: every element, in order. -/
def array (items : Visitor) (path : String) (input : Json) : Visit Json :=
  match input.elements? with
  | none => Visit.expect false "array" path input
  | some xs =>
    (Outcome.gather (xs.zipIdx.map fun x =>
      Visit.present items (Visit.elementPath path x.2) x.1)).map .arr

/-- Rule of an object: the declared properties in declaration order, then the other members in input
order, which are carried through or, if objects are strict, refused. -/
def object (p : Pass) (properties : List (String × Visitor)) (path : String) (input : Json) :
    Visit Json :=
  match input.members? with
  | none => Visit.expect false "object" path input
  | some ms =>
    let declared := properties.map fun property =>
      (property.2 (Visit.childPath path property.1) (Entries.get? ms property.1)).map fun output =>
        (property.1, output)
    let unknown := (ms.filter fun m => !Entries.has properties m.1).map fun m =>
      if p.config.strictObjects then
        Visit.fail (Visit.childPath path m.1) "is not a known property"
      else .ok (m.1, some m.2)
    (Outcome.gather (declared ++ unknown)).map Json.ofFields

/-- Rule of a map: every member, in input order. -/
def map (values : Visitor) (path : String) (input : Json) : Visit Json :=
  match input.members? with
  | none => Visit.expect false "object" path input
  | some ms =>
    (Outcome.gather (ms.map fun m =>
      (Visit.present values (Visit.childPath path m.1) m.2).map fun output => (m.1, output))).map
        .obj

/-- Rule of a discriminated union: the tag selects the branch, and nothing else is tried. -/
def tagged (key : String) (options : List (Schema × Visitor)) (path : String) (input : Json) :
    Visit Json :=
  match input.members? with
  | none => Visit.expect false "object" path input
  | some ms =>
    let tagPath := Visit.childPath path key
    let expected := "expected one of " ++ Json.listText (Schema.tags (options.map Prod.fst) key)
    match Entries.get? ms key with
    | none => Visit.fail tagPath ("is required; " ++ expected)
    | some tag =>
      match options.find? fun option => option.1.selects key tag with
      | none => Visit.fail tagPath expected
      | some option => Visit.present option.2 path input

/-- The first visitor that accepts the value decides; if none does, nothing is said about why. -/
def firstAccepting (path : String) (input : Json) : List Visitor → Visit Json
  | [] => .failed []
  | visit :: rest =>
    match Visit.present visit path input with
    | .ok output => .ok output
    | .looping => .looping
    | .failed _ => firstAccepting path input rest

/-- Rule of a union without discriminator: ordered trial. -/
def untagged (options : List Visitor) (path : String) (input : Json) : Visit Json :=
  match firstAccepting path input options with
  | .failed _ =>
    Visit.fail path
      ("does not match any of the " ++ toString options.length ++ " allowed options")
  | outcome => outcome

/-- Rule of a union. -/
def oneOf (options : List Schema) (visitors : List Visitor) : String → Json → Visit Json :=
  match Schema.discriminator? options with
  | some key => tagged key (options.zip visitors)
  | none => untagged visitors

/-- Applies a codec function; its message is reported where the codec stands. -/
def convert (conversion : Conversion) (path : String) (input : Json) : Visit Json :=
  match conversion input with
  | .ok output => .ok output
  | .error message => Visit.fail path message

/-- Rule of a transform. Running it checks the input side, converts, and has the result verified
against the output side; checking it is checking the output side. -/
def transform (p : Pass) (outputSide : Schema) (input output : Visitor) (conversion : Conversion)
    (path : String) (value : Json) : Visit Json :=
  match p.mode with
  | .check => Visit.present output path value
  | .run verify =>
    (Visit.present input path value).bind fun accepted =>
      (convert conversion path accepted).bind fun converted =>
        if p.config.verifyOutput then (verify outputSide path converted).map fun _ => converted
        else .ok converted

/-- Rule of a custom codec. Decoded values have no schema to be checked against; encoding checks the
value against the parent. -/
def custom (p : Pass) (parent : Visitor) (decode : Conversion) (path : String) (value : Json) :
    Visit Json :=
  match p.direction, p.mode with
  | .decode, .run _ => (Visit.present parent path value).bind fun accepted =>
      convert decode path accepted
  | .decode, .check => .ok value
  | .encode, _ => Visit.present parent path value

/-! ## The recursion -/

mutual

/-- The visitor of a schema. -/
def visitor (p : Pass) : Schema → Visitor
  | ⟨kind, required, refinement, _⟩ => p.node kind.isCodec required refinement (p.shape kind)
termination_by structural s => s

/-- What a shape does with a present value. -/
def shape (p : Pass) : Kind Schema → String → Json → Visit Json
  | .number => fun path input => Visit.expect input.isNumber "number" path input
  | .string => fun path input => Visit.expect input.isString "string" path input
  | .boolean => fun path input => Visit.expect input.isBool "boolean" path input
  | .any => fun _ input => .ok input
  | .enum options => enum options
  | .oneOf options => oneOf options (p.visitors options)
  | .array items => array (p.visitor items)
  | .object properties => p.object (p.propertyVisitors properties)
  | .map values => map (p.visitor values)
  | .lazy _ target => p.follow target
  | .transform encoded decoded decode encode =>
    match p.direction with
    | .decode => p.transform decoded (p.visitor encoded) (p.visitor decoded) decode
    | .encode => p.transform encoded (p.visitor decoded) (p.visitor encoded) encode
  | .custom _ parent decode => p.custom (p.visitor parent) decode
termination_by structural k => k

/-- The visitors of a list of schemas. -/
def visitors (p : Pass) : List Schema → List Visitor
  | [] => []
  | s :: rest => p.visitor s :: p.visitors rest
termination_by structural l => l

/-- The visitors of a list of properties. -/
def propertyVisitors (p : Pass) : List (String × Schema) → List (String × Visitor)
  | [] => []
  | (key, s) :: rest => (key, p.visitor s) :: p.propertyVisitors rest
termination_by structural l => l

end

theorem visitors_eq_map (p : Pass) (options : List Schema) :
    p.visitors options = options.map p.visitor := by
  induction options with
  | nil => rfl
  | cons s rest ih => simp [visitors, ih]

theorem propertyVisitors_eq_map (p : Pass) (properties : Entries Schema) :
    p.propertyVisitors properties = Entries.mapValues p.visitor properties := by
  induction properties with
  | nil => rfl
  | cons s rest ih =>
    rw [propertyVisitors, ih]
    rfl

end Pass

/-! ## Following references -/

namespace Traversal

/-- Bound on the lazy nodes followed one inside the other for a value. -/
def hopBudget (defs : Definitions) (value : Option Json) : Nat :=
  ((value.map Json.depth).getD 0 + 1) * (defs.size + 1)

/-- Follows references through a family of visitors, one level at a time. -/
def levels (defs : Definitions) (pass : (String → String → Json → Visit Json) → Pass) :
    Nat → Schema → Visitor
  | 0 => (pass fun _ _ _ => .looping).visitor
  | hops + 1 =>
    (pass fun target => Visit.present (levels defs pass hops (defs.resolve target))).visitor

/-- Checks a value without applying codecs, following at most the given number of references. -/
def checkUpTo (defs : Definitions) (config : ValidationConfig) (direction : Direction) :
    Nat → Schema → Visitor :=
  levels defs fun follow => { config, direction, mode := .check, follow }

/-- Checks a value without applying codecs. -/
def check (defs : Definitions) (config : ValidationConfig) (direction : Direction)
    (schema : Schema) : Visitor := fun path value =>
  checkUpTo defs config direction (hopBudget defs value) schema path value

/-- Checks a value and applies codecs, following at most the given number of references. What a
codec produces is checked with a budget of its own. -/
def runUpTo (defs : Definitions) (config : ValidationConfig) (direction : Direction) :
    Nat → Schema → Visitor :=
  levels defs fun follow =>
    { config, direction, follow,
      mode := .run fun side => Visit.present (check defs config direction side) }

/-- Checks a value and applies codecs. -/
def run (defs : Definitions) (config : ValidationConfig) (direction : Direction)
    (schema : Schema) : Visitor := fun path value =>
  runUpTo defs config direction (hopBudget defs value) schema path value

end Traversal

end RouteContract
