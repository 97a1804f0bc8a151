import RouteContract.Validation.Validator

/-!
# Recording -- a traversal that writes one report

`Traversal` returns what it found. Here the same traversal is written the way it is carried out with
one report at hand: every failure is pushed to that report where it is noticed, and what is handed
back is the value or the mark that it failed, without a reason. Siblings all write to the report one
after the other. An option of a union without discriminator is tried on a report of its own, which is
thrown away.

Nothing forces mark and report to agree here: a rule could mark a failure without a message, or let
a message of a rejected option stand.
-/

namespace RouteContract

/-- What a recording computation comes to: a value or the mark that it failed, with the report as it
is then, or no end. -/
inductive Recorded (α : Type) where
  /-- The computation succeeded. -/
  | done (value : α) (report : Report)
  /-- The computation failed; why stands in the report. -/
  | failed (report : Report)
  /-- The computation does not end. -/
  | looping

/-- A computation that writes to the report it is given. -/
abbrev Recording (α : Type) := Report → Recorded α

/-- What a schema does with a value at a path, writing to a report; the value may be absent. -/
abbrev Recorder := String → Option Json → Recording (Option Json)

namespace Recording

variable {α β : Type}

/-- Succeeds and writes nothing. -/
def done (a : α) : Recording α := fun report => .done a report

/-- Writes a message and marks the failure. -/
def fail (path message : String) : Recording α := fun report => .failed (report.push path message)

/-- Continues with a result, on the report as it is then. -/
def bind (x : Recording α) (f : α → Recording β) : Recording β := fun report =>
  match x report with
  | .done a report => f a report
  | .failed report => .failed report
  | .looping => .looping

/-- Applies a function to a result. -/
def map (f : α → β) (x : Recording α) : Recording β := x.bind fun a => done (f a)

/-- Carries out siblings one after the other. None is skipped, and the failure of one marks the
failure of all. -/
def siblings : List (Recording α) → Recording (List α)
  | [] => done []
  | x :: rest => fun report =>
    match x report with
    | .done a report => map (a :: ·) (siblings rest) report
    | .failed report =>
      match siblings rest report with
      | .done _ report => .failed report
      | .failed report => .failed report
      | .looping => .looping
    | .looping => .looping

/-- Succeeds with the value itself, or reports that it has the wrong type. -/
def expect (ok : Bool) (expected : String) (path : String) (input : Json) : Recording Json :=
  if ok then done input
  else fail path ("expected " ++ expected ++ ", received " ++ input.typeName)

/-- Hands a present value on; a result that is absent counts as null. -/
def present (visit : Recorder) (path : String) (input : Json) : Recording Json :=
  (visit path (some input)).map fun output => output.getD .null

end Recording

/-- What a recording traversal needs to know besides schema and value. -/
structure Scribe where
  /-- Strictness and output checks. -/
  config : ValidationConfig
  /-- Direction in which codecs run. -/
  direction : Direction
  /-- How the results of codecs are verified; nothing if codecs are not applied. -/
  verify? : Option (Schema → String → Json → Recording Json)
  /-- Visits a present value by the definition of a target. -/
  follow : String → String → Json → Recording Json

namespace Scribe

open Recording

/-! ## Rules of the shapes -/

/-- The value that a refinement judges. -/
def programValue? (s : Scribe) (isCodec : Bool) (input output : Json) : Option Json :=
  match s.direction, isCodec with
  | .encode, true => if s.verify?.isSome then some input else none
  | _, _ => some output

/-- What a refinement makes of a visited node. -/
def judged (s : Scribe) (isCodec : Bool) (refinement : Option Refinement) (path : String)
    (input output : Json) : Recording (Option Json) :=
  match s.programValue? isCodec input output, refinement with
  | some v, some refine =>
    match refine v with
    | .ok () => done (some output)
    | .error message => fail path message
  | _, _ => done (some output)

/-- Rule of a node. -/
def node (s : Scribe) (isCodec required : Bool) (refinement : Option Refinement)
    (visit : String → Json → Recording Json) : Recorder := fun path value =>
  match value with
  | none | some .null => if required then fail path "is required" else done value
  | some input => (visit path input).bind (s.judged isCodec refinement path input)

/-- Rule of an enum. -/
def enum (options : List Json) (path : String) (input : Json) : Recording Json :=
  if options.any fun option => Json.literalsEqual option input then done input
  else fail path ("expected one of " ++ Json.listText options)

/-- Rule of an array. -/
def array (items : Recorder) (path : String) (input : Json) : Recording Json :=
  match input.elements? with
  | none => expect false "array" path input
  | some xs =>
    (siblings (xs.zipIdx.map fun x =>
      present items (Visit.elementPath path x.2) x.1)).map .arr

/-- Rule of an object. -/
def object (s : Scribe) (properties : List (String × Recorder)) (path : String) (input : Json) :
    Recording Json :=
  match input.members? with
  | none => expect false "object" path input
  | some ms =>
    let declared := properties.map fun property =>
      (property.2 (Visit.childPath path property.1) (Entries.get? ms property.1)).map fun output =>
        (property.1, output)
    let unknown := (ms.filter fun m => !Entries.has properties m.1).map fun m =>
      if s.config.strictObjects then
        fail (Visit.childPath path m.1) "is not a known property"
      else done (m.1, some m.2)
    (siblings (declared ++ unknown)).map Json.ofFields

/-- Rule of a map. -/
def map (values : Recorder) (path : String) (input : Json) : Recording Json :=
  match input.members? with
  | none => expect false "object" path input
  | some ms =>
    (siblings (ms.map fun m =>
      (present values (Visit.childPath path m.1) m.2).map fun output => (m.1, output))).map .obj

/-- Rule of a discriminated union. -/
def tagged (key : String) (options : List (Schema × Recorder)) (path : String) (input : Json) :
    Recording Json :=
  match input.members? with
  | none => expect false "object" path input
  | some ms =>
    let tagPath := Visit.childPath path key
    let expected := "expected one of " ++ Json.listText (Schema.tags (options.map Prod.fst) key)
    match Entries.get? ms key with
    | none => fail tagPath ("is required; " ++ expected)
    | some tag =>
      match options.find? fun option => option.1.selects key tag with
      | none => fail tagPath expected
      | some option => present option.2 path input

/-- Tries options in order, each on a report of its own; if none accepts the value, the message is
written to the report at hand. -/
def attempt (path : String) (input : Json) (message : String) : List Recorder → Recording Json
  | [] => fail path message
  | visit :: rest => fun report =>
    match present visit path input {} with
    | .done output _ => .done output report
    | .failed _ => attempt path input message rest report
    | .looping => .looping

/-- Rule of a union without discriminator. -/
def untagged (options : List Recorder) (path : String) (input : Json) : Recording Json :=
  attempt path input
    ("does not match any of the " ++ toString options.length ++ " allowed options") options

/-- Rule of a union. -/
def oneOf (options : List Schema) (recorders : List Recorder) : String → Json → Recording Json :=
  match Schema.discriminator? options with
  | some key => tagged key (options.zip recorders)
  | none => untagged recorders

/-- Applies a codec function. -/
def convert (conversion : Conversion) (path : String) (input : Json) : Recording Json :=
  match conversion input with
  | .ok output => done output
  | .error message => fail path message

/-- Rule of a transform. -/
def transform (s : Scribe) (outputSide : Schema) (input output : Recorder) (conversion : Conversion)
    (path : String) (value : Json) : Recording Json :=
  match s.verify? with
  | none => present output path value
  | some verify =>
    (present input path value).bind fun accepted =>
      (convert conversion path accepted).bind fun converted =>
        if s.config.verifyOutput then (verify outputSide path converted).map fun _ => converted
        else done converted

/-- Rule of a custom codec. -/
def custom (s : Scribe) (parent : Recorder) (decode : Conversion) (path : String) (value : Json) :
    Recording Json :=
  match s.direction, s.verify? with
  | .decode, some _ => (present parent path value).bind fun accepted => convert decode path accepted
  | .decode, none => done value
  | .encode, _ => present parent path value

/-! ## The recursion -/

mutual

/-- The recorder of a schema. -/
def recorder (s : Scribe) : Schema → Recorder
  | ⟨kind, required, refinement, _⟩ => s.node kind.isCodec required refinement (s.shape kind)
termination_by structural schema => schema

/-- What a shape does with a present value. -/
def shape (s : Scribe) : Kind Schema → String → Json → Recording Json
  | .number => fun path input => expect input.isNumber "number" path input
  | .string => fun path input => expect input.isString "string" path input
  | .boolean => fun path input => expect input.isBool "boolean" path input
  | .any => fun _ input => done input
  | .enum options => enum options
  | .oneOf options => oneOf options (s.recorders options)
  | .array items => array (s.recorder items)
  | .object properties => s.object (s.propertyRecorders properties)
  | .map values => map (s.recorder values)
  | .lazy _ target => s.follow target
  | .transform encoded decoded decode encode =>
    match s.direction with
    | .decode => s.transform decoded (s.recorder encoded) (s.recorder decoded) decode
    | .encode => s.transform encoded (s.recorder decoded) (s.recorder encoded) encode
  | .custom _ parent decode => s.custom (s.recorder parent) decode
termination_by structural kind => kind

/-- The recorders of a list of schemas. -/
def recorders (s : Scribe) : List Schema → List Recorder
  | [] => []
  | schema :: rest => s.recorder schema :: s.recorders rest
termination_by structural schemas => schemas

/-- The recorders of a list of properties. -/
def propertyRecorders (s : Scribe) : List (String × Schema) → List (String × Recorder)
  | [] => []
  | (key, schema) :: rest => (key, s.recorder schema) :: s.propertyRecorders rest
termination_by structural properties => properties

end

/-! ## Following references -/

/-- Follows references through a family of recorders, one level at a time. -/
def levels (defs : Definitions) (scribe : (String → String → Json → Recording Json) → Scribe) :
    Nat → Schema → Recorder
  | 0 => (scribe fun _ _ _ _ => .looping).recorder
  | hops + 1 =>
    (scribe fun target => present (levels defs scribe hops (defs.resolve target))).recorder

variable (defs : Definitions) (config : ValidationConfig) (direction : Direction)

/-- Checks a value without applying codecs. -/
def check (schema : Schema) : Recorder := fun path value =>
  levels defs (fun follow => { config, direction, verify? := none, follow })
    (Traversal.hopBudget defs value) schema path value

/-- Checks a value and applies codecs, whose results are checked on the same report. -/
def run (schema : Schema) : Recorder := fun path value =>
  levels defs (fun follow =>
    { config, direction, verify? := some fun side => present (check defs config direction side),
      follow })
    (Traversal.hopBudget defs value) schema path value

end Scribe

/-! ## The answer -/

/-- The answer of a validator: the value if the traversal succeeded and nothing was recorded, and
the report otherwise. -/
def Recorded.answer {α : Type} : Recorded α → Outcome Report α
  | .done value report => if report.isEmpty then .ok value else .failed report
  | .failed report => .failed report
  | .looping => .looping

end RouteContract
