import RouteContract.Proofs.Validation.Places
import RouteContract.Validation.Recording

/-!
# Recording -- the mark of failure and the report are in step

A recording traversal is the pure one, written to the report at hand: what a visit returns as its
findings is exactly what the recording of it adds (`Pass.recorder_eq`). Every rule of the recording
traversal is matched with the rule of the pure one; a message left out or let stand would break the
match.

A visit that fails has findings, so a recording traversal that succeeds leaves the report as it was,
and one that fails leaves it with more messages than before, the earlier ones in their places.
-/

namespace RouteContract

namespace Visit

variable {α β : Type}

/-- The visit, written to a report. -/
def recorded (visit : Visit α) : Recording α := fun report =>
  match visit with
  | .ok a => .done a report
  | .failed findings => .failed (report.record findings)
  | .looping => .looping

theorem recorded_bind (visit : Visit α) (next : α → Visit β) :
    (recorded visit).bind (fun a => recorded (next a)) = recorded (visit.bind next) := by
  cases visit <;> rfl

theorem recorded_map (visit : Visit α) (f : α → β) :
    (recorded visit).map f = recorded (visit.map f) := by
  cases visit <;> rfl

theorem recorded_expect (ok : Bool) (expected path : String) (v : Json) :
    Recording.expect ok expected path v = recorded (expect ok expected path v) := by
  cases ok <;> rfl

/-- Siblings write what they say together, one after the other. -/
theorem siblings_recorded {ι : Type} (xs : List ι) (visit : ι → Visit α) :
    Recording.siblings (xs.map fun x => recorded (visit x)) =
      recorded (Outcome.gather (xs.map visit)) := by
  funext report
  induction xs generalizing report with
  | nil => rfl
  | cons x rest ih =>
      rw [List.map_cons, List.map_cons, Recording.siblings, Outcome.gather]
      generalize visit x = visited
      cases visited with
      | looping => rfl
      | ok a =>
          simp only [recorded, Recording.map, Recording.bind, ih]
          cases Outcome.gather (rest.map visit) <;> rfl
      | failed findings =>
          simp only [recorded, ih]
          cases Outcome.gather (rest.map visit) with
          | failed more => simp [Outcome.gatherCons, Report.record_append]
          | _ => rfl

end Visit

/-- The visitor, writing to a report. -/
def Visitor.recorded (visit : Visitor) : Recorder := fun path value =>
  Visit.recorded (visit path value)

theorem Visitor.present_recorded (visit : Visitor) (path : String) (v : Json) :
    Recording.present visit.recorded path v = Visit.recorded (Visit.present visit path v) :=
  Visit.recorded_map _ _

/-- The pass, writing to a report. -/
def Pass.scribe (p : Pass) : Scribe where
  config := p.config
  direction := p.direction
  verify? :=
    match p.mode with
    | .check => none
    | .run verify => some fun side path v => Visit.recorded (verify side path v)
  follow target path v := Visit.recorded (p.follow target path v)

namespace Scribe

variable {p : Pass} {path : String} {v : Json}

/-! ## The rules -/

theorem judged_recorded (isCodec : Bool) (refinement : Option Refinement) (output : Json) :
    p.scribe.judged isCodec refinement path v output =
      Visit.recorded (p.judged isCodec refinement path v output) := by
  have hprogram : p.scribe.programValue? isCodec v output = p.programValue? isCodec v output := by
    unfold programValue? Pass.programValue? Pass.scribe
    cases p.direction <;> cases isCodec <;> cases p.mode <;> rfl
  unfold judged Pass.judged
  rw [hprogram]
  cases p.programValue? isCodec v output with
  | none => rfl
  | some x =>
      cases refinement with
      | none => rfl
      | some refine =>
          simp only
          cases refine x <;> rfl

theorem node_recorded (isCodec required : Bool) (refinement : Option Refinement)
    (visit : String → Json → Visit Json) (value : Option Json) :
    p.scribe.node isCodec required refinement (fun path v => Visit.recorded (visit path v)) path value =
      Visit.recorded (p.node isCodec required refinement visit path value) := by
  rcases absent_or_present value with hv | ⟨v, rfl, hne⟩
  · rcases hv with rfl | rfl <;> cases required <;> rfl
  · have hpresent : p.scribe.node isCodec required refinement
        (fun path v => Visit.recorded (visit path v)) path (some v) =
          (Visit.recorded (visit path v)).bind (p.scribe.judged isCodec refinement path v) := by
      cases v <;> first | rfl | exact absurd rfl hne
    rw [hpresent, Pass.node_present hne, ← Visit.recorded_bind]
    exact congrArg _ (funext fun output => judged_recorded isCodec refinement output)

theorem enum_recorded (options : List Json) :
    enum options path v = Visit.recorded (Pass.enum options path v) := by
  unfold enum Pass.enum
  split <;> rfl

theorem array_recorded (items : Visitor) :
    array items.recorded path v = Visit.recorded (Pass.array items path v) := by
  cases v with
  | arr xs =>
      simp only [array, Pass.array, Json.elements?, Visitor.present_recorded, Visit.siblings_recorded,
        Visit.recorded_map]
  | _ => rfl

theorem map_recorded (values : Visitor) :
    map values.recorded path v = Visit.recorded (Pass.map values path v) := by
  cases v with
  | obj ms =>
      simp only [map, Pass.map, Json.members?, Visitor.present_recorded, Visit.recorded_map,
        Visit.siblings_recorded]
  | _ => rfl

/-- Properties, writing to a report. -/
def recordedProperties (properties : List (String × Visitor)) : List (String × Recorder) :=
  properties.map fun property => (property.1, property.2.recorded)

theorem object_recorded (properties : List (String × Visitor)) :
    p.scribe.object (recordedProperties properties) path v =
      Visit.recorded (p.object properties path v) := by
  cases v with
  | obj ms =>
      have hhas : ∀ key, Entries.has (recordedProperties properties) key =
          Entries.has properties key := Entries.has_mapValues _ _
      let visits : List (Visit (String × Option Json)) :=
        (properties.map fun property =>
          (property.2 (Visit.childPath path property.1) (Entries.get? ms property.1)).map
            fun output => (property.1, output)) ++
        (ms.filter fun m => !Entries.has properties m.1).map fun m =>
          if p.config.strictObjects then
            Visit.fail (Visit.childPath path m.1) "is not a known property"
          else .ok (m.1, some m.2)
      show _ = Visit.recorded ((Outcome.gather visits).map Json.ofFields)
      rw [← Visit.recorded_map, ← List.map_id visits, ← Visit.siblings_recorded, object]
      simp only [Json.members?, hhas]
      refine congrArg (fun all => Recording.map Json.ofFields (Recording.siblings all)) ?_
      simp only [visits, recordedProperties, List.map_append, List.map_map]
      refine congrArg₂ (· ++ ·) (List.map_congr_left fun property _ => ?_)
        (List.map_congr_left fun m _ => ?_)
      · exact Visit.recorded_map _ _
      · show (if p.config.strictObjects then _ else _) = Visit.recorded (if _ then _ else _)
        split <;> rfl
  | _ => rfl

theorem tagged_recorded (key : String) (options : List (Schema × Visitor)) :
    tagged key (options.map fun option => (option.1, option.2.recorded)) path v =
      Visit.recorded (Pass.tagged key options path v) := by
  cases v with
  | obj ms =>
      simp only [tagged, Pass.tagged, Json.members?, List.map_map, Function.comp_def, List.find?_map]
      cases Entries.get? ms key with
      | none => rfl
      | some tag =>
          simp only
          cases options.find? fun option => option.1.selects key tag with
          | none => rfl
          | some option => exact Visitor.present_recorded option.2 path _
  | _ => rfl

theorem attempt_recorded (message : String) (visitors : List Visitor) :
    attempt path v message (visitors.map Visitor.recorded) =
      Visit.recorded (match Pass.firstAccepting path v visitors with
        | .failed _ => Visit.fail path message
        | outcome => outcome) := by
  funext report
  induction visitors with
  | nil => rfl
  | cons visit rest ih =>
      rw [List.map_cons, attempt, Pass.firstAccepting, Visitor.present_recorded]
      cases Visit.present visit path v with
      | failed findings => exact ih
      | _ => rfl

theorem untagged_recorded (visitors : List Visitor) :
    untagged (visitors.map Visitor.recorded) path v =
      Visit.recorded (Pass.untagged visitors path v) := by
  unfold untagged Pass.untagged
  rw [List.length_map]
  exact attempt_recorded _ visitors

theorem convert_recorded (conversion : Conversion) :
    convert conversion path v = Visit.recorded (Pass.convert conversion path v) := by
  unfold convert Pass.convert
  cases conversion v <;> rfl

theorem transform_recorded (side : Schema) (input output : Visitor) (conversion : Conversion) :
    p.scribe.transform side input.recorded output.recorded conversion path v =
      Visit.recorded (p.transform side input output conversion path v) := by
  unfold transform Pass.transform Pass.scribe
  cases p.mode with
  | check => exact Visitor.present_recorded output path v
  | run verify =>
      simp only [← Visit.recorded_bind, Visitor.present_recorded, convert_recorded]
      refine congrArg (Recording.bind _) (funext fun accepted => ?_)
      refine congrArg (Recording.bind _) (funext fun converted => ?_)
      split
      · exact Visit.recorded_map _ _
      · rfl

theorem custom_recorded (parent : Visitor) (decode : Conversion) :
    p.scribe.custom parent.recorded decode path v =
      Visit.recorded (p.custom parent decode path v) := by
  unfold custom Pass.custom Pass.scribe
  cases p.direction with
  | encode => exact Visitor.present_recorded parent path v
  | decode =>
      cases p.mode with
      | check => rfl
      | run verify =>
          simp only [← Visit.recorded_bind, Visitor.present_recorded, convert_recorded]

/-! ## The recursion -/

theorem recorders_eq_map (s : Scribe) (options : List Schema) :
    s.recorders options = options.map s.recorder := by
  induction options with
  | nil => rfl
  | cons option rest ih => rw [recorders, ih, List.map_cons]

theorem propertyRecorders_eq_map (s : Scribe) (properties : Entries Schema) :
    s.propertyRecorders properties = Entries.mapValues s.recorder properties := by
  induction properties with
  | nil => rfl
  | cons property rest ih => rw [propertyRecorders, ih]; rfl

/-- **The recording traversal is the pure one, written to the report at hand.** -/
theorem recorder_eq (p : Pass) (s : Schema) : p.scribe.recorder s = (p.visitor s).recorded := by
  have hnode : ∀ {kind required refinement description},
      (∀ path v, p.scribe.shape kind path v = Visit.recorded (p.shape kind path v)) →
      p.scribe.recorder ⟨kind, required, refinement, description⟩ =
        (p.visitor ⟨kind, required, refinement, description⟩).recorded := by
    intro kind required refinement description hshape
    funext path value
    have hvisit : p.scribe.shape kind = fun path v => Visit.recorded (p.shape kind path v) :=
      funext fun path => funext fun v => hshape path v
    show p.scribe.node _ _ _ (p.scribe.shape kind) path value = Visit.recorded (p.node _ _ _ _ path value)
    rw [hvisit]
    exact node_recorded _ _ _ _ _
  induction s with
  | number | string | boolean => exact hnode fun path v => Visit.recorded_expect _ _ path v
  | any | lazy name target => exact hnode fun path v => rfl
  | enum options => exact hnode fun path v => enum_recorded options
  | oneOf options r f d ih =>
      refine hnode fun path v => ?_
      have hrecorders : p.scribe.recorders options = (p.visitors options).map Visitor.recorded := by
        rw [recorders_eq_map, Pass.visitors_eq_map, List.map_map]
        exact List.map_congr_left ih
      show oneOf options (p.scribe.recorders options) path v = Visit.recorded (Pass.oneOf _ _ path v)
      rw [hrecorders]
      unfold oneOf Pass.oneOf
      cases Schema.discriminator? options with
      | none => exact untagged_recorded _
      | some key =>
          simp only
          rw [List.zip_map_right]
          exact tagged_recorded key _
  | array items r f d ih =>
      refine hnode fun path v => ?_
      show array (p.scribe.recorder items) path v = _
      rw [ih]
      exact array_recorded _
  | object properties r f d ih =>
      refine hnode fun path v => ?_
      have hproperties : p.scribe.propertyRecorders properties =
          recordedProperties (p.propertyVisitors properties) := by
        rw [propertyRecorders_eq_map, Pass.propertyVisitors_eq_map, recordedProperties,
          Entries.mapValues, Entries.mapValues, List.map_map]
        exact List.map_congr_left fun property hmem => by rw [ih property hmem]; rfl
      show p.scribe.object (p.scribe.propertyRecorders properties) path v = _
      rw [hproperties]
      exact object_recorded _
  | map values r f d ih =>
      refine hnode fun path v => ?_
      show map (p.scribe.recorder values) path v = _
      rw [ih]
      exact map_recorded _
  | transform encoded decoded dec enc r f d ihe ihc =>
      refine hnode fun path v => ?_
      cases hdir : p.direction with
      | decode =>
          rw [Pass.shape_transform_decode hdir, ← transform_recorded, ← ihe, ← ihc, shape,
            show p.scribe.direction = .decode from hdir]
      | encode =>
          rw [Pass.shape_transform_encode hdir, ← transform_recorded, ← ihe, ← ihc, shape,
            show p.scribe.direction = .encode from hdir]
  | custom name parent dec r f d ih =>
      refine hnode fun path v => ?_
      show p.scribe.custom (p.scribe.recorder parent) dec path v = _
      rw [ih]
      exact custom_recorded _ _

/-! ## All references -/

variable {defs : Definitions} {config : ValidationConfig} {direction : Direction}

/-- Following references keeps recording and pure traversal together. -/
theorem levels_eq (pass : (String → String → Json → Visit Json) → Pass)
    (scribe : (String → String → Json → Recording Json) → Scribe)
    (h : ∀ follow, scribe (fun target path v => Visit.recorded (follow target path v)) =
      (pass follow).scribe) (n : Nat) (s : Schema) :
    levels defs scribe n s = (Traversal.levels defs pass n s).recorded := by
  induction n generalizing s with
  | zero =>
      show (scribe fun _ _ _ _ => .looping).recorder s = _
      exact (congrArg (fun q => recorder q s) (h fun _ _ _ => .looping)).trans (recorder_eq _ s)
  | succ n ih =>
      have hfollow : (fun target => Recording.present (levels defs scribe n (defs.resolve target))) =
          fun target path v => Visit.recorded
            (Visit.present (Traversal.levels defs pass n (defs.resolve target)) path v) := by
        funext target path v
        rw [ih, Visitor.present_recorded]
      rw [levels, Traversal.levels, hfollow, h, recorder_eq]

theorem check_eq_recorded (s : Schema) :
    check defs config direction s = (Traversal.check defs config direction s).recorded := by
  funext path value
  exact congrFun (congrFun (levels_eq _ _ (fun _ => rfl) _ s) path) value

theorem run_eq_recorded (s : Schema) :
    run defs config direction s = (Traversal.run defs config direction s).recorded := by
  have hverify : (fun side => Recording.present (check defs config direction side)) =
      fun side path v => Visit.recorded
        (Visit.present (Traversal.check defs config direction side) path v) := by
    funext side path v
    rw [check_eq_recorded, Visitor.present_recorded]
  funext path value
  refine congrFun (congrFun (levels_eq _ _ (fun follow => ?_) _ s) path) value
  rw [hverify]
  rfl

end Scribe

/-! ## Mark and report -/

/-- Mark and report are in step: success leaves the report as it was; failure leaves it with more
messages, the earlier ones in their places. -/
def Recorded.InStep {α : Type} (report : Report) : Recorded α → Prop
  | .done _ report' => report' = report
  | .failed report' => report.messageCount < report'.messageCount ∧ report.Extends report'
  | .looping => True

theorem Placed.inStep {α : Type} {names : String → Prop} {visit : String → Visit α}
    (h : Placed names visit) (path : String) (report : Report) :
    (Visit.recorded (visit path) report).InStep report := by
  cases hvisit : visit path with
  | ok a => exact rfl
  | looping => exact trivial
  | failed findings =>
      have hlength : 0 < findings.length := List.length_pos_iff.mpr (h.ne_nil hvisit)
      refine ⟨?_, Report.extends_record report findings⟩
      rw [Report.messageCount_record]
      omega

namespace Validator

variable (validator : Validator)

/-- The recording traversal behind a validator: codecs are applied, or values only checked. -/
def recorder (running : Bool) : Recorder :=
  if running then Scribe.run validator.definitions validator.config validator.direction validator.schema
  else Scribe.check validator.definitions validator.config validator.direction validator.schema

/-- A report that a validator may hand out: it has issues, one for each path, and each says
something. -/
def Reported : Outcome Report (Option Json) → Prop
  | .failed report => report.issues ≠ [] ∧ report.Tidy
  | _ => True

variable {validator}

theorem recorder_true : validator.recorder true =
    (Traversal.run validator.definitions validator.config validator.direction
      validator.schema).recorded :=
  Scribe.run_eq_recorded validator.schema

theorem recorder_false : validator.recorder false =
    (Traversal.check validator.definitions validator.config validator.direction
      validator.schema).recorded :=
  Scribe.check_eq_recorded validator.schema

theorem recorder_inStep (running : Bool) (path : String) (value : Option Json) (report : Report) :
    (validator.recorder running path value report).InStep report := by
  cases running with
  | true =>
      rw [recorder_true]
      exact (Traversal.run_placed validator.schema value).inStep path report
  | false =>
      rw [recorder_false]
      exact (Traversal.check_placed validator.schema value).inStep path report

/-- The answer of a validator is what its traversal records from an empty report. -/
theorem validateOptional_eq_answer (value : Option Json) :
    validator.validateOptional value = (validator.recorder true "" value {}).answer := by
  rw [recorder_true]
  unfold validateOptional Visitor.recorded Visit.recorded
  cases hrun : Traversal.run validator.definitions validator.config validator.direction
    validator.schema "" value <;> rfl

theorem reported_validateOptional (value : Option Json) :
    Reported (validator.validateOptional value) := by
  cases h : validator.validateOptional value with
  | failed report => exact report_of_failed h
  | _ => exact trivial

/-- **A traversal fails exactly when it records an issue.** Whether codecs are applied or not, at any
path and with anything already recorded, a traversal that succeeds leaves the report as it was, and
one that fails leaves it with more messages, the earlier ones in their places. The answer of a
validator is read off its traversal of an empty report: a value whose traversal succeeds is not
rejected, and an error is never without issues, each at a path of its own and with a message. -/
theorem records_failures (validator : Validator) (running : Bool) (path : String)
    (value : Option Json) (report : Report) :
    (validator.recorder running path value report).InStep report ∧
      validator.validateOptional value = (validator.recorder true "" value {}).answer ∧
      (∀ output rest, validator.recorder true "" value {} = .done output rest →
        validator.validateOptional value = .ok output) ∧
      Reported (validator.validateOptional value) ∧
      ∀ v, value = some v → Reported ((validator.validate v).map some) := by
  have hanswer : validator.validateOptional value = _ := validateOptional_eq_answer value
  refine ⟨recorder_inStep running path value report, hanswer, fun output rest hdone => ?_,
    reported_validateOptional value, ?_⟩
  · have hrest : rest = {} := by
      have hstep : (validator.recorder true "" value {}).InStep {} := recorder_inStep true "" value {}
      rw [hdone] at hstep
      exact hstep
    rw [hanswer, hdone, hrest]
    rfl
  · rintro v rfl
    have hreported : Reported (validator.validateOptional (some v)) := reported_validateOptional _
    unfold validate
    cases h : validator.validateOptional (some v) with
    | failed rejected => rw [h] at hreported; exact hreported
    | _ => exact trivial

end Validator

end RouteContract
