import RouteContract.Proofs.Validation.Ends
import RouteContract.Proofs.Validation.Paths

/-!
# Composition -- the report of a value is made of the reports of its parts

An object, an array and a map hand each of their components to the schema of that component and do
nothing else with it. So a component can be validated on its own, and its report, with every path
moved under the place of the component, is what the whole value has to say about it
(`Validator.validate_components`): reports are joined in the order of the components, then come the
members that a strict object refuses, and only if there was nothing to report does the refinement of
the node itself judge the output. A component without end leaves the whole without end, which guarded
definitions rule out (`Validator.validate_components_of_guarded`).
-/

namespace RouteContract

/-! ## Components -/

/-- A component of a value: the step to it, the schema it is visited by, and its value if there is
one. -/
structure Component where
  /-- The step from the value to the component. -/
  step : Step
  /-- The schema of the component. -/
  schema : Schema
  /-- Its value, if there is one. -/
  value : Option Json

namespace Schema

/-- The components of a value that an object, an array or a map schema takes apart: the declared
properties in declaration order, the elements in index order, the entries in input order. -/
def components? (s : Schema) (v : Json) : Option (List Component) :=
  match s.kind, v with
  | .array items, .arr xs => some (xs.zipIdx.map fun x => ⟨.index x.2, items, some x.1⟩)
  | .object properties, .obj ms =>
    some (properties.map fun p => ⟨.key p.1, p.2, Entries.get? ms p.1⟩)
  | .map values, .obj ms => some (ms.map fun m => ⟨.key m.1, values, some m.2⟩)
  | _, _ => none

/-- The members of a value that no property declares. -/
def undeclared (s : Schema) (v : Json) : Entries Json :=
  match s.kind, v with
  | .object properties, .obj ms => ms.filter fun m => !Entries.has properties m.1
  | _, _ => []

/-- The output of a node from the outputs of the components: a missing element or entry counts as
null, a missing property is left out, and members that are not declared are carried through. -/
def assemble (s : Schema) (v : Json) (outputs : List (Option Json)) : Json :=
  match s.kind, v with
  | .array _, .arr _ => .arr (outputs.map fun output => output.getD .null)
  | .object properties, .obj _ =>
    Json.ofFields ((Entries.keys properties).zip outputs ++
      (s.undeclared v).map fun m => (m.1, some m.2))
  | .map _, .obj ms =>
    .obj ((Entries.keys ms).zip (outputs.map fun output => output.getD .null))
  | _, _ => v

end Schema

namespace Pass

variable {p : Pass} {path : String} {s : Schema} {v : Json} {parts : List Component}

/-- What a visit makes of a component. -/
def visitPart (p : Pass) (path : String) (part : Component) : Visit (Option Json) :=
  p.visitor part.schema (Visit.stepPath path part.step) part.value

/-- The failures for the members that a strict object refuses. -/
def refusals (p : Pass) (s : Schema) (v : Json) (path : String) : List (Visit (Option Json)) :=
  if p.config.strictObjects then
    (s.undeclared v).map fun m => Visit.fail (Visit.stepPath path (.key m.1)) "is not a known property"
  else []

theorem array_components (items : Visitor) (xs : List Json) :
    array items path (.arr xs) =
      (Outcome.gather (xs.zipIdx.map fun x => items (Visit.elementPath path x.2) (some x.1))).map
        fun outputs => .arr (outputs.map fun output => output.getD .null) := by
  show (Outcome.gather (xs.zipIdx.map fun x => (items (Visit.elementPath path x.2) (some x.1)).map
    fun output => output.getD .null)).map Json.arr = _
  have hmap := Outcome.gather_map (fun (output : Option Json) => output.getD .null)
    (fun x => items (Visit.elementPath path x.2) (some x.1)) xs.zipIdx
  rw [hmap, Outcome.map_map]

theorem map_components (values : Visitor) (ms : Entries Json) :
    map values path (.obj ms) =
      (Outcome.gather (ms.map fun m => values (Visit.childPath path m.1) (some m.2))).map
        fun outputs => .obj ((Entries.keys ms).zip (outputs.map fun output => output.getD .null)) := by
  show (Outcome.gather (ms.map fun m => ((values (Visit.childPath path m.1) (some m.2)).map
    fun output => output.getD .null).map fun output => (m.1, output))).map Json.obj = _
  simp only [Outcome.map_map]
  have hlabel := Outcome.gather_map_label (fun (m : String × Json) (output : Option Json) =>
    (m.1, output.getD .null)) (fun m => values (Visit.childPath path m.1) (some m.2)) ms
  rw [hlabel, Outcome.map_map]
  refine Outcome.map_congr_ok fun outputs _ => congrArg Json.obj ?_
  rw [Entries.keys, List.zip, List.zipWith_map]

/-- A strict object labels what comes of its members by their names, whether or not there are any
that it refuses: if there are, nothing comes of it. -/
theorem object_components (properties : List (String × Visitor)) (ms : Entries Json) :
    p.object properties path (.obj ms) =
      (Outcome.gather ((properties.map fun property =>
          property.2 (Visit.childPath path property.1) (Entries.get? ms property.1)) ++
        if p.config.strictObjects then
          (ms.filter fun m => !Entries.has properties m.1).map fun m =>
            Visit.fail (Visit.childPath path m.1) "is not a known property"
        else [])).map fun outputs =>
          Json.ofFields ((Entries.keys properties).zip outputs ++ carried properties ms) := by
  unfold object carried
  simp only [Json.members?]
  generalize ms.filter (fun m => !Entries.has properties m.1) = unknown
  cases p.config.strictObjects with
  | false =>
      simp only [Bool.false_eq_true, if_false, List.append_nil]
      have hlabel := Outcome.gather_map_label
        (fun (property : String × Visitor) (output : Option Json) => (property.1, output))
        (fun property => property.2 (Visit.childPath path property.1) (Entries.get? ms property.1))
        properties
      rw [Outcome.gather_append_ok, hlabel, Outcome.map_map, Outcome.map_map]
      refine Outcome.map_congr_ok fun outputs _ => ?_
      rw [Entries.keys, List.zip, List.zipWith_map_left]
  | true =>
      simp only [if_true]
      let named : List (String × Visit (Option Json)) :=
        (properties.map fun property => (property.1,
          property.2 (Visit.childPath path property.1) (Entries.get? ms property.1))) ++
        unknown.map fun m => (m.1, Visit.fail (Visit.childPath path m.1) "is not a known property")
      have hlabel := Outcome.gather_map_label
        (fun (part : String × Visit (Option Json)) (output : Option Json) => (part.1, output))
        Prod.snd named
      rw [List.map_append, List.map_append, List.map_map, List.map_map, List.map_map,
        List.map_map] at hlabel
      refine (congrArg (Outcome.map Json.ofFields) hlabel).trans ?_
      rw [Outcome.map_map]
      refine Outcome.map_congr_ok fun outputs hok => congrArg Json.ofFields ?_
      have hnone : unknown = [] := by
        cases unknown with
        | nil => rfl
        | cons m rest =>
            obtain ⟨output, hfail⟩ := Outcome.exists_gather_eq_ok_iff.mp ⟨outputs, hok⟩ _
              (List.mem_append_right _ List.mem_cons_self)
            cases hfail
      subst hnone
      simp [named, Entries.keys, List.zip, List.zipWith_map_left]

/-- **A node that takes a value apart** visits its components, refuses members if it has to, and puts
the outputs together. -/
theorem shape_components (hparts : s.components? v = some parts) :
    p.shape s.kind path v =
      (Outcome.gather (parts.map (p.visitPart path) ++ p.refusals s v path)).map (s.assemble v) := by
  obtain ⟨kind, required, refinement, description⟩ := s
  unfold Schema.components? at hparts
  split at hparts
  · next items xs heq =>
      obtain rfl : kind = .array items := heq
      cases hparts
      have hrefusals : p.refusals ⟨.array items, required, refinement, description⟩ (.arr xs) path = [] := by
        simp [refusals, Schema.undeclared]
      rw [hrefusals, List.append_nil, List.map_map]
      exact array_components _ _
  · next properties ms heq =>
      obtain rfl : kind = .object properties := heq
      cases hparts
      rw [List.map_map]
      show p.object (p.propertyVisitors properties) path (.obj ms) = _
      rw [propertyVisitors_eq_map, object_components]
      simp only [carried, Entries.keys_mapValues, Entries.has_mapValues]
      rw [Entries.mapValues, List.map_map]
      rfl
  · next values ms heq =>
      obtain rfl : kind = .map values := heq
      cases hparts
      have hrefusals : p.refusals ⟨.map values, required, refinement, description⟩ (.obj ms) path = [] := by
        simp [refusals, Schema.undeclared]
      rw [hrefusals, List.append_nil, List.map_map]
      exact map_components _ _
  · cases hparts

end Pass

namespace Schema

variable {defs : Definitions} {config : ValidationConfig} {direction : Direction} {running : Bool}
  {s : Schema} {v : Json} {parts : List Component}

/-- A visit leads to the components of its value, by names in play. -/
theorem leads_component (hparts : s.components? v = some parts) {part : Component}
    (hpart : part ∈ parts) :
    Spot.Leads defs config direction ⟨running, s, some v⟩ ⟨running, part.schema, part.value⟩ ∧
      ∀ name, part.step = .key name → name ∈ Spot.names config ⟨running, s, some v⟩ := by
  obtain ⟨kind, required, refinement, description⟩ := s
  unfold components? at hparts
  split at hparts
  · next items xs heq =>
      obtain rfl : kind = .array items := heq
      cases hparts
      obtain ⟨x, hx, rfl⟩ := List.mem_map.mp hpart
      exact ⟨.element (List.fst_mem_of_mem_zipIdx hx), nofun⟩
  · next properties ms heq =>
      obtain rfl : kind = .object properties := heq
      cases hparts
      obtain ⟨property, hmem, rfl⟩ := List.mem_map.mp hpart
      refine ⟨.property hmem, ?_⟩
      rintro _ ⟨⟩
      exact List.mem_append_left _ (List.mem_map_of_mem hmem)
  · next values ms heq =>
      obtain rfl : kind = .map values := heq
      cases hparts
      obtain ⟨m, hm, rfl⟩ := List.mem_map.mp hpart
      refine ⟨.member hm, ?_⟩
      rintro _ ⟨⟩
      exact List.mem_map_of_mem hm
  · cases hparts

/-- A value with components is not null, and its schema is not a codec. -/
theorem present_of_components (hparts : s.components? v = some parts) :
    v ≠ .null ∧ s.kind.isCodec = false := by
  unfold components? at hparts
  split at hparts
  · next heq => rw [heq]; exact ⟨nofun, rfl⟩
  · next heq => rw [heq]; exact ⟨nofun, rfl⟩
  · next heq => rw [heq]; exact ⟨nofun, rfl⟩
  · cases hparts

end Schema

/-! ## Reports of components -/

namespace Validator

variable (validator : Validator)

/-- The component validated on its own, in the same direction and under the same configuration. -/
def alone (part : Component) : Outcome Report (Option Json) :=
  { validator with schema := part.schema }.validateOptional part.value

/-- The issues of a component validated on its own, moved under its place. -/
def issuesOf (part : Component) : List Issue :=
  (((validator.alone part).reason?.map Report.issues).getD []).map
    (Issue.mapPath (Visit.pathUnder (Visit.stepPath "" part.step)))

/-- An issue for each member that a strict object refuses, in input order. -/
def refusedIssues (v : Json) : List Issue :=
  if validator.config.strictObjects then
    (validator.schema.undeclared v).map fun m => ⟨m.1, ["is not a known property"]⟩
  else []

/-- The verdict of the node's own refinement on an output. -/
def judged (output : Json) : Outcome Report Json :=
  match validator.schema.judge output with
  | .ok () => .ok output
  | .error message => .failed (Report.ofIssues [⟨"", [message]⟩])

variable {validator}

/-- The findings of a component validated on its own. -/
def findingsOf (validator : Validator) (part : Component) : List Finding :=
  (Traversal.run validator.definitions validator.config validator.direction part.schema ""
    part.value).reason?.getD []

theorem issuesOf_eq (part : Component) :
    validator.issuesOf part = (Report.ofFindings (validator.findingsOf part)).issues.map
      (Issue.mapPath (Visit.pathUnder (Visit.stepPath "" part.step))) := by
  unfold issuesOf alone validateOptional findingsOf
  cases Traversal.run validator.definitions validator.config validator.direction part.schema ""
    part.value <;> rfl

theorem issuesOf_ne_nil_iff {part : Component} :
    validator.issuesOf part ≠ [] ↔ ∃ report, validator.alone part = .failed report := by
  rw [issuesOf_eq, Ne, List.map_eq_nil_iff, Report.issues_ofFindings_eq_nil_iff]
  unfold findingsOf alone validateOptional
  cases hrun : Traversal.run validator.definitions validator.config validator.direction part.schema ""
    part.value with
  | failed findings =>
      have hne := (Traversal.run_placed part.schema part.value).ne_nil hrun
      exact iff_of_true hne ⟨_, rfl⟩
  | _ => simp [Outcome.reason?, Outcome.mapReason]

theorem findingsOf_refusedIssues (v : Json) :
    Report.findingsOf (validator.refusedIssues v) =
      if validator.config.strictObjects then
        (validator.schema.undeclared v).map fun m => ⟨m.1, "is not a known property"⟩
      else [] := by
  unfold refusedIssues Report.findingsOf
  split
  · rw [List.flatMap_map]
    exact List.map_eq_flatMap.symm
  · rfl

/-- The names that validating a value meets are plain. -/
def PlainNames (validator : Validator) (v : Json) : Prop :=
  ∀ name, Spot.InPlay validator.definitions validator.config validator.direction
    ⟨true, validator.schema, some v⟩ name → Visit.PlainName name

variable {v : Json} {parts : List Component}

/-- The pass of a validator, its lazy nodes followed to the end. -/
def pass (validator : Validator) : Pass :=
  (Traversal.runPass validator.definitions validator.config validator.direction).followed
    validator.definitions

theorem run_eq_pass (s : Schema) :
    Traversal.run validator.definitions validator.config validator.direction s =
      validator.pass.visitor s :=
  Traversal.run_eq _ _ _ s

/-- What the visits of the components come to, and those of members that are refused. -/
def visits (validator : Validator) (v : Json) (parts : List Component) :
    List (Visit (Option Json)) :=
  parts.map (validator.pass.visitPart "") ++ validator.pass.refusals validator.schema v ""

/-- A value that is taken apart is validated by visiting its components and judging what comes of
them. -/
theorem validate_eq (hparts : validator.schema.components? v = some parts) :
    validator.validate v =
      ((Outcome.gather (validator.visits v parts)).mapReason Report.ofFindings).bind fun outputs =>
        validator.judged (validator.schema.assemble v outputs) := by
  obtain ⟨hne, hcodec⟩ := Schema.present_of_components hparts
  unfold validate validateOptional
  rw [run_eq_pass, Pass.visitor_eq, Pass.node_present hne, Pass.shape_components hparts, hcodec]
  show Outcome.map _ (Outcome.mapReason _ (Outcome.bind (Outcome.map _
    (Outcome.gather (validator.visits v parts))) _)) = _
  cases Outcome.gather (validator.visits v parts) with
  | ok outputs =>
      simp only [Outcome.map_ok, Outcome.bind_ok, Outcome.mapReason, judged, Schema.judge, Pass.judged]
      have hprogram : ∀ input output, validator.pass.programValue? false input output = some output := by
        intro input output
        unfold Pass.programValue?
        split <;> simp_all
      rw [hprogram]
      cases validator.schema.refinement with
      | none => rfl
      | some refine =>
          simp only
          cases refine (validator.schema.assemble v outputs) <;> rfl
  | _ => rfl

/-- A component is visited as it is validated on its own, with every path moved under its place. -/
theorem visitPart_eq (hparts : validator.schema.components? v = some parts)
    (hplain : validator.PlainNames v) {part : Component} (hpart : part ∈ parts) :
    validator.pass.visitPart "" part =
      (Traversal.run validator.definitions validator.config validator.direction part.schema ""
        part.value).mapReason
          (List.map (Finding.mapPath (Visit.pathUnder (Visit.stepPath "" part.step)))) := by
  obtain ⟨hleads, hnames⟩ : Spot.Leads validator.definitions validator.config validator.direction
      ⟨true, validator.schema, some v⟩ ⟨true, part.schema, part.value⟩ ∧ _ :=
    Schema.leads_component hparts hpart
  have hplaced : Placed (Spot.InPlay validator.definitions validator.config validator.direction
      ⟨true, part.schema, part.value⟩) _ := Traversal.run_placed part.schema part.value
  rw [Pass.visitPart, ← run_eq_pass]
  refine hplaced.under (fun name hname => hplain name (.of_leads hleads hname)) ?_
  cases hstep : part.step with
  | index i => simp [Visit.stepPath, Visit.elementPath]
  | key name => exact (hplain name (.here (hnames name hstep))).1

/-- All findings about a value that is taken apart, recorded, are the issues of its components and
its refused members, merged. -/
theorem ofFindings_reasons (hparts : validator.schema.components? v = some parts)
    (hplain : validator.PlainNames v) :
    Report.ofFindings (Outcome.reasons (validator.visits v parts)) =
      Report.ofIssues (parts.flatMap validator.issuesOf ++ validator.refusedIssues v) := by
  have hvisited : Outcome.reasons (parts.map (validator.pass.visitPart "")) =
      parts.flatMap fun part => (validator.findingsOf part).map
        (Finding.mapPath (Visit.pathUnder (Visit.stepPath "" part.step))) := by
    rw [Outcome.reasons, List.flatMap_map]
    refine List.flatMap_congr fun part hpart => ?_
    rw [visitPart_eq hparts hplain hpart, findingsOf]
    cases Traversal.run validator.definitions validator.config validator.direction part.schema ""
      part.value <;> rfl
  have hrefused : Outcome.reasons (validator.pass.refusals validator.schema v "") =
      Report.findingsOf (validator.refusedIssues v) := by
    rw [findingsOf_refusedIssues, Outcome.reasons, Pass.refusals]
    show List.flatMap _ (if validator.config.strictObjects = true then _ else _) = _
    split
    · rw [List.flatMap_map]
      exact List.map_eq_flatMap.symm
    · rfl
  have hissues : parts.flatMap validator.issuesOf = parts.flatMap fun part =>
      (Report.ofFindings (validator.findingsOf part)).issues.map
        (Issue.mapPath (Visit.pathUnder (Visit.stepPath "" part.step))) :=
    List.flatMap_congr fun part _ => issuesOf_eq part
  rw [visits, Outcome.reasons_append, hvisited, hrefused, hissues, Report.ofIssues,
    Report.findingsOf_append, Report.ofFindings, Report.ofFindings, Report.record_append,
    Report.record_append, Report.record_flatMap_regrouped parts fun part _ => Visit.pathUnder_injective _]

/-- A visit among those of a value fails, or has no end, as a component validated on its own does. -/
theorem alone_eq (hparts : validator.schema.components? v = some parts)
    (hplain : validator.PlainNames v) {part : Component} (hpart : part ∈ parts) :
    (validator.alone part).verdict = (validator.pass.visitPart "" part).verdict ∧
      ∀ o, validator.pass.visitPart "" part = .ok o → validator.alone part = .ok o := by
  rw [visitPart_eq hparts hplain hpart]
  unfold alone validateOptional
  cases Traversal.run validator.definitions validator.config validator.direction part.schema ""
    part.value <;> simp [Outcome.mapReason]

theorem refusals_eq_nil_iff :
    validator.pass.refusals validator.schema v "" = [] ↔ validator.refusedIssues v = [] := by
  show (if validator.config.strictObjects = true then _ else _) = [] ↔ _
  unfold refusedIssues
  split <;> simp

theorem looping_mem_visits_iff (hparts : validator.schema.components? v = some parts)
    (hplain : validator.PlainNames v) :
    .looping ∈ validator.visits v parts ↔ ∃ part ∈ parts, validator.alone part = .looping := by
  have hrefused : .looping ∉ validator.pass.refusals validator.schema v "" := by
    unfold Pass.refusals
    split <;> simp [Visit.fail]
  rw [visits, List.mem_append, or_iff_left hrefused, List.mem_map]
  refine exists_congr fun part => and_congr_right fun hpart => ?_
  rw [← Outcome.verdict_eq_looping_iff, ← (alone_eq hparts hplain hpart).1,
    Outcome.verdict_eq_looping_iff]

theorem looping_not_mem_visits (hparts : validator.schema.components? v = some parts)
    (hplain : validator.PlainNames v) (hends : ∀ part ∈ parts, validator.alone part ≠ .looping) :
    .looping ∉ validator.visits v parts := by
  rw [looping_mem_visits_iff hparts hplain]
  rintro ⟨part, hpart, hlooping⟩
  exact hends part hpart hlooping

theorem failed_mem_visits_iff (hparts : validator.schema.components? v = some parts)
    (hplain : validator.PlainNames v) :
    (∃ o ∈ validator.visits v parts, ∃ findings, o = .failed findings) ↔
      (∃ part ∈ parts, ∃ report, validator.alone part = .failed report) ∨
        validator.refusedIssues v ≠ [] := by
  have hfails : ∀ o ∈ validator.pass.refusals validator.schema v "", ∃ findings, o = .failed findings := by
    unfold Pass.refusals
    split
    · exact List.forall_mem_map.mpr fun m _ => ⟨_, rfl⟩
    · simp
  have hpart : ∀ part ∈ parts, (∃ findings, validator.pass.visitPart "" part = .failed findings) ↔
      ∃ report, validator.alone part = .failed report := by
    intro part hmem
    rw [← Outcome.verdict_eq_failed_iff, ← (alone_eq hparts hplain hmem).1,
      Outcome.verdict_eq_failed_iff]
  rw [visits, Ne, ← refusals_eq_nil_iff]
  constructor
  · rintro ⟨o, ho, hfailed⟩
    rcases List.mem_append.mp ho with ho | ho
    · obtain ⟨part, hmem, rfl⟩ := List.mem_map.mp ho
      exact .inl ⟨part, hmem, (hpart part hmem).mp hfailed⟩
    · exact .inr (List.ne_nil_of_mem ho)
  · rintro (⟨part, hmem, hfailed⟩ | hne)
    · exact ⟨_, List.mem_append_left _ (List.mem_map_of_mem hmem), (hpart part hmem).mpr hfailed⟩
    · obtain ⟨o, ho⟩ := List.exists_mem_of_ne_nil _ hne
      exact ⟨o, List.mem_append_right _ ho, hfails o ho⟩

theorem issues_ne_nil_iff :
    parts.flatMap validator.issuesOf ++ validator.refusedIssues v ≠ [] ↔
      (∃ part ∈ parts, ∃ report, validator.alone part = .failed report) ∨
        validator.refusedIssues v ≠ [] := by
  simp only [← issuesOf_ne_nil_iff, Ne, List.append_eq_nil_iff, List.flatMap_eq_nil_iff, not_and_or,
    not_forall, exists_prop]

/-- The validation of a value has no end if that of a component has none. -/
theorem validate_endless (hparts : validator.schema.components? v = some parts)
    (hplain : validator.PlainNames v) (hlooping : ∃ part ∈ parts, validator.alone part = .looping) :
    validator.validate v = .looping := by
  rw [← looping_mem_visits_iff hparts hplain, ← Outcome.gather_eq_looping_iff] at hlooping
  rw [validate_eq hparts, hlooping]
  rfl

/-- With something to report the value is rejected, and the report is what the components say. -/
theorem validate_rejected (hparts : validator.schema.components? v = some parts)
    (hplain : validator.PlainNames v) (hends : ∀ part ∈ parts, validator.alone part ≠ .looping)
    (hissues : parts.flatMap validator.issuesOf ++ validator.refusedIssues v ≠ []) :
    validator.validate v =
      .failed (Report.ofIssues (parts.flatMap validator.issuesOf ++ validator.refusedIssues v)) := by
  rw [issues_ne_nil_iff, ← failed_mem_visits_iff hparts hplain] at hissues
  rcases Outcome.gather_cases (looping_not_mem_visits hparts hplain hends) with
    ⟨outputs, hok, _⟩ | ⟨_, hgather⟩
  · obtain ⟨o, ho, findings, rfl⟩ := hissues
    rw [hok] at ho
    simp at ho
  · rw [validate_eq hparts, hgather, ← ofFindings_reasons hparts hplain]
    rfl

/-- With nothing to report the components are put together and judged. -/
theorem validate_assembled (hparts : validator.schema.components? v = some parts)
    (hplain : validator.PlainNames v) (hends : ∀ part ∈ parts, validator.alone part ≠ .looping)
    (hissues : parts.flatMap validator.issuesOf ++ validator.refusedIssues v = []) :
    ∃ outputs, parts.map validator.alone = outputs.map .ok ∧
      validator.validate v = validator.judged (validator.schema.assemble v outputs) := by
  have hnone : ¬ (∃ o ∈ validator.visits v parts, ∃ findings, o = .failed findings) := by
    rw [failed_mem_visits_iff hparts hplain, ← issues_ne_nil_iff]
    exact fun hne => hne hissues
  obtain ⟨outputs, hok, hgather⟩ :=
    (Outcome.gather_cases (looping_not_mem_visits hparts hplain hends)).resolve_right
      fun h => hnone h.1
  refine ⟨outputs, ?_, by rw [validate_eq hparts, hgather]; rfl⟩
  have hrefused : validator.pass.refusals validator.schema v "" = [] :=
    refusals_eq_nil_iff.mpr (List.append_eq_nil_iff.mp hissues).2
  rw [visits, hrefused, List.append_nil, ← List.forall₂_eq_eq_eq, List.forall₂_map_left_iff,
    List.forall₂_map_right_iff] at hok
  rw [← List.forall₂_eq_eq_eq, List.forall₂_map_left_iff, List.forall₂_map_right_iff]
  have hvisited : List.Forall₂ (fun part o => part ∈ parts ∧
      validator.pass.visitPart "" part = .ok o) parts outputs :=
    (List.forall₂_and_left _ _).mpr ⟨fun _ hpart => hpart, hok⟩
  exact hvisited.imp fun part o h => (alone_eq hparts hplain h.1).2 o h.2

/-- **No failure is lost, and reports compose.** Take an object, an array or a map, and suppose that
the names its paths are made of are plain. Validating it comes to the same as validating each of its
components alone. If the issues of those, each moved under its place, and those for the members that
a strict object refuses are not none, the report consists of them in this order, equal paths merged;
and there are some exactly if a component fails alone or a member is refused. If there are none, the
outputs of the components are put together, and the node's own refinement has the last word. -/
theorem validate_components (hparts : validator.schema.components? v = some parts)
    (hplain : validator.PlainNames v) :
    let issues := parts.flatMap validator.issuesOf ++ validator.refusedIssues v
    ((∃ part ∈ parts, validator.alone part = .looping) → validator.validate v = .looping) ∧
      ((∀ part ∈ parts, validator.alone part ≠ .looping) →
        (issues ≠ [] ↔ (∃ part ∈ parts, ∃ report, validator.alone part = .failed report) ∨
          validator.refusedIssues v ≠ []) ∧
        (issues ≠ [] → validator.validate v = .failed (Report.ofIssues issues)) ∧
        (issues = [] → ∃ outputs, parts.map validator.alone = outputs.map .ok ∧
          validator.validate v = validator.judged (validator.schema.assemble v outputs))) :=
  ⟨validate_endless hparts hplain, fun hends => ⟨issues_ne_nil_iff,
    validate_rejected hparts hplain hends, validate_assembled hparts hplain hends⟩⟩

/-- With guarded definitions every component has a verdict of its own: a value is rejected with the
issues of its components and refused members if there are any, and judged if there are none. -/
theorem validate_components_of_guarded (hguarded : validator.definitions.Guarded)
    (hparts : validator.schema.components? v = some parts) (hplain : validator.PlainNames v) :
    let issues := parts.flatMap validator.issuesOf ++ validator.refusedIssues v
    (issues ≠ [] ↔ (∃ part ∈ parts, ∃ report, validator.alone part = .failed report) ∨
      validator.refusedIssues v ≠ []) ∧
      (issues ≠ [] → validator.validate v = .failed (Report.ofIssues issues)) ∧
      (issues = [] → ∃ outputs, parts.map validator.alone = outputs.map .ok ∧
        validator.validate v = validator.judged (validator.schema.assemble v outputs)) := by
  have hends : ∀ part ∈ parts, validator.alone part ≠ .looping :=
    fun part _ => validateOptional_ends { validator with schema := part.schema } hguarded part.value
  exact ⟨issues_ne_nil_iff, validate_rejected hparts hplain hends,
    validate_assembled hparts hplain hends⟩

/-- A user with a name and a list of tags. -/
def profile : Schema := .object [("name", .string), ("tags", .array .string)]

/-- Validating a user only meets the names of its members. -/
theorem plainNames_profile {config : ValidationConfig} {ms : Entries Json}
    (hms : ∀ m ∈ ms, Visit.PlainName m.1) :
    PlainNames { schema := profile, config } (.obj ms) := by
  rintro name ⟨spot, hreach, hname⟩
  have hspot : spot = ⟨true, profile, some (.obj ms)⟩ ∨ spot.schema = .string ∨
      spot.schema = .array .string := by
    clear hname
    induction hreach with
    | refl => exact .inl rfl
    | tail _ hleads ih =>
        rcases ih with rfl | hschema | hschema
        · cases hleads with
          | property hmem =>
              rcases List.mem_pair.mp hmem with rfl | rfl
              · exact .inr (.inl rfl)
              · exact .inr (.inr rfl)
        · cases hleads <;> cases hschema
        · cases hleads with
          | element hx => cases hschema; exact .inr (.inl rfl)
          | _ => cases hschema
  rcases hspot with rfl | hschema | hschema
  · rcases List.mem_append.mp hname with hname | hname
    · rcases List.mem_pair.mp hname with rfl | rfl <;> exact ⟨by decide, by decide⟩
    · split at hname
      · obtain ⟨m, hm, rfl⟩ := List.mem_map.mp hname
        exact hms m hm
      · cases hname
  · rw [Spot.names, hschema] at hname
    cases hname
  · rw [Spot.names, hschema] at hname
    cases hname

/-- A user whose name is not a string, whose second tag is null, with a member too many. -/
theorem validate_components_profile :
    let validator : Validator := { schema := profile, config := { strictObjects := true } }
    let v := Json.obj [("tags", .arr [.str "a", .null]), ("nick", .str "b"), ("name", .bool true)]
    let parts : List Component := [⟨.key "name", .string, some (.bool true)⟩,
      ⟨.key "tags", .array .string, some (.arr [.str "a", .null])⟩]
    validator.schema.components? v = some parts ∧ validator.PlainNames v ∧
      validator.validate v = .failed ⟨[⟨"name", ["expected string, received boolean"]⟩,
        ⟨"tags[1]", ["is required"]⟩, ⟨"nick", ["is not a known property"]⟩]⟩ := by
  intro validator v parts
  have hparts : validator.schema.components? v = some parts := rfl
  have hplain : validator.PlainNames v := by
    refine plainNames_profile fun m hm => ?_
    simp only [List.mem_cons, List.not_mem_nil, or_false] at hm
    rcases hm with rfl | rfl | rfl <;> exact ⟨by decide, by decide⟩
  have hends : ∀ part ∈ parts, validator.alone part ≠ .looping := by
    intro part hpart
    rcases List.mem_pair.mp hpart with rfl | rfl <;> exact nofun
  refine ⟨hparts, hplain, ?_⟩
  exact ((validate_components hparts hplain).2 hends).2.1 (by exact nofun)

end Validator

end RouteContract
