import RouteContract.Proofs.Validation.Budget
import RouteContract.Proofs.Validation.Report

/-!
# Places -- what a visit says does not depend on where the value stands

A visit hands its path down to the visits of the parts and reads it nowhere else. So it comes to the
same at every path: the same output, or the same messages about the same places inside the value,
each written as a path from where the visit began (`Placed`). A visit that fails has something to
say. The rules of the traversal keep this (`visitor_placed`), hence so do check and run.

The names that these paths are made of are the names in play: those that a visit meets at the value
itself or at one of the spots it leads to (`InPlay`).
-/

namespace RouteContract

/-! ## Places -/

/-- A step from a value to a value inside it. -/
inductive Step where
  /-- To the member of an object. -/
  | key (name : String)
  /-- To the element of an array. -/
  | index (position : Nat)

/-- The way from a value to one inside it, the outermost step first. -/
abbrev Place := List Step

namespace Visit

/-- Path after a step. -/
def stepPath (path : String) : Step → String
  | .key name => childPath path name
  | .index position => elementPath path position

/-- Path of a place in a value that stands at the given path. -/
def placePath (path : String) (place : Place) : String := place.foldl stepPath path

end Visit

/-- A message about a place inside a value. -/
structure Complaint where
  /-- The place. -/
  place : Place
  /-- What is wrong there. -/
  message : String

namespace Complaint

/-- The finding that a complaint is when the value stands at a path. -/
def finding (path : String) (complaint : Complaint) : Finding :=
  ⟨Visit.placePath path complaint.place, complaint.message⟩

/-- The same complaint, said of a value one step further out. -/
def within (step : Step) (complaint : Complaint) : Complaint :=
  ⟨step :: complaint.place, complaint.message⟩

end Complaint

/-- What a failing visit has to say: at least one thing, about places that are reached by the given
names. -/
structure Voiced (names : String → Prop) (complaints : List Complaint) : Prop where
  /-- Something is said. -/
  ne_nil : complaints ≠ []
  /-- The names on the way are the given ones. -/
  named : ∀ c ∈ complaints, ∀ name, .key name ∈ c.place → names name

namespace Voiced

variable {names names' : String → Prop} {complaints others : List Complaint}

theorem mono (h : ∀ name, names name → names' name) (hvoiced : Voiced names complaints) :
    Voiced names' complaints :=
  ⟨hvoiced.ne_nil, fun c hc name hname => h name (hvoiced.named c hc name hname)⟩

theorem append (h : Voiced names complaints) (h' : Voiced names others) :
    Voiced names (complaints ++ others) := by
  refine ⟨by simp [h.ne_nil], fun c hc => ?_⟩
  rcases List.mem_append.mp hc with hc | hc
  · exact h.named c hc
  · exact h'.named c hc

theorem within {step : Step} (h : Voiced names complaints)
    (hstep : ∀ name, step = .key name → names name) :
    Voiced names (complaints.map (Complaint.within step)) := by
  refine ⟨by simp [h.ne_nil], List.forall_mem_map.mpr fun c hc name hname => ?_⟩
  rcases List.mem_cons.mp hname with heq | hname
  · exact hstep name heq.symm
  · exact h.named c hc name hname

end Voiced

/-! ## Visits that say the same everywhere -/

/-- The visit comes to the same wherever the value stands, and if it fails, it has something to
say. -/
def Placed {α : Type} (names : String → Prop) (visit : String → Visit α) : Prop :=
  ∃ core : Outcome (List Complaint) α,
    (∀ path, visit path = core.mapReason (List.map (Complaint.finding path))) ∧
      ∀ complaints, core = .failed complaints → Voiced names complaints

namespace Placed

variable {α β : Type} {names names' : String → Prop}

theorem ok (a : α) : Placed names fun _ => .ok a := ⟨.ok a, fun _ => rfl, nofun⟩

theorem looping : Placed names fun _ => (.looping : Visit α) := ⟨.looping, fun _ => rfl, nofun⟩

theorem fail (message : String) : Placed names fun path => (Visit.fail path message : Visit α) := by
  refine ⟨.failed [⟨[], message⟩], fun _ => rfl, ?_⟩
  rintro _ ⟨⟩
  exact ⟨by simp, by simp⟩

theorem mono (h : ∀ name, names name → names' name) {visit : String → Visit α}
    (hvisit : Placed names visit) : Placed names' visit := by
  obtain ⟨core, hcore, hvoiced⟩ := hvisit
  exact ⟨core, hcore, fun complaints heq => (hvoiced complaints heq).mono h⟩

/-- What follows a visit has to be placed for the results the visit can have. -/
theorem bind {visit : String → Visit α} {next : α → String → Visit β} (h : Placed names visit)
    (hnext : ∀ a, (∀ path, visit path = .ok a) → Placed names (next a)) :
    Placed names fun path => (visit path).bind fun a => next a path := by
  obtain ⟨core, hcore, hvoiced⟩ := h
  cases core with
  | ok a =>
      have hvisit : ∀ path, visit path = .ok a := hcore
      obtain ⟨core', hcore', hvoiced'⟩ := hnext a hvisit
      refine ⟨core', fun path => ?_, hvoiced'⟩
      show (visit path).bind _ = _
      rw [hvisit path]
      exact hcore' path
  | failed complaints =>
      refine ⟨.failed complaints, fun path => ?_, ?_⟩
      · show (visit path).bind _ = _
        rw [hcore path]
        rfl
      · rintro _ ⟨⟩
        exact hvoiced _ rfl
  | looping =>
      refine ⟨.looping, fun path => ?_, nofun⟩
      show (visit path).bind _ = _
      rw [hcore path]
      rfl

theorem map (f : α → β) {visit : String → Visit α} (h : Placed names visit) :
    Placed names fun path => (visit path).map f := by
  have hbind : Placed names fun path => (visit path).bind fun a => .ok (f a) :=
    h.bind fun a _ => .ok (f a)
  have heq : ∀ path, (visit path).map f = (visit path).bind fun a => .ok (f a) := by
    intro path
    cases visit path <;> rfl
  simpa only [heq] using hbind

/-- A visit one step further in. -/
theorem step {step : Step} {visit : String → Visit α} (h : Placed names visit)
    (hstep : ∀ name, step = .key name → names name) :
    Placed names fun path => visit (Visit.stepPath path step) := by
  obtain ⟨core, hcore, hvoiced⟩ := h
  refine ⟨core.mapReason (List.map (Complaint.within step)), fun path => ?_, ?_⟩
  · show visit (Visit.stepPath path step) = _
    rw [hcore]
    cases core with
    | failed complaints =>
        simp only [Outcome.mapReason, List.map_map]
        rfl
    | _ => rfl
  · intro complaints heq
    cases core with
    | failed inner =>
        cases heq
        exact (hvoiced inner rfl).within hstep
    | _ => cases heq

/-- Siblings that are placed are placed together. -/
theorem gather {visits : List (String → Visit α)} (h : ∀ visit ∈ visits, Placed names visit) :
    Placed names fun path => Outcome.gather (visits.map fun visit => visit path) := by
  induction visits with
  | nil => exact .ok []
  | cons visit rest ih =>
      rw [List.forall_mem_cons] at h
      obtain ⟨head, hhead, hvoiced⟩ := h.1
      obtain ⟨tail, htail, hvoiced'⟩ := ih h.2
      refine ⟨Outcome.gatherCons head tail, fun path => ?_, fun complaints heq => ?_⟩
      · show Outcome.gatherCons (visit path) _ = _
        rw [hhead path, show Outcome.gather (rest.map fun visit => visit path) = _ from htail path]
        cases head <;> cases tail <;> simp [Outcome.gatherCons, Outcome.mapReason]
      · cases head <;> cases tail <;> cases heq
        · exact hvoiced' _ rfl
        · exact hvoiced _ rfl
        · exact (hvoiced _ rfl).append (hvoiced' _ rfl)

theorem present {visit : Visitor} {v : Json} (h : Placed names fun path => visit path (some v)) :
    Placed names fun path => Visit.present visit path v :=
  h.map _

/-- What is accepted at one path is accepted with the same output at every other. -/
theorem ok_at {visit : String → Visit α} (h : Placed names visit) {path : String} {a : α}
    (hok : visit path = .ok a) (path' : String) : visit path' = .ok a := by
  obtain ⟨core, hcore, _⟩ := h
  rw [hcore path, Outcome.mapReason_eq_ok_iff] at hok
  rw [hcore path', hok]
  rfl

/-- What is rejected at one path is rejected at every other. -/
theorem failed_at {visit : String → Visit α} (h : Placed names visit) {path : String}
    {findings : List Finding} (hfailed : visit path = .failed findings) (path' : String) :
    ∃ findings', visit path' = .failed findings' := by
  obtain ⟨core, hcore, _⟩ := h
  rw [hcore path] at hfailed
  cases core with
  | failed complaints => exact ⟨_, hcore path'⟩
  | _ => cases hfailed

/-- A failing visit says something. -/
theorem ne_nil {visit : String → Visit α} (h : Placed names visit) {path : String}
    {findings : List Finding} (hfailed : visit path = .failed findings) : findings ≠ [] := by
  obtain ⟨core, hcore, hcomplaints⟩ := h
  rw [hcore path] at hfailed
  cases core with
  | failed complaints =>
      cases hfailed
      simpa using (hcomplaints complaints rfl).ne_nil
  | _ => cases hfailed

end Placed

/-! ## Names in play -/

/-- Whether codecs are applied. -/
def Mode.running : Mode → Bool
  | .check => false
  | .run _ => true

/-- A value that is visited: whether codecs are applied, by which schema, and the value if there is
one. -/
structure Spot where
  /-- Whether codecs are applied. -/
  running : Bool
  /-- The schema of the visit. -/
  schema : Schema
  /-- The value, if there is one. -/
  value : Option Json

namespace Spot

/-- The names that paths are made of at a spot: of declared properties, of members that are refused,
of the entries of a map, and the name of a tag. -/
def names (config : ValidationConfig) (spot : Spot) : List String :=
  match spot.schema.kind, spot.value with
  | .object properties, some (.obj ms) =>
    Entries.keys properties ++ if config.strictObjects then Entries.keys ms else []
  | .map _, some (.obj ms) => Entries.keys ms
  | .oneOf options, some (.obj _) => (Schema.discriminator? options).toList
  | _, _ => []

variable (defs : Definitions) (config : ValidationConfig) (direction : Direction)

/-- The visits that a visit consists of. The options that a union without discriminator tries are
not among them, since nothing is reported about those. -/
inductive Leads : Spot → Spot → Prop
  | element {running items r f d xs x} (h : x ∈ xs) :
      Leads ⟨running, ⟨.array items, r, f, d⟩, some (.arr xs)⟩ ⟨running, items, some x⟩
  | property {running properties r f d ms} {property : String × Schema}
      (h : property ∈ properties) :
      Leads ⟨running, ⟨.object properties, r, f, d⟩, some (.obj ms)⟩
        ⟨running, property.2, Entries.get? ms property.1⟩
  | member {running values r f d ms} {m : String × Json} (h : m ∈ ms) :
      Leads ⟨running, ⟨.map values, r, f, d⟩, some (.obj ms)⟩ ⟨running, values, some m.2⟩
  | branch {running options r f d ms key tag option}
      (hkey : Schema.discriminator? options = some key) (htag : Entries.get? ms key = some tag)
      (hoption : options.find? (fun option => option.selects key tag) = some option) :
      Leads ⟨running, ⟨.oneOf options, r, f, d⟩, some (.obj ms)⟩ ⟨running, option, some (.obj ms)⟩
  | target {running name target r f d v} (hv : v ≠ .null) :
      Leads ⟨running, ⟨.lazy name target, r, f, d⟩, some v⟩
        ⟨running, defs.resolve target, some v⟩
  | input {encoded decoded dec enc r f d v} (hv : v ≠ .null) :
      Leads ⟨true, ⟨.transform encoded decoded dec enc, r, f, d⟩, some v⟩
        ⟨true, (Schema.transformSides direction encoded decoded).1, some v⟩
  | converted {encoded decoded dec enc r f d v accepted conversion converted} (hv : v ≠ .null)
      (hverify : config.verifyOutput = true)
      (haccepted : Visit.present (Traversal.run defs config direction
        (Schema.transformSides direction encoded decoded).1) "" v = .ok accepted)
      (hconversion : Schema.conversion? ⟨.transform encoded decoded dec enc, r, f, d⟩ direction =
        some conversion)
      (hconverted : conversion accepted = .ok converted) :
      Leads ⟨true, ⟨.transform encoded decoded dec enc, r, f, d⟩, some v⟩
        ⟨false, (Schema.transformSides direction encoded decoded).2, some converted⟩
  | output {encoded decoded dec enc r f d v} (hv : v ≠ .null) :
      Leads ⟨false, ⟨.transform encoded decoded dec enc, r, f, d⟩, some v⟩
        ⟨false, (Schema.transformSides direction encoded decoded).2, some v⟩
  | parent {running name parent dec r f d v} (hv : v ≠ .null)
      (h : direction = .encode ∨ running = true) :
      Leads ⟨running, ⟨.custom name parent dec, r, f, d⟩, some v⟩ ⟨running, parent, some v⟩

/-- The names that the paths of a visit can be made of: those at the spot itself and at all spots
that it leads to. -/
def InPlay (spot : Spot) (name : String) : Prop :=
  ∃ inner, Relation.ReflTransGen (Leads defs config direction) spot inner ∧
    name ∈ inner.names config

variable {defs config direction}

theorem InPlay.here {spot : Spot} {name : String} (h : name ∈ spot.names config) :
    InPlay defs config direction spot name :=
  ⟨spot, .refl, h⟩

theorem InPlay.of_leads {spot inner : Spot} {name : String} (h : Leads defs config direction spot inner)
    (hname : InPlay defs config direction inner name) : InPlay defs config direction spot name := by
  obtain ⟨last, hreach, hmem⟩ := hname
  exact ⟨last, .head h hreach, hmem⟩

end Spot

/-! ## The rules -/

namespace Pass

variable {p : Pass} {names : String → Prop}

theorem expect_placed (test : Bool) (expected : String) (v : Json) :
    Placed names fun path => Visit.expect test expected path v := by
  unfold Visit.expect
  cases test with
  | true => exact .ok v
  | false => exact .fail _

theorem judged_placed (isCodec : Bool) (refinement : Option Refinement) (v output : Json) :
    Placed names fun path => p.judged isCodec refinement path v output := by
  unfold judged
  cases p.programValue? isCodec v output with
  | none => exact .ok _
  | some x =>
      cases refinement with
      | none => exact .ok _
      | some refine =>
          simp only
          cases refine x with
          | ok u => exact .ok _
          | error message => exact .fail message

theorem node_placed {isCodec required : Bool} {refinement : Option Refinement}
    {visit : String → Json → Visit Json} {value : Option Json}
    (h : ∀ v, value = some v → v ≠ .null → Placed names fun path => visit path v) :
    Placed names fun path => p.node isCodec required refinement visit path value := by
  rcases absent_or_present value with hv | ⟨v, rfl, hne⟩
  · simp only [node_absent hv]
    cases required with
    | true => exact .fail "is required"
    | false => exact .ok value
  · simp only [node_present hne]
    exact (h v rfl hne).bind fun output _ => judged_placed isCodec refinement v output

theorem enum_placed (options : List Json) (v : Json) :
    Placed names fun path => enum options path v := by
  unfold enum
  split
  · exact .ok v
  · exact .fail _

theorem array_placed {items : Visitor} {v : Json}
    (h : ∀ xs, v = .arr xs → ∀ x ∈ xs, Placed names fun path => items path (some x)) :
    Placed names fun path => array items path v := by
  cases v with
  | arr xs =>
      let visits := xs.zipIdx.map fun x path =>
        Visit.present items (Visit.stepPath path (.index x.2)) x.1
      have hvisits : ∀ visit ∈ visits, Placed names visit := by
        refine List.forall_mem_map.mpr fun x hx => ?_
        exact (h xs rfl x.1 (List.fst_mem_of_mem_zipIdx hx)).present.step nofun
      have hall := (Placed.gather hvisits).map Json.arr
      simp only [visits, List.map_map] at hall
      exact hall
  | _ => exact expect_placed false "array" _

theorem map_placed {values : Visitor} {v : Json}
    (h : ∀ ms, v = .obj ms → ∀ m ∈ ms,
      names m.1 ∧ Placed names fun path => values path (some m.2)) :
    Placed names fun path => map values path v := by
  cases v with
  | obj ms =>
      let visits := ms.map fun m path =>
        (Visit.present values (Visit.stepPath path (.key m.1)) m.2).map fun output => (m.1, output)
      have hvisits : ∀ visit ∈ visits, Placed names visit := by
        refine List.forall_mem_map.mpr fun m hm => ?_
        obtain ⟨hname, hvisit⟩ := h ms rfl m hm
        refine (hvisit.present.step fun name heq => ?_).map _
        cases heq
        exact hname
      have hall := (Placed.gather hvisits).map Json.obj
      simp only [visits, List.map_map] at hall
      exact hall
  | _ => exact expect_placed false "object" _

theorem object_placed {properties : List (String × Visitor)} {v : Json}
    (hdeclared : ∀ ms, v = .obj ms → ∀ property ∈ properties, names property.1 ∧
      Placed names fun path => property.2 path (Entries.get? ms property.1))
    (hunknown : ∀ ms, v = .obj ms → p.config.strictObjects = true → ∀ m ∈ ms, names m.1) :
    Placed names fun path => p.object properties path v := by
  cases v with
  | obj ms =>
      let declared := properties.map fun property path =>
        (property.2 (Visit.stepPath path (.key property.1)) (Entries.get? ms property.1)).map
          fun output => (property.1, output)
      let unknown := (ms.filter fun m => !Entries.has properties m.1).map fun m path =>
        if p.config.strictObjects then
          Visit.fail (Visit.stepPath path (.key m.1)) "is not a known property"
        else .ok (m.1, some m.2)
      have hvisits : ∀ visit ∈ declared ++ unknown, Placed names visit := by
        refine List.forall_mem_append.mpr ⟨List.forall_mem_map.mpr fun property hmem => ?_,
          List.forall_mem_map.mpr fun m hm => ?_⟩
        · obtain ⟨hname, hvisit⟩ := hdeclared ms rfl property hmem
          refine (hvisit.step fun name heq => ?_).map _
          cases heq
          exact hname
        · cases hstrict : p.config.strictObjects with
          | true =>
              have hfail : Placed names fun path =>
                  (Visit.fail path "is not a known property" : Visit (String × Option Json)) :=
                .fail _
              refine hfail.step fun name heq => ?_
              cases heq
              exact hunknown ms rfl hstrict m (List.mem_of_mem_filter hm)
          | false => exact .ok _
      have hall := (Placed.gather hvisits).map Json.ofFields
      simp only [declared, unknown, List.map_append, List.map_map] at hall
      exact hall
  | _ => exact expect_placed false "object" _

/-- Trying options comes to the same at every path, if the options do. -/
theorem firstAccepting_placed {visitors : List Visitor} {v : Json}
    (h : ∀ visit ∈ visitors, ∃ names, Placed names fun path => visit path (some v)) :
    ∃ outcome, ∀ path, firstAccepting path v visitors = outcome := by
  induction visitors with
  | nil => exact ⟨.failed [], fun _ => rfl⟩
  | cons visit rest ih =>
      rw [List.forall_mem_cons] at h
      obtain ⟨names, hvisit⟩ := h.1
      obtain ⟨core, hcore, _⟩ := hvisit.present
      obtain ⟨outcome, houtcome⟩ := ih h.2
      have hcore : ∀ path, Visit.present visit path v = _ := hcore
      cases core with
      | ok o => exact ⟨.ok o, fun path => by rw [firstAccepting, hcore path]; rfl⟩
      | looping => exact ⟨.looping, fun path => by rw [firstAccepting, hcore path]; rfl⟩
      | failed es => exact ⟨outcome, fun path => by rw [firstAccepting, hcore path]; exact houtcome path⟩

theorem untagged_placed {visitors : List Visitor} {v : Json}
    (h : ∀ visit ∈ visitors, ∃ names, Placed names fun path => visit path (some v)) :
    Placed names fun path => untagged visitors path v := by
  obtain ⟨outcome, houtcome⟩ := firstAccepting_placed h
  unfold untagged
  simp only [houtcome]
  cases outcome with
  | ok o => exact .ok o
  | looping => exact .looping
  | failed es => exact .fail _

theorem tagged_placed {key : String} {options : List Schema} {visit : Schema → Visitor} {v : Json}
    (h : ∀ ms, v = .obj ms → names key ∧ ∀ tag option, Entries.get? ms key = some tag →
      options.find? (fun option => option.selects key tag) = some option →
      Placed names fun path => visit option path (some v)) :
    Placed names fun path => tagged key (branches options visit) path v := by
  unfold tagged
  cases v with
  | obj ms =>
      obtain ⟨hkey, hoption⟩ := h ms rfl
      have hfail : ∀ message, Placed names fun path =>
          (Visit.fail (Visit.stepPath path (.key key)) message : Visit Json) := by
        refine fun message => (Placed.fail message).step fun name heq => ?_
        cases heq
        exact hkey
      simp only [Json.members?]
      cases htag : Entries.get? ms key with
      | none => exact hfail _
      | some tag =>
          simp only [find?_branches]
          cases hfind : options.find? fun option => option.selects key tag with
          | none => exact hfail _
          | some option => exact (hoption tag option htag hfind).present
  | _ => exact expect_placed false "object" _

theorem convert_placed (conversion : Conversion) (v : Json) :
    Placed names fun path => convert conversion path v := by
  unfold convert
  cases conversion v with
  | ok o => exact .ok o
  | error message => exact .fail message

theorem transform_placed {side : Schema} {input output : Visitor} {conversion : Conversion}
    {v : Json} (hcheck : p.mode = .check → Placed names fun path => output path (some v))
    (hin : ∀ verify, p.mode = .run verify → Placed names fun path => input path (some v))
    (hverify : ∀ verify accepted converted, p.mode = .run verify →
      p.config.verifyOutput = true → Visit.present input "" v = .ok accepted →
      conversion accepted = .ok converted → Placed names fun path => verify side path converted) :
    Placed names fun path => p.transform side input output conversion path v := by
  unfold transform
  cases hmode : p.mode with
  | check => exact (hcheck hmode).present
  | run verify =>
      refine (hin verify hmode).present.bind fun accepted haccepted => ?_
      refine (convert_placed conversion accepted).bind fun converted hconverted => ?_
      cases hconfig : p.config.verifyOutput with
      | false => exact .ok converted
      | true =>
          exact (hverify verify accepted converted hmode hconfig (haccepted "")
            (convert_eq_ok_iff.mp (hconverted ""))).map _

theorem custom_placed {parent : Visitor} {decode : Conversion} {v : Json}
    (h : (p.direction = .encode ∨ ∃ verify, p.mode = .run verify) →
      Placed names fun path => parent path (some v)) :
    Placed names fun path => p.custom parent decode path v := by
  cases hdir : p.direction with
  | encode =>
      simp only [custom_encode hdir]
      exact (h (.inl hdir)).present
  | decode =>
      cases hmode : p.mode with
      | check =>
          simp only [custom_decode_check hdir hmode]
          exact .ok v
      | run verify =>
          simp only [custom_decode_run hdir hmode]
          exact (h (.inr ⟨verify, hmode⟩)).present.bind fun accepted _ =>
            convert_placed decode accepted

/-! ## One schema -/

open Spot (InPlay)

/-- What a pass hands lazy nodes and converted values to is placed, and it runs as the full run
does. -/
structure HandsOn (p : Pass) (defs : Definitions) : Prop where
  /-- Definitions are visited alike at every path. -/
  follow : ∀ target v, v ≠ .null →
    Placed (InPlay defs p.config p.direction ⟨p.mode.running, defs.resolve target, some v⟩)
      fun path => p.follow target path v
  /-- So are the results of codecs. -/
  verify : ∀ verify, p.mode = .run verify → ∀ side v,
    Placed (InPlay defs p.config p.direction ⟨false, side, some v⟩) fun path => verify side path v
  /-- What the pass accepts, the run accepts with the same output. -/
  runs : ∀ verify, p.mode = .run verify → ∀ s v o, Visit.present (p.visitor s) "" v = .ok o →
    Visit.present (Traversal.run defs p.config p.direction s) "" v = .ok o

variable {defs : Definitions}

theorem transformSides_cases (direction : Direction) (encoded decoded : Schema) :
    Schema.transformSides direction encoded decoded = (encoded, decoded) ∨
      Schema.transformSides direction encoded decoded = (decoded, encoded) := by
  cases direction
  · exact .inl rfl
  · exact .inr rfl

/-- The rule of a transform, in either direction. -/
theorem shape_transform (p : Pass) (encoded decoded : Schema) (dec enc : Conversion) (r : Bool)
    (f : Option Refinement) (d : Option String) :
    ∃ conversion, Schema.conversion? ⟨.transform encoded decoded dec enc, r, f, d⟩ p.direction =
        some conversion ∧
      p.shape (.transform encoded decoded dec enc) =
        let sides := Schema.transformSides p.direction encoded decoded
        p.transform sides.2 (p.visitor sides.1) (p.visitor sides.2) conversion := by
  cases hdir : p.direction with
  | decode => exact ⟨dec, rfl, shape_transform_decode hdir⟩
  | encode => exact ⟨enc, rfl, shape_transform_encode hdir⟩

/-- What the pass makes of a value by a schema comes to the same at every path, with names in
play. -/
def PlacedBy (p : Pass) (defs : Definitions) (s : Schema) : Prop :=
  ∀ value, Placed (InPlay defs p.config p.direction ⟨p.mode.running, s, value⟩)
    fun path => p.visitor s path value

/-- **A visit comes to the same at every path**, and the names of what it complains about are in
play. -/
theorem visitor_placed (h : p.HandsOn defs) (s : Schema) : PlacedBy p defs s := by
  induction s with
  | number | string | boolean =>
      exact fun value => node_placed fun v _ _ => expect_placed _ _ v
  | any => exact fun value => node_placed fun v _ _ => .ok v
  | enum options => exact fun value => node_placed fun v _ _ => enum_placed options v
  | lazy name target =>
      refine fun value => node_placed fun v hv hne => ?_
      subst hv
      exact (h.follow target v hne).mono fun _ => .of_leads (.target hne)
  | oneOf options r f d ih =>
      refine fun value => node_placed fun v hv hne => ?_
      subst hv
      show Placed _ fun path => oneOf options (p.visitors options) path v
      simp only [oneOf_eq]
      cases hkey : Schema.discriminator? options with
      | none => exact untagged_placed (List.forall_mem_map.mpr fun option hmem => ⟨_, ih option hmem _⟩)
      | some key =>
          refine tagged_placed fun ms hms => ?_
          subst hms
          refine ⟨.here (by simp [Spot.names, hkey]), fun tag option htag hoption => ?_⟩
          exact (ih option (List.mem_of_find?_eq_some hoption) _).mono fun _ =>
            .of_leads (.branch hkey htag hoption)
  | array items r f d ih =>
      refine fun value => node_placed fun v hv _ => array_placed fun xs hxs x hx => ?_
      subst hv hxs
      exact (ih (some x)).mono fun _ => .of_leads (.element hx)
  | object properties r f d ih =>
      refine fun value => node_placed fun v hv _ => ?_
      subst hv
      show Placed _ fun path => p.object (p.propertyVisitors properties) path v
      rw [propertyVisitors_eq_map]
      refine object_placed (fun ms hms => List.forall_mem_map.mpr fun property hmem => ?_) ?_
      · subst hms
        refine ⟨.here ?_, (ih property hmem _).mono fun _ => .of_leads (.property hmem)⟩
        exact List.mem_append_left _ (List.mem_map_of_mem hmem)
      · rintro ms rfl hstrict m hm
        refine .here (List.mem_append_right _ ?_)
        rw [if_pos hstrict]
        exact List.mem_map_of_mem hm
  | map values r f d ih =>
      refine fun value => node_placed fun v hv _ => map_placed fun ms hms m hm => ?_
      subst hv hms
      exact ⟨.here (List.mem_map_of_mem hm), (ih _).mono fun _ => .of_leads (.member hm)⟩
  | transform encoded decoded dec enc r f d ihe ihc =>
      refine fun value => node_placed fun v hv hne => ?_
      subst hv
      obtain ⟨conversion, hconversion, hshape⟩ := p.shape_transform encoded decoded dec enc r f d
      have hsides : PlacedBy p defs (Schema.transformSides p.direction encoded decoded).1 ∧
          PlacedBy p defs (Schema.transformSides p.direction encoded decoded).2 := by
        rcases transformSides_cases p.direction encoded decoded with h | h <;> rw [h]
        · exact ⟨ihe, ihc⟩
        · exact ⟨ihc, ihe⟩
      obtain ⟨hin, hout⟩ := hsides
      rw [hshape]
      refine transform_placed (fun hmode => ?_) (fun verify hmode => ?_) ?_
      · refine (hout _).mono fun name => ?_
        rw [hmode]
        exact .of_leads (.output hne)
      · refine (hin _).mono fun name => ?_
        rw [hmode]
        exact .of_leads (.input hne)
      · intro verify accepted converted hmode hverify haccepted hconverted
        refine (h.verify verify hmode _ converted).mono fun name => ?_
        rw [hmode]
        exact .of_leads (.converted hne hverify (h.runs verify hmode _ v accepted haccepted)
          hconversion hconverted)
  | custom name parent dec r f d ih =>
      refine fun value => node_placed fun v hv hne => custom_placed fun happlied => ?_
      subst hv
      refine (ih _).mono fun _ => .of_leads (.parent hne ?_)
      exact happlied.imp id fun ⟨verify, hmode⟩ => by rw [hmode]; rfl

/-! ## All references -/

/-- A traversal comes to the same at every path, if what it verifies does and, as far as it runs
codecs, it is the full run. -/
theorem traverse_placed
    (hverify : ∀ verify, p.mode = .run verify → ∀ side v,
      Placed (InPlay defs p.config p.direction ⟨false, side, some v⟩) fun path => verify side path v)
    (hruns : ∀ verify, p.mode = .run verify →
      p.traverse defs = Traversal.run defs p.config p.direction) (s : Schema)
    (value : Option Json) :
    Placed (InPlay defs p.config p.direction ⟨p.mode.running, s, value⟩)
      fun path => p.traverse defs s path value := by
  have hstep : ∀ n, (∀ target v, Placed (InPlay defs p.config p.direction
        ⟨p.mode.running, defs.resolve target, some v⟩) fun path => p.followAt defs n target path v) →
      ∀ s value, Placed (InPlay defs p.config p.direction ⟨p.mode.running, s, value⟩)
        fun path => p.upTo defs n s path value := by
    intro n hfollow s value
    rw [upTo_eq]
    refine visitor_placed (p := p.withFollow (p.followAt defs n))
      ⟨fun target v _ => hfollow target v, hverify, fun verify hmode s v o hok => ?_⟩ s value
    rw [← upTo_eq, Visit.present_eq_ok_iff] at hok
    obtain ⟨out, hout, rfl⟩ := hok
    rw [upTo_eq_traverse (by rw [hout]; exact nofun), hruns verify hmode] at hout
    exact Visit.present_eq_ok_iff.mpr ⟨out, hout, rfl⟩
  -- on the number of references that may be followed
  have hfollow : ∀ n target v, Placed (InPlay defs p.config p.direction
      ⟨p.mode.running, defs.resolve target, some v⟩) fun path => p.followAt defs n target path v := by
    intro n
    induction n with
    | zero => exact fun target v => .looping
    | succ n ih => exact fun target v => (hstep n ih (defs.resolve target) (some v)).present
  -- the budget depends on the value only, so it is the same at every path
  exact hstep _ (hfollow _) s value

end Pass

namespace Traversal

open Spot (InPlay)

variable {defs : Definitions} {config : ValidationConfig} {direction : Direction}

/-- **A check comes to the same at every path.** -/
theorem check_placed (s : Schema) (value : Option Json) :
    Placed (InPlay defs config direction ⟨false, s, value⟩)
      fun path => check defs config direction s path value :=
  Pass.traverse_placed (p := checkPass config direction) nofun nofun s value

/-- **A run comes to the same at every path.** -/
theorem run_placed (s : Schema) (value : Option Json) :
    Placed (InPlay defs config direction ⟨true, s, value⟩)
      fun path => run defs config direction s path value := by
  refine Pass.traverse_placed (p := runPass defs config direction) ?_ (fun _ _ => rfl) s value
  rintro _ ⟨⟩ side v
  exact (check_placed side (some v)).present

end Traversal

namespace Validator

variable {validator : Validator} {value : Option Json} {report : Report}

theorem validateOptional_eq_looping_iff : validator.validateOptional value = .looping ↔
    Traversal.run validator.definitions validator.config validator.direction validator.schema ""
      value = .looping := by
  unfold validateOptional
  cases Traversal.run validator.definitions validator.config validator.direction validator.schema ""
    value <;> simp [Outcome.mapReason]

/-- A value is rejected with some issues, one for each failing path, each with a message. -/
theorem report_of_failed (h : validator.validateOptional value = .failed report) :
    report.issues ≠ [] ∧ report.Tidy := by
  unfold validateOptional at h
  cases hrun : Traversal.run validator.definitions validator.config validator.direction
    validator.schema "" value with
  | failed findings =>
      rw [hrun] at h
      cases h
      refine ⟨?_, Report.tidy_ofFindings findings⟩
      rw [Ne, Report.issues_ofFindings_eq_nil_iff]
      exact (Traversal.run_placed validator.schema value).ne_nil hrun
  | _ => rw [hrun] at h; cases h

end Validator

end RouteContract
