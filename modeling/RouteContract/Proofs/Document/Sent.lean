import RouteContract.Endpoint.Reply
import RouteContract.Proofs.Document.Accepted

/-!
# Sent -- responses match the documentation

What an encoding run puts out is admitted by the compiled schema object (`shape_yields`). A codec
converts a value in a way nothing is known of, but its result is checked against the wire side before
it goes out, and that check accepts only what is documented. Around codecs the argument is about
outputs: every part of what a container puts out comes from the visitor of a part, under the same
name.
-/

namespace RouteContract

open SchemaObject (Admits)
open Describe (Documented wireObject wireShape)
open Schema (WellFormed NeverNull)

namespace Pass

variable {p : Pass} {defs : Definitions} {entries : Entries SchemaObject}

/-! ## What is put out -/

/-- Whatever the visitor puts out, the schema object admits. -/
def Yields (entries : Entries SchemaObject) (node : SchemaObject) (visit : Visitor) : Prop :=
  ∀ path value w, WellFormedOption value → visit path value = .ok (some w) → Admits entries node w

/-- The same for what is done with values that are not null. -/
def YieldsShape (entries : Entries SchemaObject) (node : SchemaObject)
    (visit : String → Json → Visit Json) : Prop :=
  ∀ path v w, v.WellFormed → v ≠ .null → visit path v = .ok w → Admits entries node w

theorem YieldsShape.visitor {s : Schema}
    (h : YieldsShape entries (wireShape s.kind) (p.shape s.kind)) :
    Yields entries (wireObject s) (p.visitor s) := by
  intro path value w hwf hok
  rw [visitor_eq] at hok
  rcases node_eq_ok_iff.mp hok with ⟨habsent, hrequired, rfl⟩ | ⟨v, o, rfl, hne, hvisit, _, heq⟩
  · obtain rfl : w = .null := by simpa [Absent] using habsent
    exact Describe.admits_null hrequired
  · cases heq
    exact Describe.admits_wireObject (h path v w (hwf v rfl) hne hvisit)

/-- A node keeps a present value present. -/
theorem visitor_present {s : Schema} {path : String} {v : Json} {out : Option Json}
    (hok : p.visitor s path (some v) = .ok out) : ∃ w, out = some w := by
  rw [visitor_eq] at hok
  rcases node_eq_ok_iff.mp hok with ⟨_, _, rfl⟩ | ⟨_, w, _, _, _, _, rfl⟩
  · exact ⟨v, rfl⟩
  · exact ⟨w, rfl⟩

theorem Yields.present {node : SchemaObject} {s : Schema} (h : Yields entries node (p.visitor s))
    {path : String} {v w : Json} (hwf : v.WellFormed)
    (hok : Visit.present (p.visitor s) path v = .ok w) : Admits entries node w := by
  obtain ⟨o, ho, rfl⟩ := Visit.present_eq_ok_iff.mp hok
  obtain ⟨w, rfl⟩ := visitor_present ho
  exact h path (some v) w (wellFormedOption_some hwf) ho

theorem array_yields {items : Schema} (h : Yields entries (wireObject items) (p.visitor items)) :
    YieldsShape entries (wireShape (.array items)) (array (p.visitor items)) := by
  intro path v w hwf _ hok
  obtain ⟨xs, ys, rfl, rfl, hys⟩ := array_eq_ok_iff.mp hok
  rw [Describe.wireShape_array]
  apply SchemaObject.Admits.array
  intro y hy
  obtain ⟨x, hx, i, hvisit⟩ := exists_left_of_forall₂ (forall₂_of_zipIdx hys) hy
  exact h.present (hwf.element hx) hvisit

theorem map_yields {values : Schema} (h : Yields entries (wireObject values) (p.visitor values)) :
    YieldsShape entries (wireShape (.map values)) (map (p.visitor values)) := by
  intro path v w hwf _ hok
  obtain ⟨ms, ns, rfl, rfl, hns⟩ := map_eq_ok_iff.mp hok
  rw [Describe.wireShape_map]
  apply SchemaObject.Admits.map
  intro n hn
  obtain ⟨m, hm, _, hvisit⟩ := exists_left_of_forall₂ hns hn
  exact h.present (hwf.member hm) hvisit

theorem object_yields {properties : Entries Schema} (hdistinct : Entries.Distinct properties)
    (h : ∀ property ∈ properties, Yields entries (wireObject property.2) (p.visitor property.2)) :
    YieldsShape entries (wireShape (.object properties))
      (p.object (Entries.mapValues p.visitor properties)) := by
  intro path v w hwf _ hok
  obtain ⟨ms, ns, rfl, rfl, _, hns⟩ :=
    object_result (hdistinct.mapValues _) hok fun ms hms => (hms ▸ hwf).distinct
  have hdeclared : ∀ property ∈ properties,
      p.visitor property.2 (Visit.childPath path property.1) (Entries.get? ms property.1) =
        .ok (Entries.get? ns property.1) := by
    intro property hmem
    refine hns.declared property.1 _ ?_
    rw [Entries.get?_mapValues, hdistinct.get?_of_mem hmem]
    rfl
  rw [Describe.wireShape_object]
  refine SchemaObject.Admits.object (fun key hkey => ?_) fun q hq x hx => ?_
  · obtain ⟨property, hproperty, rfl⟩ := List.mem_map.mp hkey
    obtain ⟨hmem, hrequired⟩ := List.mem_filter.mp hproperty
    obtain ⟨_, x, _, hx⟩ := required_accepts hrequired (hdeclared property hmem)
    rw [Entries.has, hx]
    rfl
  · obtain ⟨property, hmem, rfl⟩ := List.mem_map.mp hq
    have hvisit := hdeclared property hmem
    rw [show Entries.get? ns property.1 = some x from hx] at hvisit
    exact h property hmem _ _ x (fun v hv => hwf.get? hv) hvisit

end Pass

namespace Traversal

open Pass (Yields YieldsShape)

variable {defs : Definitions} {config : ValidationConfig} {entries : Entries SchemaObject}

/-- A value that passes the check of encoded output is documented by the shape that it is checked
against. -/
theorem check_describes {s : Schema} (hs : Documented defs entries s) {path : String} {w out : Json}
    (hne : w ≠ .null) (hok : Visit.present (check defs config .encode s) path w = .ok out) :
    Admits entries (wireShape s.kind) w := by
  have hwire : (checkPass config .encode).ReadsWire := .inr ⟨rfl, rfl⟩
  rw [check_eq] at hok
  refine (Pass.shape_describes hwire (fun target htarget path v out hok => ?_) s hs).nested hne hok
  exact (Pass.traverse_describes hwire htarget).present hok

/-- **An encoding run puts out only what is documented**, if the definitions do. -/
theorem shape_yields (hverify : config.verifyOutput = true)
    {f : String → String → Json → Visit Json}
    (hf : ∀ target, WellFormed defs (defs.resolve target) → NeverNull defs (defs.resolve target) →
      Documented defs entries (defs.resolve target) → ∀ path v w, v.WellFormed →
        f target path v = .ok w → Admits entries (wireObject (defs.resolve target)) w)
    (s : Schema) (hs : WellFormed defs s) (hnull : NeverNull defs s)
    (hdoc : Documented defs entries s) :
    YieldsShape entries (wireShape s.kind)
      (((runPass defs config .encode).withFollow f).shape s.kind) := by
  let p := (runPass defs config .encode).withFollow f
  induction s with
  | number | string | boolean =>
      intro path v w _ _ hok
      obtain ⟨htype, rfl⟩ := Visit.expect_eq_ok_iff.mp hok
      apply SchemaObject.Admits.ofType
      cases w <;> first | rfl | cases htype
  | any => exact fun _ _ _ _ _ _ => SchemaObject.Admits.empty
  | enum options =>
      intro path v w _ _ hok
      obtain ⟨_, rfl⟩ := Pass.enum_eq_ok_iff.mp hok
      exact Pass.enum_describes hok
  | lazy name target =>
      intro path v w hwf _ hok
      obtain ⟨hbody, htarget⟩ := hdoc.target
      exact SchemaObject.Admits.reference hbody
        (hf target (hs.part .target) (hnull.part .target) htarget path v w hwf hok)
  | oneOf options r g d ih =>
      intro path v w hwf _ hok
      obtain ⟨option, hmem, hvisit⟩ := Pass.oneOf_result hok
      have hoption := ih option hmem (hs.part (.option hmem)) (hnull.part (.option hmem))
        (hdoc.option hmem)
      rw [Describe.wireShape_oneOf]
      exact SchemaObject.Admits.oneOf (List.mem_map_of_mem hmem)
        (hoption.visitor.present hwf hvisit)
  | array items r g d ih =>
      exact Pass.array_yields
        (ih (hs.part .items) (hnull.part .items) (hdoc.of_subset fun _ h => h)).visitor
  | object properties r g d ih =>
      show YieldsShape entries _ (p.object (p.propertyVisitors properties))
      rw [Pass.propertyVisitors_eq_map]
      refine Pass.object_yields (hs.self.distinct properties rfl) fun property hmem => ?_
      exact (ih property hmem (hs.part (.property hmem)) (hnull.part (.property hmem))
        (hdoc.property hmem)).visitor
  | map values r g d ih =>
      exact Pass.map_yields
        (ih (hs.part .values) (hnull.part .values) (hdoc.of_subset fun _ h => h)).visitor
  | transform e c dec enc r g d ihe ihc =>
      intro path v w hwf hne hok
      have hencode : p.direction = .encode := rfl
      rw [Pass.shape_transform_encode hencode] at hok
      -- nothing is known of what the codec makes of the value, except that it was verified
      obtain ⟨accepted, _, hconv, hverified⟩ := (Pass.transform_run_eq_ok_iff rfl).mp hok
      obtain ⟨o, ho⟩ := hverified hverify
      have hwnull : w ≠ .null := by
        rintro rfl
        exact hnull.self .encode enc rfl accepted hconv
      rw [Describe.wireShape_transform]
      exact check_describes (hdoc.of_subset (t := e) fun _ h => h) hwnull ho
  | custom name parent dec r g d ih =>
      intro path v w hwf hne hok
      have hencode : p.direction = .encode := rfl
      rw [Pass.shape, Pass.custom_encode hencode, Pass.visitor_eq,
        Pass.present_node_eq_ok_iff hne] at hok
      rw [Describe.wireShape_custom]
      exact (ih (hs.part .parent) (hnull.part .parent) (hdoc.of_subset fun _ h => h) path v w hwf hne
        hok.1).titled

theorem followAt_yields (hverify : config.verifyOutput = true) (n : Nat) (target : String)
    (hs : WellFormed defs (defs.resolve target)) (hnull : NeverNull defs (defs.resolve target))
    (hdoc : Documented defs entries (defs.resolve target)) (path : String) (v w : Json)
    (hwf : v.WellFormed) (hok : (runPass defs config .encode).followAt defs n target path v = .ok w) :
    Admits entries (wireObject (defs.resolve target)) w := by
  induction n generalizing target path v w with
  | zero => cases hok
  | succ n ih =>
      rw [Pass.followAt, Pass.upTo_eq] at hok
      exact (shape_yields hverify ih _ hs hnull hdoc).visitor.present hwf hok

theorem run_yields (hverify : config.verifyOutput = true) {s : Schema} (hs : WellFormed defs s)
    (hnull : NeverNull defs s) (hdoc : Documented defs entries s) {path : String} {v w : Json}
    (hwf : v.WellFormed) (hok : Visit.present (run defs config .encode s) path v = .ok w) :
    Admits entries (wireObject s) w := by
  obtain ⟨o, ho, rfl⟩ := Visit.present_eq_ok_iff.mp hok
  rw [run_eq_traverse, Pass.traverse, Pass.upTo_eq] at ho
  obtain ⟨w, rfl⟩ := Pass.visitor_present ho
  exact (shape_yields hverify (followAt_yields hverify _) s hs hnull hdoc).visitor path (some v) w
    (wellFormedOption_some hwf) ho

end Traversal

namespace Reply

/-- **Every response written through the response schema matches its documentation.** If an encoding
validator that verifies the output of codecs accepts a value, the reply answers with what the
validator put out, and the schema object compiled from the response schema admits that, with the
definitions collected on the way: provided that every name stands for one schema and that no codec
function returns null. -/
theorem sent_documented (reply : Reply) (validator : Validator)
    (hresponse : reply.response = some validator) (hdirection : validator.direction = .encode)
    (hverify : validator.config.verifyOutput = true)
    (hwf : WellFormed validator.definitions validator.schema)
    (hnames : Schema.NamesAgree validator.definitions validator.schema)
    (hnull : NeverNull validator.definitions validator.schema) {value w : Json}
    (hvalue : value.WellFormed) (hok : validator.validate value = .ok w) :
    let compiled := (Describe.compile validator.definitions validator.schema).run {}
    reply.sendTransformed value = some { status := reply.status, body := some w } ∧
      Admits compiled.2.entries compiled.1 w := by
  intro compiled
  constructor
  · unfold sendTransformed
    rw [hresponse]
    dsimp only
    rw [hok]
    rfl
  · rw [show compiled.1 = wireObject validator.schema from (Describe.compile_registered _ _).1]
    rw [Validator.validate_eq_ok_iff, hdirection] at hok
    exact Traversal.run_yields hverify hwf hnull (Describe.compile_documented hnames) hvalue hok

/-- Two switches, one behind the other, as they go out. -/
theorem sent_documented_switches :
    let encoder : Validator := { schema := switch, definitions := switches, direction := .encode }
    let value := Json.obj [("next", .obj [("on", .bool false)]), ("on", .bool true)]
    let wire := Json.obj [("on", .str "true"), ("next", .obj [("on", .str "false")])]
    let reply : Reply := { response := some encoder }
    let compiled := (Describe.compile switches switch).run {}
    reply.sendTransformed value = some { status := 200, body := some wire } ∧
      Admits compiled.2.entries compiled.1 wire := by
  intro encoder value wire reply compiled
  have hvalue : value.WellFormed := by
    simp [value, Entries.Distinct, Entries.keys, Json.WellFormed, Json.WellFormedMembers]
  have hok : encoder.validate value = .ok wire := rfl
  exact sent_documented reply encoder rfl rfl rfl wellFormed_switch namesAgree_switch
    neverNull_switch hvalue hok

end Reply

end RouteContract
