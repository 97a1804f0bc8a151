import RouteContract.Proofs.Document.Admits
import RouteContract.Proofs.Validation.Budget

/-!
# Accepted -- the documentation admits what the decoder accepts

The documentation describes the wire side of every codec. Two traversals look at that side too: a
decoding run, which accepts a value on the wire side before it converts it, and a check of encoded
output, which compares it with the wire side as it stands (`Pass.ReadsWire`). Whatever such a
traversal accepts, the compiled schema object admits (`shape_describes`): both recurse on the schema
in the same way, and a reference that the traversal follows is one that the compilation has
registered.
-/

namespace RouteContract

open SchemaObject (Admits)
open Describe (Documented wireObject wireShape)

namespace Pass

variable {p : Pass} {defs : Definitions} {entries : Entries SchemaObject}

/-! ## Passes that read the wire side -/

/-- A pass that accepts the wire side of codecs: running while it decodes, or checking what was
encoded. -/
def ReadsWire (p : Pass) : Prop :=
  (p.direction = .decode ∧ ∃ verify, p.mode = .run verify) ∨
    (p.direction = .encode ∧ p.mode = .check)

theorem transform_accepts (hwire : p.ReadsWire) {e c : Schema} {dec enc : Conversion}
    {path : String} {v out : Json} (hok : p.shape (.transform e c dec enc) path v = .ok out) :
    ∃ o, Visit.present (p.visitor e) path v = .ok o := by
  rcases hwire with ⟨hdir, verify, hmode⟩ | ⟨hdir, hmode⟩
  · rw [shape_transform_decode hdir] at hok
    obtain ⟨accepted, ha, _⟩ := (transform_run_eq_ok_iff hmode).mp hok
    exact ⟨accepted, ha⟩
  · rw [shape_transform_encode hdir, transform_check hmode] at hok
    exact ⟨out, hok⟩

theorem custom_accepts (hwire : p.ReadsWire) {name : String} {parent : Schema} {dec : Conversion}
    {path : String} {v out : Json} (hok : p.shape (.custom name parent dec) path v = .ok out) :
    ∃ o, Visit.present (p.visitor parent) path v = .ok o := by
  rw [shape] at hok
  rcases hwire with ⟨hdir, verify, hmode⟩ | ⟨hdir, hmode⟩
  · rw [custom_decode_run hdir hmode, Outcome.bind_eq_ok_iff] at hok
    obtain ⟨accepted, ha, _⟩ := hok
    exact ⟨accepted, ha⟩
  · rw [custom_encode hdir] at hok
    exact ⟨out, hok⟩

/-! ## From visitors to schema objects -/

/-- Whatever the visitor accepts, the schema object admits. -/
def Describes (entries : Entries SchemaObject) (node : SchemaObject) (visit : Visitor) : Prop :=
  ∀ path v out, visit path (some v) = .ok out → Admits entries node v

/-- The same for what is done with values that are not null. -/
def DescribesShape (entries : Entries SchemaObject) (node : SchemaObject)
    (visit : String → Json → Visit Json) : Prop :=
  ∀ path v out, v ≠ .null → visit path v = .ok out → Admits entries node v

theorem Describes.present {node : SchemaObject} {visit : Visitor} (h : Describes entries node visit)
    {path : String} {v out : Json} (hok : Visit.present visit path v = .ok out) :
    Admits entries node v := by
  obtain ⟨o, ho, _⟩ := Visit.present_eq_ok_iff.mp hok
  exact h path v o ho

theorem DescribesShape.visitor {s : Schema}
    (h : DescribesShape entries (wireShape s.kind) (p.shape s.kind)) :
    Describes entries (wireObject s) (p.visitor s) := by
  intro path v out hok
  rw [visitor_eq] at hok
  rcases node_eq_ok_iff.mp hok with ⟨habsent, hrequired, _⟩ | ⟨_, o, heq, hne, hvisit, _⟩
  · obtain rfl : v = .null := by simpa [Absent] using habsent
    exact Describe.admits_null hrequired
  · cases heq
    exact Describe.admits_wireObject (h path v o hne hvisit)

/-- A node inside a codec is documented by its shape alone. -/
theorem DescribesShape.nested {s : Schema}
    (h : DescribesShape entries (wireShape s.kind) (p.shape s.kind)) {path : String} {v out : Json}
    (hne : v ≠ .null) (hok : Visit.present (p.visitor s) path v = .ok out) :
    Admits entries (wireShape s.kind) v := by
  rw [visitor_eq, present_node_eq_ok_iff hne] at hok
  exact h path v out hne hok.1

theorem enum_describes {literals : List Json} {path : String} {v out : Json}
    (hok : enum literals path v = .ok out) : Admits entries (wireShape (.enum literals)) v := by
  obtain ⟨⟨literal, hmem, hequal⟩, _⟩ := enum_eq_ok_iff.mp hok
  exact SchemaObject.Admits.enum
    (fun name hname => Describe.typeName_of_literalType? hname hmem hequal) ⟨literal, hmem, hequal⟩

theorem array_describes {items : Schema}
    (h : Describes entries (wireObject items) (p.visitor items)) :
    DescribesShape entries (wireShape (.array items)) (array (p.visitor items)) := by
  intro path v out _ hok
  obtain ⟨xs, ys, rfl, rfl, hys⟩ := array_eq_ok_iff.mp hok
  rw [Describe.wireShape_array]
  apply SchemaObject.Admits.array
  intro x hx
  obtain ⟨y, _, i, hvisit⟩ := exists_left_of_forall₂ (forall₂_of_zipIdx hys).flip hx
  exact h.present hvisit

theorem map_describes {values : Schema}
    (h : Describes entries (wireObject values) (p.visitor values)) :
    DescribesShape entries (wireShape (.map values)) (map (p.visitor values)) := by
  intro path v out _ hok
  obtain ⟨ms, ns, rfl, rfl, hns⟩ := map_eq_ok_iff.mp hok
  rw [Describe.wireShape_map]
  apply SchemaObject.Admits.map
  intro m hm
  obtain ⟨n, _, _, hvisit⟩ := exists_left_of_forall₂ hns.flip hm
  exact h.present hvisit

/-- A required property is accepted only if it is there. -/
theorem required_accepts {s : Schema} (hrequired : s.required = true) {path : String}
    {value out : Option Json} (hok : p.visitor s path value = .ok out) :
    ∃ v o, value = some v ∧ out = some o := by
  rw [visitor_eq] at hok
  rcases node_eq_ok_iff.mp hok with ⟨_, hoptional, _⟩ | ⟨v, o, rfl, _, _, _, rfl⟩
  · rw [hrequired] at hoptional
    cases hoptional
  · exact ⟨v, o, rfl, rfl⟩

theorem object_describes {properties : Entries Schema}
    (h : ∀ property ∈ properties,
      Describes entries (wireObject property.2) (p.visitor property.2)) :
    DescribesShape entries (wireShape (.object properties))
      (p.object (Entries.mapValues p.visitor properties)) := by
  intro path v out _ hok
  obtain ⟨ms, fields, rfl, hfields, _, _⟩ := object_eq_ok_iff.mp hok
  have hdeclared : ∀ property ∈ properties, ∃ o,
      p.visitor property.2 (Visit.childPath path property.1) (Entries.get? ms property.1) = .ok o := by
    intro property hmem
    obtain ⟨field, _, _, hvisit⟩ :=
      exists_left_of_forall₂ hfields.flip (List.mem_map_of_mem hmem)
    exact ⟨field.2, hvisit⟩
  rw [Describe.wireShape_object]
  -- a required name is present because its property accepted, the others hold what theirs accepted
  refine SchemaObject.Admits.object (fun key hkey => ?_) fun q hq x hx => ?_
  · obtain ⟨property, hproperty, rfl⟩ := List.mem_map.mp hkey
    obtain ⟨hmem, hrequired⟩ := List.mem_filter.mp hproperty
    obtain ⟨o, hvisit⟩ := hdeclared property hmem
    obtain ⟨x, _, hx, _⟩ := required_accepts hrequired hvisit
    rw [Entries.has, hx]
    rfl
  · obtain ⟨property, hmem, rfl⟩ := List.mem_map.mp hq
    obtain ⟨o, hvisit⟩ := hdeclared property hmem
    rw [hx] at hvisit
    exact h property hmem _ x o hvisit

/-- **A pass that reads the wire side accepts only what is documented**, if the definitions do. -/
theorem shape_describes (hwire : p.ReadsWire) {f : String → String → Json → Visit Json}
    (hf : ∀ target, Documented defs entries (defs.resolve target) → ∀ path v out,
      f target path v = .ok out → Admits entries (wireObject (defs.resolve target)) v)
    (s : Schema) (hs : Documented defs entries s) :
    DescribesShape entries (wireShape s.kind) ((p.withFollow f).shape s.kind) := by
  have hwire' : (p.withFollow f).ReadsWire := hwire
  induction s with
  | number | string | boolean =>
      intro path v out _ hok
      obtain ⟨htype, _⟩ := Visit.expect_eq_ok_iff.mp hok
      apply SchemaObject.Admits.ofType
      cases v <;> first | rfl | cases htype
  | any => exact fun _ _ _ _ _ => SchemaObject.Admits.empty
  | enum options => exact fun _ _ _ _ hok => enum_describes hok
  | lazy name target =>
      intro path v out _ hok
      obtain ⟨hbody, htarget⟩ := hs.target
      exact SchemaObject.Admits.reference hbody (hf target htarget path v out hok)
  | oneOf options r g d ih =>
      intro path v out _ hok
      obtain ⟨option, hmem, hvisit⟩ := oneOf_result hok
      rw [Describe.wireShape_oneOf]
      exact SchemaObject.Admits.oneOf (List.mem_map_of_mem hmem)
        ((ih option hmem (hs.option hmem)).visitor.present hvisit)
  | array items r g d ih =>
      exact array_describes (ih (hs.of_subset fun _ h => h)).visitor
  | object properties r g d ih =>
      show DescribesShape entries _
        ((p.withFollow f).object ((p.withFollow f).propertyVisitors properties))
      rw [propertyVisitors_eq_map]
      exact object_describes fun property hmem => (ih property hmem (hs.property hmem)).visitor
  | map values r g d ih =>
      exact map_describes (ih (hs.of_subset fun _ h => h)).visitor
  -- a codec accepts what its wire side accepts, and is documented as that
  | transform e c dec enc r g d ihe _ =>
      intro path v out hne hok
      obtain ⟨o, ho⟩ := transform_accepts hwire' hok
      rw [Describe.wireShape_transform]
      exact (ihe (hs.of_subset fun _ h => h)).nested hne ho
  | custom name parent dec r g d ih =>
      intro path v out hne hok
      obtain ⟨o, ho⟩ := custom_accepts hwire' hok
      rw [Describe.wireShape_custom]
      exact ((ih (hs.of_subset fun _ h => h)).nested hne ho).titled

theorem followAt_describes (hwire : p.ReadsWire) (n : Nat) (target : String)
    (hs : Documented defs entries (defs.resolve target)) (path : String) (v out : Json)
    (hok : p.followAt defs n target path v = .ok out) :
    Admits entries (wireObject (defs.resolve target)) v := by
  induction n generalizing target path v out with
  | zero => cases hok
  | succ n ih =>
      rw [followAt, upTo_eq] at hok
      exact (shape_describes hwire ih _ hs).visitor.present hok

theorem traverse_describes (hwire : p.ReadsWire) {s : Schema} (hs : Documented defs entries s) :
    Describes entries (wireObject s) (p.traverse defs s) := by
  intro path v out hok
  unfold traverse at hok
  rw [upTo_eq] at hok
  exact (shape_describes hwire (followAt_describes hwire _) s hs).visitor path v out hok

end Pass

namespace Validator

/-- **The documentation admits everything the decoder accepts.** Whatever a decoding validator
accepts, under any configuration, is admitted by the schema object compiled from its schema, with
the definitions collected on the way, if every name stands for one schema. -/
theorem decoded_documented (validator : Validator) (hdirection : validator.direction = .decode)
    (hnames : Schema.NamesAgree validator.definitions validator.schema) {v out : Json}
    (hok : validator.validate v = .ok out) :
    let compiled := (Describe.compile validator.definitions validator.schema).run {}
    Admits compiled.2.entries compiled.1 v := by
  rw [validate_eq_ok_iff, hdirection, Traversal.run_eq_traverse] at hok
  intro compiled
  rw [show compiled.1 = wireObject validator.schema from (Describe.compile_registered _ _).1]
  have hwire : (Traversal.runPass validator.definitions validator.config .decode).ReadsWire :=
    .inl ⟨rfl, _, rfl⟩
  exact (Pass.traverse_describes hwire (Describe.compile_documented hnames)).present hok

/-- Two switches, one behind the other, as they come in. -/
theorem decoded_documented_switches :
    let decoder : Validator := { schema := switch, definitions := switches }
    let wire := Json.obj [("next", .obj [("on", .str "false")]), ("on", .str "true")]
    let value := Json.obj [("on", .bool true), ("next", .obj [("on", .bool false)])]
    let compiled := (Describe.compile switches switch).run {}
    decoder.validate wire = .ok value ∧ Admits compiled.2.entries compiled.1 wire := by
  intro decoder wire value compiled
  have hok : decoder.validate wire = .ok value := rfl
  exact ⟨hok, decoded_documented decoder rfl namesAgree_switch hok⟩

end Validator

end RouteContract
