import RouteContract.Proofs.Schema.Discriminator
import RouteContract.Proofs.Schema.Reach

/-!
# OffNull -- schemas up to what their functions do on null

`Schema.offNull` forgets what the conversions and refinements of a schema do on null: on that one
argument each of them is replaced by a function that does nothing. Two schemas differ there only if
they come to the same one this way (`Conversion.offNull_eq_iff`, `Refinement.offNull_eq_iff`).

Forgetting changes no name, tag or flag, so a union stays discriminated by the same key
(`discriminator?_offNull`), and it changes no conversion of another value, so a schema whose
conversions make null out of null only still has that property (`makesNoNull_offNull_iff`).
-/

namespace RouteContract

/-! ## Functions -/

/-- The conversion, leaving null as it is. -/
def Conversion.offNull (convert : Conversion) : Conversion
  | .null => .ok .null
  | v => convert v

/-- The refinement, letting null pass. -/
def Refinement.offNull (judge : Refinement) : Refinement
  | .null => .ok ()
  | v => judge v

theorem Conversion.offNull_of_ne (convert : Conversion) {v : Json} (h : v ≠ .null) :
    convert.offNull v = convert v := by
  cases v <;> first | rfl | exact absurd rfl h

theorem Refinement.offNull_of_ne (judge : Refinement) {v : Json} (h : v ≠ .null) :
    judge.offNull v = judge v := by
  cases v <;> first | rfl | exact absurd rfl h

/-- Conversions come to the same one exactly if they agree on everything but null. -/
theorem Conversion.offNull_eq_iff {convert convert' : Conversion} :
    convert'.offNull = convert.offNull ↔ ∀ v, v ≠ .null → convert' v = convert v := by
  constructor
  · intro heq v hne
    rw [← offNull_of_ne convert' hne, heq, offNull_of_ne convert hne]
  · intro h
    funext v
    by_cases hv : v = .null
    · subst hv
      rfl
    · rw [offNull_of_ne convert' hv, offNull_of_ne convert hv, h v hv]

/-- Refinements come to the same one exactly if they agree on everything but null. -/
theorem Refinement.offNull_eq_iff {judge judge' : Refinement} :
    judge'.offNull = judge.offNull ↔ ∀ v, v ≠ .null → judge' v = judge v := by
  constructor
  · intro heq v hne
    rw [← offNull_of_ne judge' hne, heq, offNull_of_ne judge hne]
  · intro h
    funext v
    by_cases hv : v = .null
    · subst hv
      rfl
    · rw [offNull_of_ne judge' hv, offNull_of_ne judge hv, h v hv]

/-! ## Schemas -/

namespace Schema

mutual

/-- The schema with functions that do nothing on null, at every node. -/
def offNull : Schema → Schema
  | ⟨kind, required, refinement, description⟩ =>
    ⟨offNullKind kind, required, refinement.map Refinement.offNull, description⟩
termination_by structural s => s

/-- The shape with functions that do nothing on null. -/
def offNullKind : Kind Schema → Kind Schema
  | .number => .number
  | .string => .string
  | .boolean => .boolean
  | .any => .any
  | .enum options => .enum options
  | .oneOf options => .oneOf (offNullList options)
  | .array items => .array (offNull items)
  | .object properties => .object (offNullProperties properties)
  | .map values => .map (offNull values)
  | .lazy name target => .lazy name target
  | .transform encoded decoded decode encode =>
    .transform (offNull encoded) (offNull decoded) decode.offNull encode.offNull
  | .custom name parent decode => .custom name (offNull parent) decode.offNull
termination_by structural k => k

/-- The schemas of a list, one by one. -/
def offNullList : List Schema → List Schema
  | [] => []
  | s :: rest => offNull s :: offNullList rest
termination_by structural l => l

/-- The properties of a list, one by one. -/
def offNullProperties : List (String × Schema) → List (String × Schema)
  | [] => []
  | (key, s) :: rest => (key, offNull s) :: offNullProperties rest
termination_by structural l => l

end

theorem offNullList_eq_map (options : List Schema) : offNullList options = options.map offNull := by
  induction options with
  | nil => rfl
  | cons s rest ih => rw [offNullList, ih, List.map_cons]

theorem offNullProperties_eq_map (properties : Entries Schema) :
    offNullProperties properties = Entries.mapValues offNull properties := by
  induction properties with
  | nil => rfl
  | cons p rest ih =>
      rw [offNullProperties, ih]
      rfl

/-! ## Views -/

@[simp] theorem offNull_kind (s : Schema) : s.offNull.kind = offNullKind s.kind := by
  cases s
  rfl

@[simp] theorem offNull_required (s : Schema) : s.offNull.required = s.required := by
  cases s
  rfl

@[simp] theorem offNull_refinement (s : Schema) :
    s.offNull.refinement = s.refinement.map Refinement.offNull := by
  cases s
  rfl

@[simp] theorem isCodec_offNullKind (k : Kind Schema) : (offNullKind k).isCodec = k.isCodec := by
  cases k <;> rfl

theorem singleLiteral?_offNull (s : Schema) : s.offNull.singleLiteral? = s.singleLiteral? := by
  obtain ⟨kind, r, f, d⟩ := s
  cases kind <;> rfl

theorem properties?_offNull (s : Schema) :
    s.offNull.properties? = s.properties?.map (Entries.mapValues offNull) := by
  obtain ⟨kind, r, f, d⟩ := s
  cases kind with
  | object properties => exact congrArg some (offNullProperties_eq_map properties)
  | _ => rfl

theorem conversion?_offNull (s : Schema) (direction : Direction) :
    s.offNull.conversion? direction = (s.conversion? direction).map Conversion.offNull := by
  obtain ⟨kind, r, f, d⟩ := s
  cases kind <;> cases direction <;> rfl

/-- What a union looks at is left alone. -/
theorem readsAlike_offNull (s : Schema) : ReadsAlike s s.offNull where
  names := by
    rw [properties?_offNull, Option.map_map]
    congr 1
    funext properties
    exact Entries.keys_mapValues offNull properties
  tag key := by
    unfold tag? property?
    rw [properties?_offNull]
    cases s.properties? with
    | none => rfl
    | some properties =>
        rw [Option.map_some, Option.bind_some, Option.bind_some, Entries.get?_mapValues]
        cases Entries.get? properties key with
        | none => rfl
        | some t => exact singleLiteral?_offNull t

theorem forall₂_readsAlike_offNull (options : List Schema) :
    List.Forall₂ ReadsAlike options (options.map offNull) :=
  List.forall₂_map_right_iff.mpr (List.forall₂_same.mpr fun s _ => readsAlike_offNull s)

theorem discriminator?_offNull (options : List Schema) :
    discriminator? (options.map offNull) = discriminator? options :=
  discriminator?_congr (forall₂_readsAlike_offNull options)

end Schema

/-! ## Definitions -/

/-- The definitions with functions that do nothing on null. -/
def Definitions.offNull (defs : Definitions) : Definitions :=
  ⟨Entries.mapValues Schema.offNull defs.entries⟩

theorem Definitions.resolve_offNull (defs : Definitions) (target : String) :
    defs.offNull.resolve target = (defs.resolve target).offNull := by
  unfold Definitions.resolve Definitions.offNull
  rw [Entries.get?_mapValues]
  cases Entries.get? defs.entries target <;> rfl

theorem Definitions.size_offNull (defs : Definitions) : defs.offNull.size = defs.size :=
  List.length_map _

namespace Schema

variable {defs : Definitions} {s t : Schema}

/-! ## Conversions that make no null -/

/-- **No conversion in the schema makes null out of another value.** What it does on null is its own
affair. -/
def MakesNoNull (defs : Definitions) (s : Schema) : Prop :=
  Throughout defs (fun t => ∀ direction convert, t.conversion? direction = some convert →
    ∀ v, v ≠ .null → convert v ≠ .ok .null) s

theorem NeverNull.makesNoNull (h : NeverNull defs s) : MakesNoNull defs s :=
  h.imp fun _ ht direction convert hconvert v _ => ht direction convert hconvert v

theorem Part.offNull (h : Part defs s t) : Part defs.offNull s.offNull t.offNull := by
  cases h with
  | option hmem => exact .option (offNullList_eq_map _ ▸ List.mem_map_of_mem hmem)
  | items => exact .items
  | @property properties _ _ _ p hmem =>
      have hmem' : (p.1, p.2.offNull) ∈ offNullProperties properties :=
        offNullProperties_eq_map properties ▸ List.mem_map_of_mem hmem
      exact .property hmem'
  | values => exact .values
  | target => exact Definitions.resolve_offNull defs _ ▸ .target
  | encoded => exact .encoded
  | decoded => exact .decoded
  | parent => exact .parent

/-- Every part of the schema without its functions on null is a part of the schema without them. -/
theorem Part.of_offNull (h : Part defs.offNull s.offNull t) : ∃ u, Part defs s u ∧ t = u.offNull := by
  obtain ⟨kind, r, f, d⟩ := s
  cases kind with
  | number | string | boolean | any | enum => cases h
  | oneOf options =>
      cases h with
      | option hmem =>
          rw [offNullList_eq_map] at hmem
          obtain ⟨u, hu, rfl⟩ := List.mem_map.mp hmem
          exact ⟨u, .option hu, rfl⟩
  | array items =>
      cases h
      exact ⟨_, .items, rfl⟩
  | object properties =>
      cases h with
      | property hmem =>
          rw [offNullProperties_eq_map] at hmem
          obtain ⟨p, hp, rfl⟩ := List.mem_map.mp hmem
          exact ⟨p.2, .property hp, rfl⟩
  | map values =>
      cases h
      exact ⟨_, .values, rfl⟩
  | lazy name target =>
      cases h
      exact ⟨_, .target, Definitions.resolve_offNull defs target⟩
  | transform encoded decoded dec enc =>
      cases h with
      | encoded => exact ⟨_, .encoded, rfl⟩
      | decoded => exact ⟨_, .decoded, rfl⟩
  | custom name parent dec =>
      cases h
      exact ⟨_, .parent, rfl⟩

/-- What a schema reaches and what it reaches without its functions on null are the same schemas,
the latter without theirs. -/
theorem reaches_offNull_iff :
    Reaches defs.offNull s.offNull t ↔ ∃ u, Reaches defs s u ∧ t = u.offNull := by
  constructor
  · intro h
    induction h with
    | refl => exact ⟨s, .refl, rfl⟩
    | tail _ hpart ih =>
        obtain ⟨u, hu, rfl⟩ := ih
        obtain ⟨w, hw, rfl⟩ := hpart.of_offNull
        exact ⟨w, hu.tail hw, rfl⟩
  · rintro ⟨u, hu, rfl⟩
    induction hu with
    | refl => exact .refl
    | tail _ hpart ih => exact ih.tail hpart.offNull

theorem makesNoNull_offNull_iff : MakesNoNull defs.offNull s.offNull ↔ MakesNoNull defs s := by
  constructor
  · intro h t ht direction convert hconvert v hne
    have hoff := h t.offNull (reaches_offNull_iff.mpr ⟨t, ht, rfl⟩) direction convert.offNull
      (by rw [conversion?_offNull, hconvert, Option.map_some]) v hne
    rwa [Conversion.offNull_of_ne convert hne] at hoff
  · intro h t ht direction convert hconvert v hne
    obtain ⟨u, hu, rfl⟩ := reaches_offNull_iff.mp ht
    rw [conversion?_offNull, Option.map_eq_some_iff] at hconvert
    obtain ⟨own, hown, rfl⟩ := hconvert
    rw [Conversion.offNull_of_ne own hne]
    exact h u hu direction own hown v hne

end Schema

end RouteContract
