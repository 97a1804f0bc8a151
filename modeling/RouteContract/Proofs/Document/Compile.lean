import Mathlib.Data.List.Nodup
import RouteContract.Document.Compiler
import RouteContract.Proofs.Registry
import RouteContract.Proofs.Schema.Reach

/-!
# Compile -- what a compilation returns and what it registers

The schema object of a schema does not depend on the registry (`Describe.wireObject`), and the
registry only hears of the references on the wire side, in order (`Describe.wireRefs`): so a
compilation is the one paired with a fold over the others (`schema_eq`). That fold follows the
references to their ends (`compile_follows`): there are no more names to open than lazy nodes, and so
many levels a compilation allows itself. What is left to say about recursive definitions is said
about registries alone. When nothing is in progress any more, every name that can be reached has the
object of its definition as body (`compile_documented`).
-/

namespace RouteContract

namespace Describe

open Registry (Bodies Bounded Follows Registered Room hear)

/-! ## References on the wire side -/

mutual

/-- Name and target of the lazy nodes that a compilation meets, in order. Of a codec only the wire
side counts. -/
def wireRefs : Schema → List (String × String)
  | ⟨kind, _, _, _⟩ => shapeRefs kind
termination_by structural s => s

/-- The references of a shape. -/
def shapeRefs : Kind Schema → List (String × String)
  | .oneOf options => listRefs options
  | .array items => wireRefs items
  | .object properties => propertyRefs properties
  | .map values => wireRefs values
  | .lazy name target => [(name, target)]
  | .transform encoded _ _ _ => wireRefs encoded
  | .custom _ parent _ => wireRefs parent
  | .number | .string | .boolean | .any | .enum _ => []
termination_by structural k => k

/-- The references of a list of schemas. -/
def listRefs : List Schema → List (String × String)
  | [] => []
  | s :: rest => wireRefs s ++ listRefs rest
termination_by structural l => l

/-- The references of a list of properties. -/
def propertyRefs : List (String × Schema) → List (String × String)
  | [] => []
  | (_, s) :: rest => wireRefs s ++ propertyRefs rest
termination_by structural l => l

end

theorem listRefs_eq (options : List Schema) : listRefs options = options.flatMap wireRefs := by
  induction options with
  | nil => rfl
  | cons s rest ih => rw [listRefs, ih, List.flatMap_cons]

theorem propertyRefs_eq (properties : List (String × Schema)) :
    propertyRefs properties = properties.flatMap fun p => wireRefs p.2 := by
  induction properties with
  | nil => rfl
  | cons p rest ih => rw [propertyRefs, ih, List.flatMap_cons]

/-! ## A compilation, taken apart -/

/-- The schema object of a schema. -/
def wireObject (s : Schema) : SchemaObject := (schema (fun _ _ => return ()) s {}).1

/-- The schema object of a shape, before annotations. -/
def wireShape (kind : Kind Schema) : SchemaObject := (shape (fun _ _ => return ()) kind {}).1

theorem schema_eq_annotate (follow : String → String → Describe Unit) (s : Schema)
    (r : Registry SchemaObject) :
    schema follow s r =
      (annotate s.required s.wireDescription (shape follow s.kind r).1, (shape follow s.kind r).2) := by
  cases s
  rfl

theorem wireObject_eq (s : Schema) :
    wireObject s = annotate s.required s.wireDescription (wireShape s.kind) := by
  unfold wireObject
  rw [schema_eq_annotate]
  rfl

theorem nested_eq (follow : String → String → Describe Unit) (s : Schema) :
    nested follow s = shape follow s.kind := by
  cases s
  rfl

/-- A compilation is the object of the schema, paired with the registry after its references. -/
def Splits (follow : String → String → Describe Unit) (s : Schema) : Prop :=
  ∀ r, schema follow s r = (wireObject s, (wireRefs s).foldl (hear follow) r)

variable {follow : String → String → Describe Unit}

theorem splits_of_shape {s : Schema}
    (h : ∀ r, shape follow s.kind r = (wireShape s.kind, (wireRefs s).foldl (hear follow) r)) :
    Splits follow s := by
  intro r
  rw [schema_eq_annotate, h, wireObject_eq]

theorem list_eq {options : List Schema} (h : ∀ s ∈ options, Splits follow s)
    (r : Registry SchemaObject) :
    list follow options r = (options.map wireObject, (listRefs options).foldl (hear follow) r) := by
  induction options generalizing r with
  | nil => rfl
  | cons s rest ih =>
      rw [List.forall_mem_cons] at h
      show ((schema follow s r).1 :: (list follow rest (schema follow s r).2).1,
        (list follow rest (schema follow s r).2).2) = _
      rw [h.1, ih h.2, listRefs, List.foldl_append, List.map_cons]

theorem propertyList_eq {properties : List (String × Schema)}
    (h : ∀ p ∈ properties, Splits follow p.2) (r : Registry SchemaObject) :
    propertyList follow properties r =
      (Entries.mapValues wireObject properties,
        (propertyRefs properties).foldl (hear follow) r) := by
  induction properties generalizing r with
  | nil => rfl
  | cons p rest ih =>
      obtain ⟨key, s⟩ := p
      rw [List.forall_mem_cons] at h
      show ((key, (schema follow s r).1) :: (propertyList follow rest (schema follow s r).2).1,
        (propertyList follow rest (schema follow s r).2).2) = _
      rw [h.1, ih h.2, propertyRefs, List.foldl_append]
      rfl

private theorem shape_oneOf (options : List Schema) (r : Registry SchemaObject) :
    shape follow (.oneOf options) r =
      ({ oneOf := some (list follow options r).1,
         discriminator := Schema.discriminator? options }, (list follow options r).2) := rfl

private theorem shape_object (properties : List (String × Schema)) (r : Registry SchemaObject) :
    shape follow (.object properties) r =
      ({ SchemaObject.ofType "object" with
          properties := some (propertyList follow properties r).1
          required := (properties.filter fun p => p.2.required).map Prod.fst },
        (propertyList follow properties r).2) := rfl

private theorem shape_array (items : Schema) (r : Registry SchemaObject) :
    shape follow (.array items) r =
      ({ SchemaObject.ofType "array" with items := some (schema follow items r).1 },
        (schema follow items r).2) := rfl

private theorem shape_map (values : Schema) (r : Registry SchemaObject) :
    shape follow (.map values) r =
      ({ SchemaObject.ofType "object" with
          additionalProperties := some (schema follow values r).1 },
        (schema follow values r).2) := rfl

private theorem shape_transform (encoded decoded : Schema) (decode encode : Conversion) :
    shape follow (.transform encoded decoded decode encode) = shape follow encoded.kind :=
  nested_eq follow encoded

private theorem shape_custom (name : String) (parent : Schema) (decode : Conversion)
    (r : Registry SchemaObject) :
    shape follow (.custom name parent decode) r =
      ({ (shape follow parent.kind r).1 with title := some name },
        (shape follow parent.kind r).2) := by
  rw [← nested_eq]
  rfl

private theorem shape_eq (s : Schema) : ∀ follow r,
    shape follow s.kind r = (wireShape s.kind, (wireRefs s).foldl (hear follow) r) := by
  -- for every `follow` at once: the object is compiled with one that does nothing
  induction s with
  | number | string | boolean | any | enum | lazy => exact fun _ _ => rfl
  | oneOf options q f d ih =>
      intro follow r
      have hlist : ∀ follow, ∀ s ∈ options, Splits follow s :=
        fun follow s hs => splits_of_shape (ih s hs follow)
      unfold wireShape
      rw [shape_oneOf, shape_oneOf, list_eq (hlist _), list_eq (hlist _)]
      rfl
  | array items q f d ih =>
      intro follow r
      rw [shape_array, splits_of_shape (ih follow)]
      rfl
  | object properties q f d ih =>
      intro follow r
      have hlist : ∀ follow, ∀ p ∈ properties, Splits follow p.2 :=
        fun follow p hp => splits_of_shape (ih p hp follow)
      unfold wireShape
      rw [shape_object, shape_object, propertyList_eq (hlist _), propertyList_eq (hlist _)]
      rfl
  | map values q f d ih =>
      intro follow r
      rw [shape_map, splits_of_shape (ih follow)]
      rfl
  | transform e c dec enc q f d ihe _ =>
      intro follow r
      unfold wireShape
      rw [shape_transform, shape_transform, ihe, ihe]
      rfl
  | custom name parent dec q f d ih =>
      intro follow r
      unfold wireShape
      rw [shape_custom, shape_custom, ih, ih]
      rfl

/-- **A compilation, taken apart.** -/
theorem schema_eq (follow : String → String → Describe Unit) (s : Schema) : Splits follow s :=
  splits_of_shape (shape_eq s follow)

/-! ## Objects of the shapes -/

@[simp] theorem wireShape_oneOf (options : List Schema) :
    wireShape (.oneOf options) =
      { oneOf := some (options.map wireObject),
        discriminator := Schema.discriminator? options } := by
  unfold wireShape
  rw [shape_oneOf, list_eq fun s _ => schema_eq _ s]

@[simp] theorem wireShape_array (items : Schema) :
    wireShape (.array items) =
      { SchemaObject.ofType "array" with items := some (wireObject items) } := rfl

@[simp] theorem wireShape_object (properties : List (String × Schema)) :
    wireShape (.object properties) =
      { SchemaObject.ofType "object" with
        properties := some (Entries.mapValues wireObject properties)
        required := (properties.filter fun p => p.2.required).map Prod.fst } := by
  unfold wireShape
  rw [shape_object, propertyList_eq fun p _ => schema_eq _ p.2]

@[simp] theorem wireShape_map (values : Schema) :
    wireShape (.map values) =
      { SchemaObject.ofType "object" with additionalProperties := some (wireObject values) } := rfl

@[simp] theorem wireShape_transform (encoded decoded : Schema) (decode encode : Conversion) :
    wireShape (.transform encoded decoded decode encode) = wireShape encoded.kind := by
  unfold wireShape
  rw [shape_transform]

@[simp] theorem wireShape_custom (name : String) (parent : Schema) (decode : Conversion) :
    wireShape (.custom name parent decode) =
      { wireShape parent.kind with title := some name } := by
  unfold wireShape
  rw [shape_custom]

/-- What a shape compiles to is not nullable; that is for the node to say. -/
theorem wireShape_nullable (s : Schema) : (wireShape s.kind).nullable = false := by
  induction s with
  | number | string | boolean | any | enum | lazy | array | map => rfl
  | oneOf => rw [wireShape_oneOf]
  | object => rw [wireShape_object]; rfl
  | transform e c dec enc r f d ihe _ => rw [wireShape_transform, ihe]
  | custom name parent dec r f d ih => rw [wireShape_custom]; exact ih

/-! ## Following definitions -/

/-- The definitions, as the bodies of what refers to them. -/
def bodies (defs : Definitions) : Bodies SchemaObject where
  refs target := wireRefs (defs.resolve target)
  body target := wireObject (defs.resolve target)

@[simp] theorem bodies_refs (defs : Definitions) (target : String) :
    (bodies defs).refs target = wireRefs (defs.resolve target) := rfl

@[simp] theorem bodies_body (defs : Definitions) (target : String) :
    (bodies defs).body target = wireObject (defs.resolve target) := rfl

/-- Compiling definitions is a bounded computation of their objects. -/
theorem bounded_followUpTo (defs : Definitions) : Bounded (bodies defs) (followUpTo defs) where
  zero _ _ := rfl
  known depth r name target h := by
    rw [hear, followUpTo, Registry.define_of_knows h]
  new depth r name target h := by
    rw [hear, followUpTo, Registry.define_of_not_knows h, schema_eq]
    rfl

/-- A reference that stands on the wire side of a schema or of a definition reached from it. -/
inductive Refers (defs : Definitions) (s : Schema) : String × String → Prop where
  | here {ref} : ref ∈ wireRefs s → Refers defs s ref
  | there {ref ref'} : Refers defs s ref → ref' ∈ wireRefs (defs.resolve ref.2) → Refers defs s ref'

section Compile

variable {defs : Definitions} {s : Schema} {r : Registry SchemaObject}

theorem length_propertyRefs_le {properties : List (String × Schema)}
    (h : ∀ p ∈ properties, (wireRefs p.2).length ≤ p.2.lazyCount) :
    (propertyRefs properties).length ≤ Schema.lazyCountProperties properties := by
  induction properties with
  | nil => exact Nat.le_refl _
  | cons p rest ih =>
      obtain ⟨key, s⟩ := p
      rw [List.forall_mem_cons] at h
      have hs : (wireRefs s).length ≤ s.lazyCount := h.1
      have hrest := ih h.2
      rw [propertyRefs, List.length_append, Schema.lazyCountProperties]
      omega

theorem length_listRefs_le {options : List Schema}
    (h : ∀ s ∈ options, (wireRefs s).length ≤ s.lazyCount) :
    (listRefs options).length ≤ Schema.lazyCountList options := by
  induction options with
  | nil => exact Nat.le_refl _
  | cons s rest ih =>
      rw [List.forall_mem_cons] at h
      have hs := h.1
      have hrest := ih h.2
      rw [listRefs, List.length_append, Schema.lazyCountList]
      omega

theorem length_wireRefs_le (s : Schema) : (wireRefs s).length ≤ s.lazyCount := by
  induction s with
  | number | string | boolean | any | enum | lazy => exact Nat.le_refl _
  | oneOf options _ _ _ ih => exact length_listRefs_le ih
  | array _ _ _ _ ih => exact ih
  | object properties _ _ _ ih => exact length_propertyRefs_le ih
  | map _ _ _ _ ih => exact ih
  | transform _ _ _ _ _ _ _ ihe _ => exact Nat.le_trans ihe (Nat.le_add_right _ _)
  | custom _ _ _ _ _ _ ih => exact ih

/-- The names on the wire side of a schema and of all definitions. -/
def allNames (defs : Definitions) (s : Schema) : List String :=
  (wireRefs s ++ propertyRefs defs.entries).map Prod.fst

theorem length_allNames_le (defs : Definitions) (s : Schema) :
    (allNames defs s).length ≤ defs.nestingBound s := by
  have hs := length_wireRefs_le s
  have hdefs := length_propertyRefs_le fun p (_ : p ∈ defs.entries) => length_wireRefs_le p.2
  rw [allNames, List.length_map, List.length_append, Definitions.nestingBound, Definitions.lazyCount]
  omega

theorem Refers.mem_allNames {ref : String × String} (h : Refers defs s ref) :
    ref.1 ∈ allNames defs s := by
  apply List.mem_map_of_mem
  cases h with
  | here hmem => exact List.mem_append_left _ hmem
  | @there before _ _ hmem =>
      refine List.mem_append_right _ ?_
      rw [propertyRefs_eq, List.mem_flatMap]
      cases hget : Entries.get? defs.entries before.2 with
      | none =>
          -- a name without definition stands for the union of no options
          rw [Definitions.resolve, hget] at hmem
          cases hmem
      | some t =>
          rw [Definitions.resolve, hget] at hmem
          exact ⟨(before.2, t), Entries.mem_of_get? hget, hmem⟩

theorem compile_fst (defs : Definitions) (s : Schema) (r : Registry SchemaObject) :
    (compile defs s r).1 = wireObject s := by
  rw [compile, schema_eq]

/-- **A compilation follows the references of a schema**, whatever was compiled before, as long as
nothing is in progress. -/
theorem compile_follows (hidle : r.inProgress = []) :
    Follows (bodies defs) (wireRefs s) r (compile defs s r).2 := by
  have hroom : Room (allNames defs s) (defs.nestingBound s) r :=
    .of_idle hidle (length_allNames_le defs s)
  rw [compile, schema_eq]
  exact (bounded_followUpTo defs).follows (S := Refers defs s) (fun _ href => href.mem_allNames)
    (fun _ href _ hmem => .there href hmem) (fun _ hmem => .here hmem) hroom

/-- A compilation that starts with nothing leaves nothing open, and knows every name it wrote. -/
theorem compile_registered (defs : Definitions) (s : Schema) :
    (compile defs s {}).1 = wireObject s ∧ (compile defs s {}).2.inProgress = [] ∧
      Registered (bodies defs) (Refers defs s) (compile defs s {}).2 ∧
        ∀ ref ∈ wireRefs s, (compile defs s {}).2.knows ref.1 = true := by
  have hfollows : Follows (bodies defs) (wireRefs s) {} (compile defs s {}).2 := compile_follows rfl
  refine ⟨compile_fst defs s {}, hfollows.inProgress, ?_, hfollows.knows⟩
  exact hfollows.registered (fun _ hmem => .here hmem) (fun _ href _ hmem => .there href hmem)
    Registry.registered_empty

/-! ## Names and what they stand for -/

theorem names_of_mem_wireRefs {ref : String × String} (h : ref ∈ wireRefs s) :
    Schema.Names defs s ref.1 ref.2 := by
  induction s with
  | number | string | boolean | any | enum => cases h
  | lazy name target r f d =>
      cases List.mem_singleton.mp h
      exact ⟨r, f, d, .refl⟩
  | oneOf options r f d ih =>
      change ref ∈ listRefs options at h
      rw [listRefs_eq, List.mem_flatMap] at h
      obtain ⟨option, hmem, href⟩ := h
      exact (ih option hmem href).of_part (.option hmem)
  | array items r f d ih => exact (ih h).of_part .items
  | object properties r f d ih =>
      change ref ∈ propertyRefs properties at h
      rw [propertyRefs_eq, List.mem_flatMap] at h
      obtain ⟨property, hmem, href⟩ := h
      exact (ih property hmem href).of_part (.property hmem)
  | map values r f d ih => exact (ih h).of_part .values
  | transform e c dec enc r f d ihe _ => exact (ihe h).of_part .encoded
  | custom name parent dec r f d ih => exact (ih h).of_part .parent

theorem Refers.names {ref : String × String} (h : Refers defs s ref) :
    Schema.Names defs s ref.1 ref.2 := by
  induction h with
  | here hmem => exact names_of_mem_wireRefs hmem
  | there _ hmem ih =>
      obtain ⟨r, f, d, hreach⟩ := ih
      have hnames : Schema.Names defs _ _ _ := names_of_mem_wireRefs hmem
      obtain ⟨r', f', d', hreach'⟩ := hnames
      exact ⟨r', f', d', (hreach.tail .target).trans hreach'⟩

/-- Every reference that a schema reaches on the wire side has the object of its definition as
body. -/
def Documented (defs : Definitions) (entries : Entries SchemaObject) (s : Schema) : Prop :=
  ∀ ref, Refers defs s ref →
    Entries.get? entries ref.1 = some (wireObject (defs.resolve ref.2))

/-- Where nothing is in progress and every name stands for one schema, what is referred to by known
names is documented. -/
theorem documented_of_registered {S : String × String → Prop} (hidle : r.inProgress = [])
    (hregistered : Registered (bodies defs) S r)
    (hagree : ∀ name target target', S (name, target) → S (name, target') →
      defs.resolve target = defs.resolve target')
    (hs : ∀ ref, Refers defs s ref → S ref) (hknows : ∀ ref ∈ wireRefs s, r.knows ref.1 = true) :
    Documented defs r.entries s := by
  -- a known name has a body, and the body is the object of whatever the name stands for
  have hknown : ∀ ref, Refers defs s ref → r.knows ref.1 = true →
      Entries.get? r.entries ref.1 = some (wireObject (defs.resolve ref.2)) ∧
        ∀ ref' ∈ wireRefs (defs.resolve ref.2), r.knows ref'.1 = true := by
    intro ref href hknows
    obtain ⟨object, hget⟩ := Registry.exists_body_of_knows hidle hknows
    obtain ⟨target, htarget, rfl, hrefs⟩ := hregistered ref.1 object hget
    have hsame := hagree ref.1 target ref.2 htarget (hs ref href)
    rw [bodies_body, hsame] at hget
    rw [bodies_refs, hsame] at hrefs
    exact ⟨hget, hrefs⟩
  intro ref href
  suffices h : r.knows ref.1 = true from (hknown ref href h).1
  induction href with
  | here hmem => exact hknows _ hmem
  | there href hmem ih => exact (hknown _ href ih).2 _ hmem

/-- **A compilation documents everything it refers to**, if every name stands for one schema. -/
theorem compile_documented (hnames : Schema.NamesAgree defs s) :
    Documented defs (compile defs s {}).2.entries s := by
  obtain ⟨_, hidle, hregistered, hknows⟩ := compile_registered defs s
  refine documented_of_registered hidle hregistered ?_ (fun _ href => href) hknows
  exact fun name target target' h h' => hnames name target target' h.names h'.names

theorem Documented.target {entries : Entries SchemaObject} {name target : String} {r : Bool}
    {f : Option Refinement} {d : Option String}
    (h : Documented defs entries ⟨.lazy name target, r, f, d⟩) :
    Entries.get? entries name = some (wireObject (defs.resolve target)) ∧
      Documented defs entries (defs.resolve target) := by
  have hhere : Refers defs ⟨.lazy name target, r, f, d⟩ (name, target) :=
    .here List.mem_cons_self
  refine ⟨h _ hhere, fun ref href => h ref ?_⟩
  induction href with
  | here hmem => exact .there hhere hmem
  | there _ hmem ih => exact .there ih hmem

/-- What is documented for a schema is documented for every schema with fewer references. -/
theorem Documented.of_subset {entries : Entries SchemaObject} {t : Schema}
    (h : Documented defs entries s) (hsub : wireRefs t ⊆ wireRefs s) : Documented defs entries t := by
  intro ref href
  refine h ref ?_
  induction href with
  | here hmem => exact .here (hsub hmem)
  | there _ hmem ih => exact .there ih hmem

theorem Documented.option {entries : Entries SchemaObject} {options : List Schema} {r : Bool}
    {f : Option Refinement} {d : Option String}
    (h : Documented defs entries ⟨.oneOf options, r, f, d⟩) {option : Schema}
    (hmem : option ∈ options) : Documented defs entries option := by
  apply h.of_subset
  intro ref href
  show ref ∈ listRefs options
  rw [listRefs_eq, List.mem_flatMap]
  exact ⟨option, hmem, href⟩

theorem Documented.property {entries : Entries SchemaObject} {properties : List (String × Schema)}
    {r : Bool} {f : Option Refinement} {d : Option String}
    (h : Documented defs entries ⟨.object properties, r, f, d⟩) {property : String × Schema}
    (hmem : property ∈ properties) : Documented defs entries property.2 := by
  apply h.of_subset
  intro ref href
  show ref ∈ propertyRefs properties
  rw [propertyRefs_eq, List.mem_flatMap]
  exact ⟨property, hmem, href⟩

end Compile

end Describe

end RouteContract
