import RouteContract.Bindings.Renderer
import RouteContract.Proofs.Document.Compile

/-!
# Render -- what a rendering returns and what it declares

On the wire side the type of a schema does not depend on the registry. It is a text with the names of
lazy definitions in it (`Render.spelled`), and these names are the ones that a compilation for the
documentation meets, in the same order: the text does not change unless the spelling of one of them
does (`spelled_congr`), and the registry hears of exactly their references (`schema_encode`). So a
rendering follows the same references as a compilation (`render_follows`), with types as bodies.
-/

namespace RouteContract

namespace Render

open Describe (wireRefs shapeRefs listRefs propertyRefs listRefs_eq propertyRefs_eq allNames Refers)
open Registry (Bodies Bounded Follows Room hear)

/-! ## Types with names in them -/

mutual

/-- Type of a schema on the wire side, with the names of lazy definitions spelled as given. -/
def spelled (spell : String → String) : Schema → TypeExpr
  | ⟨kind, required, _, _⟩ => orNull kind required (spelledShape spell kind)
termination_by structural s => s

/-- Type of a shape. -/
def spelledShape (spell : String → String) : Kind Schema → TypeExpr
  | .number => { text := "number" }
  | .string => { text := "string" }
  | .boolean => { text := "boolean" }
  | .any => { text := "any" }
  | .enum options => .union (options.map Json.text)
  | .oneOf options => .union (spelledList spell options)
  | .array items => (spelled spell items).array
  | .object properties => .object (spelledMembers spell properties)
  | .map values => (spelled spell values).record
  | .lazy name _ => { text := spell name }
  | .transform encoded _ _ _ => spelledNested spell encoded
  | .custom _ parent _ => spelledNested spell parent
termination_by structural k => k

/-- Type of the shape of a schema inside a codec. -/
def spelledNested (spell : String → String) : Schema → TypeExpr
  | ⟨kind, _, _, _⟩ => spelledShape spell kind
termination_by structural s => s

/-- Texts of the types of a list of schemas. -/
def spelledList (spell : String → String) : List Schema → List String
  | [] => []
  | s :: rest => (spelled spell s).text :: spelledList spell rest
termination_by structural l => l

/-- Members of an object type. -/
def spelledMembers (spell : String → String) : List (String × Schema) → List String
  | [] => []
  | (name, s) :: rest =>
    TypeExpr.member name s.description s.required (spelled spell s) :: spelledMembers spell rest
termination_by structural l => l

end

/-- Type of a schema on the wire side. -/
def wireType (s : Schema) : TypeExpr := spelled id s

/-- The names of lazy definitions in the type of a schema on the wire side, in order. -/
def names (s : Schema) : List String := (wireRefs s).map Prod.fst

section Spelled

variable {spell spell' : String → String}

theorem spelledNested_eq (s : Schema) : spelledNested spell s = spelledShape spell s.kind := by
  cases s
  rfl

theorem spelled_congr_of_shape {s : Schema}
    (h : spelledShape spell s.kind = spelledShape spell' s.kind) :
    spelled spell s = spelled spell' s := by
  obtain ⟨kind, required, refinement, description⟩ := s
  show orNull kind required _ = orNull kind required _
  exact congrArg _ h

private theorem spelledList_congr {options : List Schema}
    (h : ∀ s ∈ options, spelled spell s = spelled spell' s) :
    spelledList spell options = spelledList spell' options := by
  induction options with
  | nil => rfl
  | cons s rest ih =>
      rw [List.forall_mem_cons] at h
      rw [spelledList, spelledList, h.1, ih h.2]

private theorem spelledMembers_congr {properties : List (String × Schema)}
    (h : ∀ p ∈ properties, spelled spell p.2 = spelled spell' p.2) :
    spelledMembers spell properties = spelledMembers spell' properties := by
  induction properties with
  | nil => rfl
  | cons p rest ih =>
      obtain ⟨name, s⟩ := p
      rw [List.forall_mem_cons] at h
      rw [spelledMembers, spelledMembers, h.1, ih h.2]

private theorem spelledShape_congr (s : Schema) : (∀ ref ∈ wireRefs s, spell ref.1 = spell' ref.1) →
    spelledShape spell s.kind = spelledShape spell' s.kind := by
  induction s with
  | number | string | boolean | any | enum => exact fun _ => rfl
  | oneOf options q f d ih =>
      intro h
      change ∀ ref ∈ listRefs options, _ at h
      rw [listRefs_eq] at h
      have hlist : spelledList spell options = spelledList spell' options :=
        spelledList_congr fun s hs => spelled_congr_of_shape
          (ih s hs fun ref href => h ref (List.mem_flatMap.mpr ⟨s, hs, href⟩))
      exact congrArg TypeExpr.union hlist
  | array items q f d ih =>
      intro h
      exact congrArg TypeExpr.array (spelled_congr_of_shape (ih h))
  | object properties q f d ih =>
      intro h
      change ∀ ref ∈ propertyRefs properties, _ at h
      rw [propertyRefs_eq] at h
      have hmembers : spelledMembers spell properties = spelledMembers spell' properties :=
        spelledMembers_congr fun p hp => spelled_congr_of_shape
          (ih p hp fun ref href => h ref (List.mem_flatMap.mpr ⟨p, hp, href⟩))
      exact congrArg TypeExpr.object hmembers
  | map values q f d ih =>
      intro h
      exact congrArg TypeExpr.record (spelled_congr_of_shape (ih h))
  | lazy name target q f d =>
      intro h
      exact congrArg (TypeExpr.mk · false) (h (name, target) List.mem_cons_self)
  | transform encoded decoded dec enc q f d ih _ =>
      intro h
      show spelledNested spell encoded = spelledNested spell' encoded
      rw [spelledNested_eq, spelledNested_eq]
      exact ih h
  | custom name parent dec q f d ih =>
      intro h
      show spelledNested spell parent = spelledNested spell' parent
      rw [spelledNested_eq, spelledNested_eq]
      exact ih h

/-- **No other names** are in the type of a schema. -/
theorem spelled_congr {s : Schema} (h : ∀ name ∈ names s, spell name = spell' name) :
    spelled spell s = spelled spell' s :=
  spelled_congr_of_shape (spelledShape_congr s fun _ href => h _ (List.mem_map_of_mem href))

end Spelled

/-! ## A rendering, taken apart -/

variable {follow : String → String → Render Unit}

/-- A rendering is the type of the schema, paired with the registry after its references. -/
private def Splits (follow : String → String → Render Unit) (s : Schema) : Prop :=
  ∀ r, schema .encode follow s r = (wireType s, (wireRefs s).foldl (hear follow) r)

private theorem splits_of_shape {s : Schema} (h : ∀ r, shape .encode follow s.kind r =
    (spelledShape id s.kind, (wireRefs s).foldl (hear follow) r)) : Splits follow s := by
  intro r
  obtain ⟨kind, required, refinement, description⟩ := s
  show (orNull kind required (shape .encode follow kind r).1, (shape .encode follow kind r).2) = _
  rw [h]
  rfl

private theorem list_eq {options : List Schema} (h : ∀ s ∈ options, Splits follow s)
    (r : Registry String) : list .encode follow options r =
      (spelledList id options, (listRefs options).foldl (hear follow) r) := by
  induction options generalizing r with
  | nil => rfl
  | cons s rest ih =>
      rw [List.forall_mem_cons] at h
      show ((schema .encode follow s r).1.text ::
          (list .encode follow rest (schema .encode follow s r).2).1,
        (list .encode follow rest (schema .encode follow s r).2).2) = _
      rw [h.1, ih h.2, listRefs, List.foldl_append]
      rfl

private theorem members_eq {properties : List (String × Schema)}
    (h : ∀ p ∈ properties, Splits follow p.2) (r : Registry String) :
    members .encode follow properties r =
      (spelledMembers id properties, (propertyRefs properties).foldl (hear follow) r) := by
  induction properties generalizing r with
  | nil => rfl
  | cons p rest ih =>
      obtain ⟨name, s⟩ := p
      rw [List.forall_mem_cons] at h
      show (TypeExpr.member name s.description s.required (schema .encode follow s r).1 ::
          (members .encode follow rest (schema .encode follow s r).2).1,
        (members .encode follow rest (schema .encode follow s r).2).2) = _
      rw [h.1, ih h.2, propertyRefs, List.foldl_append]
      rfl

private theorem nested_eq (s : Schema) : nested .encode follow s = shape .encode follow s.kind := by
  cases s
  rfl

private theorem shape_eq (s : Schema) : ∀ r, shape .encode follow s.kind r =
    (spelledShape id s.kind, (wireRefs s).foldl (hear follow) r) := by
  induction s with
  | number | string | boolean | any | enum | lazy => exact fun _ => rfl
  | oneOf options q f d ih =>
      intro r
      show (TypeExpr.union (list .encode follow options r).1, (list .encode follow options r).2) = _
      rw [list_eq fun s hs => splits_of_shape (ih s hs)]
      rfl
  | array items q f d ih =>
      intro r
      show ((schema .encode follow items r).1.array, (schema .encode follow items r).2) = _
      rw [splits_of_shape ih]
      rfl
  | object properties q f d ih =>
      intro r
      show (TypeExpr.object (members .encode follow properties r).1,
        (members .encode follow properties r).2) = _
      rw [members_eq fun p hp => splits_of_shape (ih p hp)]
      rfl
  | map values q f d ih =>
      intro r
      show ((schema .encode follow values r).1.record, (schema .encode follow values r).2) = _
      rw [splits_of_shape ih]
      rfl
  | transform encoded decoded dec enc q f d ih _ =>
      intro r
      show nested .encode follow encoded r = (spelledNested id encoded, _)
      rw [nested_eq, spelledNested_eq]
      exact ih r
  | custom name parent dec q f d ih =>
      intro r
      show nested .encode follow parent r = (spelledNested id parent, _)
      rw [nested_eq, spelledNested_eq]
      exact ih r

/-- **A rendering on the wire side, taken apart.** -/
theorem schema_encode (follow : String → String → Render Unit) (s : Schema) (r : Registry String) :
    schema .encode follow s r = (wireType s, (wireRefs s).foldl (hear follow) r) :=
  splits_of_shape (shape_eq s) r

/-! ## Following definitions -/

/-- The definitions, as the types of what refers to them. -/
def bodies (defs : Definitions) : Bodies String where
  refs target := wireRefs (defs.resolve target)
  body target := (wireType (defs.resolve target)).text

/-- Declaring definitions is a bounded computation of their types. -/
theorem bounded_followUpTo (defs : Definitions) :
    Bounded (bodies defs) (followUpTo defs .encode) where
  zero _ _ := rfl
  known depth r name target h := by
    rw [hear, followUpTo, Registry.define_of_knows h]
  new depth r name target h := by
    rw [hear, followUpTo, Registry.define_of_not_knows h]
    show ((schema .encode _ _ _).2.closed name (schema .encode _ _ _).1.text) = _
    rw [schema_encode]
    rfl

variable {defs : Definitions} {s : Schema} {r : Registry String}

theorem render_fst (defs : Definitions) (s : Schema) (r : Registry String) :
    (render defs .encode s r).1 = (wireType s).text := by
  show (schema .encode _ s r).1.text = _
  rw [schema_encode]

/-- **A rendering follows the references** that a compilation of the schema follows. -/
theorem render_follows (hidle : r.inProgress = []) :
    Follows (bodies defs) (wireRefs s) r (render defs .encode s r).2 := by
  have hroom : Room (allNames defs s) (defs.nestingBound s) r :=
    .of_idle hidle (Describe.length_allNames_le defs s)
  show Follows (bodies defs) (wireRefs s) r (schema .encode _ s r).2
  rw [schema_encode]
  exact (bounded_followUpTo defs).follows (S := Refers defs s) (fun _ href => href.mem_allNames)
    (fun _ href _ hmem => .there href hmem) (fun _ hmem => .here hmem) hroom

end Render

end RouteContract
