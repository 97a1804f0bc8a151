import RouteContract.Proofs.Document.Build

/-!
# References -- every reference in the documentation resolves

A compiled schema refers to nothing but the names on its wire side (`Describe.resolves_wireObject`),
whatever is added to it or wrapped around it. All these names are known when nothing is in progress
any more, and then they are the names of the collected definitions: so what compilations return and
what they collect refers to collected definitions only (`Describe.compileAll_closed`), and so does a
document, whose operations hold compiled schemas and nothing else (`Document.Holds.compiled`).
-/

namespace RouteContract

/-! ## Inside a schema object -/

namespace SchemaObject

/-- A schema object directly inside another one. -/
inductive Part : SchemaObject → SchemaObject → Prop
  | property {o properties} {p : String × SchemaObject} :
      o.properties = some properties → p ∈ properties → Part o p.2
  | items {o t} : o.items = some t → Part o t
  | values {o t} : o.additionalProperties = some t → Part o t
  | option {o options t} : o.oneOf = some options → t ∈ options → Part o t
  | all {o objects t} : o.allOf = some objects → t ∈ objects → Part o t

/-- A schema object stands in another one, at any depth. -/
abbrev Contains : SchemaObject → SchemaObject → Prop := Relation.ReflTransGen Part

/-- Every reference in a schema object points to one of the names. -/
def Resolves (names : List String) (o : SchemaObject) : Prop :=
  ∀ t, Contains o t → ∀ ref, t.ref = some ref → ∃ name ∈ names, ref = pointer name

variable {names : List String} {o o' : SchemaObject}

theorem Resolves.part {t : SchemaObject} (h : Resolves names o) (hpart : Part o t) :
    Resolves names t :=
  fun u hu => h u (.head hpart hu)

/-- A schema object resolves if its own reference and its parts do. -/
theorem Resolves.of_parts (hself : ∀ ref, o.ref = some ref → ∃ name ∈ names, ref = pointer name)
    (hparts : ∀ t, Part o t → Resolves names t) : Resolves names o := by
  intro t ht
  rcases ht.cases_head with rfl | ⟨u, hpart, hu⟩
  · exact hself
  · exact hparts u hpart t hu

/-- Other keywords than references and parts do not count. -/
theorem Resolves.of_same (h : Resolves names o) (href : o'.ref = o.ref)
    (hproperties : o'.properties = o.properties) (hitems : o'.items = o.items)
    (hvalues : o'.additionalProperties = o.additionalProperties) (hoptions : o'.oneOf = o.oneOf)
    (hall : o'.allOf = o.allOf) : Resolves names o' := by
  refine .of_parts (fun ref h' => h o .refl ref (href ▸ h')) fun t ht => h.part ?_
  cases ht with
  | property hsome hmem => exact .property (hproperties ▸ hsome) hmem
  | items hsome => exact .items (hitems ▸ hsome)
  | values hsome => exact .values (hvalues ▸ hsome)
  | option hsome hmem => exact .option (hoptions ▸ hsome) hmem
  | all hsome hmem => exact .all (hall ▸ hsome) hmem

/-! What is put together of schema objects that resolve resolves. -/

theorem Resolves.reference {name : String} (h : name ∈ names) :
    Resolves names (.reference name) := by
  refine .of_parts (fun ref href => ?_) fun t ht => ?_
  · cases href
    exact ⟨name, h, rfl⟩
  · cases ht <;> contradiction

theorem Resolves.oneOf {options : List SchemaObject} {key : Option String}
    (h : ∀ t ∈ options, Resolves names t) :
    Resolves names { oneOf := some options, discriminator := key } := by
  refine .of_parts nofun fun t ht => ?_
  cases ht with
  | option hsome hmem =>
      cases hsome
      exact h t hmem
  | property hnone | items hnone | values hnone | all hnone => cases hnone

theorem Resolves.array {items : SchemaObject} (h : Resolves names items) :
    Resolves names { ofType "array" with items := some items } := by
  refine .of_parts nofun fun t ht => ?_
  cases ht with
  | items hsome =>
      cases hsome
      exact h
  | property hnone | values hnone | option hnone | all hnone => cases hnone

theorem Resolves.object {properties : Entries SchemaObject} {required : List String}
    (h : ∀ p ∈ properties, Resolves names p.2) :
    Resolves names { ofType "object" with properties := some properties, required } := by
  refine .of_parts nofun fun t ht => ?_
  cases ht with
  | property hsome hmem =>
      cases hsome
      exact h _ hmem
  | items hnone | values hnone | option hnone | all hnone => cases hnone

theorem Resolves.map {values : SchemaObject} (h : Resolves names values) :
    Resolves names { ofType "object" with additionalProperties := some values } := by
  refine .of_parts nofun fun t ht => ?_
  cases ht with
  | values hsome =>
      cases hsome
      exact h
  | property hnone | items hnone | option hnone | all hnone => cases hnone

theorem Resolves.allOf {description : Option String} {nullable : Bool} (h : Resolves names o) :
    Resolves names { allOf := some [o], description, nullable } := by
  refine .of_parts nofun fun t ht => ?_
  cases ht with
  | all hsome hmem =>
      cases hsome
      exact List.mem_singleton.mp hmem ▸ h
  | property hnone | items hnone | values hnone | option hnone => cases hnone

theorem Resolves.annotate (h : Resolves names o) (required : Bool) (description : Option String) :
    Resolves names (Describe.annotate required description o) := by
  unfold Describe.annotate
  split
  · split
    · exact h
    · exact h.allOf
  · exact h.of_same rfl rfl rfl rfl rfl rfl

end SchemaObject

namespace Describe

open SchemaObject (Resolves)

variable {defs : Definitions} {names : List String}

theorem resolves_wireObject_of_shape {s : Schema} (h : Resolves names (wireShape s.kind)) :
    Resolves names (wireObject s) := by
  rw [wireObject_eq]
  exact h.annotate _ _

private theorem resolves_wireShape (s : Schema) :
    (∀ ref ∈ wireRefs s, ref.1 ∈ names) → Resolves names (wireShape s.kind) := by
  induction s with
  | number | string | boolean | any | enum =>
      exact fun _ => .of_parts nofun fun _ ht => by cases ht <;> contradiction
  | lazy name target r f d =>
      intro h
      exact .reference (h (name, target) List.mem_cons_self)
  | oneOf options r f d ih =>
      intro h
      change ∀ ref ∈ listRefs options, _ at h
      rw [listRefs_eq] at h
      rw [wireShape_oneOf]
      exact .oneOf (List.forall_mem_map.mpr fun s hs => resolves_wireObject_of_shape
        (ih s hs fun ref href => h ref (List.mem_flatMap.mpr ⟨s, hs, href⟩)))
  | array items r f d ih =>
      intro h
      exact .array (resolves_wireObject_of_shape (ih h))
  | object properties r f d ih =>
      intro h
      change ∀ ref ∈ propertyRefs properties, _ at h
      rw [propertyRefs_eq] at h
      rw [wireShape_object]
      exact .object (List.forall_mem_map.mpr fun p hp => resolves_wireObject_of_shape
        (ih p hp fun ref href => h ref (List.mem_flatMap.mpr ⟨p, hp, href⟩)))
  | map values r f d ih =>
      intro h
      exact .map (resolves_wireObject_of_shape (ih h))
  | transform encoded decoded dec enc r f d ih _ =>
      intro h
      rw [wireShape_transform]
      exact ih h
  | custom name parent dec r f d ih =>
      intro h
      rw [wireShape_custom]
      exact (ih h).of_same rfl rfl rfl rfl rfl rfl

/-- **A compiled schema refers to the names on its wire side**, and to no others. -/
theorem resolves_wireObject {s : Schema} (h : ∀ ref ∈ wireRefs s, ref.1 ∈ names) :
    Resolves names (wireObject s) :=
  resolves_wireObject_of_shape (resolves_wireShape s h)

/-! ## What compilations return and collect -/

/-- Nothing is in progress, and everything that was returned or collected refers to collected
definitions only. -/
structure Closed (objects : List SchemaObject) (r : Registry SchemaObject) : Prop where
  idle : r.inProgress = []
  returned : ∀ o ∈ objects, Resolves (Entries.keys r.entries) o
  collected : ∀ definition ∈ r.entries, Resolves (Entries.keys r.entries) definition.2

theorem compileAll_closed (defs : Definitions) (ss : List Schema) :
    Closed (compileAll defs ss {}).1 (compileAll defs ss {}).2 := by
  obtain ⟨hidle, hregistered, hknows⟩ := compileAll_registered defs ss
  refine ⟨hidle, ?_, ?_⟩
  · rw [compileAll_fst]
    intro o ho
    obtain ⟨s, hs, rfl⟩ := List.mem_map.mp ho
    exact resolves_wireObject fun ref href => Registry.mem_keys_of_knows hidle (hknows s hs ref href)
  · intro definition hmem
    have hget := (compileAll_distinct defs ss).get?_of_mem hmem
    obtain ⟨target, _, hbody, hrefs⟩ := hregistered _ _ hget
    rw [hbody, bodies_body]
    exact resolves_wireObject fun ref href => Registry.mem_keys_of_knows hidle (hrefs ref href)

/-! ## In an operation -/

section Operation

variable {m : Metadata}

theorem exists_described_of_parameter {p : Parameter} (h : p ∈ (wireOperation m).parameters) :
    ∃ s ∈ described m, p.schema = wireObject s := by
  simp only [wireOperation, wireParameters, List.mem_append, List.mem_map] at h
  simp only [described, List.mem_append, List.mem_map]
  rcases h with (⟨q, hq, rfl⟩ | ⟨q, hq, rfl⟩) | ⟨q, hq, rfl⟩
  · exact ⟨q.2, .inl ⟨q, hq, rfl⟩, rfl⟩
  · exact ⟨q.2, .inr (.inl ⟨q, hq, rfl⟩), rfl⟩
  · exact ⟨q.2, .inr (.inr (.inl ⟨q, hq, rfl⟩)), rfl⟩

theorem exists_described_of_body {body : RequestBody} {media : String × SchemaObject}
    (h : (wireOperation m).requestBody = some body) (hmedia : media ∈ body.content) :
    ∃ s ∈ described m, media.2 = wireObject s := by
  obtain ⟨s, hs, rfl⟩ := Option.map_eq_some_iff.mp h
  obtain rfl := List.mem_singleton.mp hmedia
  exact ⟨s, by simp [described, hs], rfl⟩

theorem exists_described_of_response {response : String × ResponseObject} {content : Content}
    {media : String × SchemaObject} (h : response ∈ (wireOperation m).responses)
    (hcontent : response.2.content = some content) (hmedia : media ∈ content) :
    ∃ s ∈ described m, media.2 = wireObject s := by
  obtain rfl := List.mem_singleton.mp h
  obtain ⟨s, hs, rfl⟩ := Option.map_eq_some_iff.mp hcontent
  obtain rfl := List.mem_singleton.mp hmedia
  exact ⟨s, by simp [described, hs], rfl⟩

end Operation

end Describe

/-! ## In a document -/

namespace Document

open Describe (compileAll wireObject wireOperation)

/-- A schema object stands in a document: as a definition, or in an operation for a parameter, a body
or a response. -/
inductive Holds (d : Document) : SchemaObject → Prop
  | definition {definition : String × SchemaObject} : definition ∈ d.schemas → Holds d definition.2
  | parameter {path : String × Entries Operation} {operation : String × Operation} {p : Parameter} :
      path ∈ d.paths → operation ∈ path.2 → p ∈ operation.2.parameters → Holds d p.schema
  | body {path : String × Entries Operation} {operation : String × Operation} {body : RequestBody}
      {media : String × SchemaObject} :
      path ∈ d.paths → operation ∈ path.2 → operation.2.requestBody = some body →
      media ∈ body.content → Holds d media.2
  | response {path : String × Entries Operation} {operation : String × Operation}
      {response : String × ResponseObject} {content : Content} {media : String × SchemaObject} :
      path ∈ d.paths → operation ∈ path.2 → response ∈ operation.2.responses →
      response.2.content = some content → media ∈ content → Holds d media.2

/-- An operation of the paths was there before, or is the one that was added. -/
theorem exists_of_mem_addOperation {paths : Entries (Entries Operation)} {added : Operation}
    {template : String} {method : Method} {path : String × Entries Operation}
    {operation : String × Operation} (hpath : path ∈ addOperation paths template method added)
    (hoperation : operation ∈ path.2) :
    (∃ before ∈ paths, operation ∈ before.2) ∨ operation.2 = added := by
  rcases Entries.mem_put hpath with hold | rfl
  · exact .inl ⟨path, hold, hoperation⟩
  rcases Entries.mem_put hoperation with hold | rfl
  · cases hget : Entries.get? paths template with
    | none =>
        rw [hget] at hold
        cases hold
    | some operations =>
        rw [hget] at hold
        exact .inl ⟨_, Entries.mem_of_get? hget, hold⟩
  · exact .inr rfl

/-- The operations of a document are those of its routes. -/
theorem exists_of_mem_wirePaths {entries : List (RouteEntry Metadata)}
    {paths : Entries (Entries Operation)} {path : String × Entries Operation}
    {operation : String × Operation} (hpath : path ∈ wirePaths entries paths)
    (hoperation : operation ∈ path.2) : (∃ before ∈ paths, operation ∈ before.2) ∨
      ∃ e ∈ entries, operation.2 = wireOperation e.payload := by
  induction entries generalizing paths with
  | nil => exact .inl ⟨path, hpath, hoperation⟩
  | cons e rest ih =>
      rcases ih hpath with ⟨before, hbefore, hop⟩ | ⟨e', he', hop⟩
      · exact (exists_of_mem_addOperation hbefore hop).imp_right fun hadded =>
          ⟨e, List.mem_cons_self, hadded⟩
      · exact .inr ⟨e', List.mem_cons_of_mem _ he', hop⟩

/-- What a document holds was compiled. -/
theorem Holds.compiled {defs : Definitions} {routes : RouteMap Metadata} {config : DocumentConfig}
    {d : Document} {o : SchemaObject} (hbuild : build defs routes config = .ok d) (h : d.Holds o) :
    (∃ definition ∈ d.schemas, o = definition.2) ∨
      ∃ s ∈ described routes.entries, o = wireObject s := by
  obtain ⟨_, hpaths, _⟩ := build_eq_ok hbuild
  have hin : ∀ {path : String × Entries Operation} {operation : String × Operation},
      path ∈ d.paths → operation ∈ path.2 →
      ∃ e ∈ routes.entries, operation.2 = wireOperation e.payload :=
    fun hpath hoperation => (exists_of_mem_wirePaths (hpaths ▸ hpath) hoperation).resolve_left
      fun ⟨_, hnil, _⟩ => nomatch hnil
  have hdescribed : ∀ {e : RouteEntry Metadata}, e ∈ routes.entries →
      (∃ s ∈ Describe.described e.payload, o = wireObject s) →
      ∃ s ∈ described routes.entries, o = wireObject s :=
    fun he ⟨s, hs, ho⟩ => ⟨s, List.mem_flatMap.mpr ⟨_, he, hs⟩, ho⟩
  cases h with
  | definition hmem => exact .inl ⟨_, hmem, rfl⟩
  | parameter hpath hoperation hp =>
      obtain ⟨e, he, hop⟩ := hin hpath hoperation
      exact .inr (hdescribed he (Describe.exists_described_of_parameter (hop ▸ hp)))
  | body hpath hoperation hbody hmedia =>
      obtain ⟨e, he, hop⟩ := hin hpath hoperation
      exact .inr (hdescribed he (Describe.exists_described_of_body (hop ▸ hbody) hmedia))
  | response hpath hoperation hresponse hcontent hmedia =>
      obtain ⟨e, he, hop⟩ := hin hpath hoperation
      exact .inr (hdescribed he
        (Describe.exists_described_of_response (hop ▸ hresponse) hcontent hmedia))

/-- **Every reference in a document** is to one of its definitions. -/
theorem resolves_of_build {defs : Definitions} {routes : RouteMap Metadata} {config : DocumentConfig}
    {d : Document} (hbuild : build defs routes config = .ok d) {o : SchemaObject} (h : d.Holds o) :
    o.Resolves (Entries.keys d.schemas) := by
  obtain ⟨_, _, hschemas⟩ := build_eq_ok hbuild
  have hclosed := Describe.compileAll_closed defs (described routes.entries)
  rw [hschemas]
  rcases h.compiled hbuild with ⟨definition, hmem, rfl⟩ | ⟨s, hs, rfl⟩
  · exact hclosed.collected definition (hschemas ▸ hmem)
  · apply hclosed.returned
    rw [Describe.compileAll_fst]
    exact List.mem_map_of_mem hs

end Document

namespace Describe

open Document (build compilePaths)

/-- Definitions that lead to each other without end and with nothing in between, and a nest whose eggs
go by the same name but stand for hens. -/
def hens : Definitions :=
  ⟨[("egg", .lazy "Hen" "hen"), ("hen", .lazy "Egg" "egg"), ("nest", .array (.lazy "Egg" "hen"))]⟩

/-- The route that puts an egg into a nest. -/
def nests : RouteMap Metadata where
  entries := [⟨"/nests/:id", .put,
    { body := some (.lazy "Egg" "egg"), response := some (.lazy "Nest" "nest") }⟩]

end Describe

end RouteContract
