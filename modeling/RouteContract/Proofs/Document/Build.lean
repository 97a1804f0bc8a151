import RouteContract.Document.OpenApi
import RouteContract.Proofs.Document.Recursion

/-!
# Build -- the operations of a document

Building a document compiles the schemas of its routes in turn: the properties of the params, query
and headers sections, then body and response (`Describe.described`). The operation of a route does
not depend on what was compiled before it (`Describe.wireOperation`), and a section that is not an
object stops the building (`Document.compilePaths_run`).
-/

namespace RouteContract

namespace Describe

/-- The properties that a section describes; a section that is not an object has none. -/
def sectionProperties (s : Option Schema) : List (String × Schema) :=
  (s.bind Schema.properties?).getD []

/-- Whether a section can be described: it is an object, or not declared. -/
def Describable (s : Option Schema) : Prop :=
  ∀ t, s = some t → ∃ properties, t.kind = .object properties

/-- The schemas that the operation of an endpoint describes, in the order of their compilation. -/
def described (m : Metadata) : List Schema :=
  (sectionProperties m.params).map Prod.snd ++ ((sectionProperties m.query).map Prod.snd ++
    ((sectionProperties m.headers).map Prod.snd ++ (m.body.toList ++ m.response.toList)))

/-- Parameters for the properties of a section. -/
def wireParameters (location : ParameterLocation) (s : Option Schema) : List Parameter :=
  (sectionProperties s).map fun p => ⟨p.1, location, p.2.required, wireObject p.2⟩

/-- Content of one schema. -/
def wireContent (s : Schema) : Content := [(jsonMediaType, wireObject s)]

/-- The operation of an endpoint. -/
def wireOperation (m : Metadata) : Operation where
  parameters := wireParameters .path m.params ++ wireParameters .query m.query ++
    wireParameters .header m.headers
  requestBody := m.body.map fun body => ⟨body.required, wireContent body⟩
  responses := [("200", ⟨"Successful response", m.response.map wireContent⟩)]

/-! ## Compilations that may fail -/

section Run

variable {ε σ α β : Type} {x : ExceptT ε (StateM σ) α} {f : α → ExceptT ε (StateM σ) β} {s s' : σ}

theorem run_bind_ok {a : α} (h : x.run s = (.ok a, s')) : (x >>= f).run s = (f a).run s' := by
  show (match x.run s with | (a, s) => ExceptT.bindCont f a s) = _
  rw [h]
  rfl

theorem run_bind_error {e : ε} (h : x.run s = (.error e, s')) :
    (x >>= f).run s = (.error e, s') := by
  show (match x.run s with | (a, s) => ExceptT.bindCont f a s) = _
  rw [h]
  rfl

end Run

variable {defs : Definitions} {r : Registry SchemaObject}

theorem parameters_eq (location : ParameterLocation) (properties : List (String × Schema)) :
    parameters defs location properties r =
      (properties.map fun p => ⟨p.1, location, p.2.required, wireObject p.2⟩,
        (compileAll defs (properties.map Prod.snd) r).2) := by
  induction properties generalizing r with
  | nil => rfl
  | cons p rest ih =>
      obtain ⟨name, s⟩ := p
      show (⟨name, location, s.required, (compile defs s r).1⟩ ::
          (parameters defs location rest (compile defs s r).2).1,
        (parameters defs location rest (compile defs s r).2).2) = _
      rw [ih, compile_fst, List.map_cons, List.map_cons, compileAll_cons]

/-- A section that can be described has its properties compiled; one that cannot is an error. -/
theorem sectionParameters_run (defs : Definitions) (template : String) (method : Method)
    (location : ParameterLocation) (sectionName : String) (s : Option Schema) :
    (∃ e, ¬Describable s ∧
      (sectionParameters defs template method location sectionName s).run r = (.error e, r)) ∨
      Describable s ∧ (sectionParameters defs template method location sectionName s).run r =
        (.ok (wireParameters location s),
          (compileAll defs ((sectionProperties s).map Prod.snd) r).2) := by
  cases s with
  | none => exact .inr ⟨nofun, rfl⟩
  | some s =>
      obtain ⟨kind, q, f, d⟩ := s
      cases kind with
      | object properties =>
          refine .inr ⟨?_, ?_⟩
          · rintro t ht
            cases ht
            exact ⟨properties, rfl⟩
          · show (Except.ok (parameters defs location properties r).1,
              (parameters defs location properties r).2) = _
            rw [parameters_eq]
            rfl
      | _ =>
          refine .inl ⟨_, fun h => ?_, rfl⟩
          obtain ⟨properties, hkind⟩ := h _ rfl
          cases hkind

theorem content_run (s : Schema) (r : Registry SchemaObject) :
    (liftM (content defs s) : ExceptT DocumentError Describe Content).run r =
      (.ok (wireContent s), (compile defs s r).2) := by
  show (Except.ok [(jsonMediaType, (compile defs s r).1)], (compile defs s r).2) = _
  rw [compile_fst]
  rfl

/-- What is done with a schema that may be absent compiles it if it is there. -/
theorem mapM_run {α : Type} {step : Schema → ExceptT DocumentError Describe α} {make : Schema → α}
    (h : ∀ s r, (step s).run r = (.ok (make s), (compile defs s r).2)) (s : Option Schema) :
    (s.mapM step).run r = (.ok (s.map make), (compileAll defs s.toList r).2) := by
  cases s with
  | none => rfl
  | some s =>
      rw [Option.toList_some, compileAll_cons]
      exact run_bind_ok (h s r)

theorem requestBody_run (s : Option Schema) (r : Registry SchemaObject) :
    (s.mapM fun body => do
        return { required := body.required, content := ← content defs body : RequestBody } :
      ExceptT DocumentError Describe (Option RequestBody)).run r =
      (.ok (s.map fun body => ⟨body.required, wireContent body⟩),
        (compileAll defs s.toList r).2) := by
  refine mapM_run (fun s r => ?_) s
  rw [run_bind_ok (content_run s r)]
  rfl

/-- **The operation of an endpoint** compiles the schemas that it describes in turn, up to a section
that cannot be described. -/
theorem operation_run (defs : Definitions) (template : String) (method : Method) (m : Metadata) :
    (∃ e ss, ¬(Describable m.params ∧ Describable m.query ∧ Describable m.headers) ∧
      (operation defs template method m).run r = (.error e, (compileAll defs ss r).2)) ∨
      (Describable m.params ∧ Describable m.query ∧ Describable m.headers) ∧
        (operation defs template method m).run r =
          (.ok (wireOperation m), (compileAll defs (described m) r).2) := by
  unfold operation
  rcases sectionParameters_run defs (r := r) template method .path "params" m.params with
    ⟨e, hnot, hpath⟩ | ⟨hparams, hpath⟩
  · exact .inl ⟨e, [], fun h => hnot h.1, run_bind_error hpath⟩
  rw [run_bind_ok hpath]
  rcases sectionParameters_run defs template method .query "query" m.query with
    ⟨e, hnot, hquery⟩ | ⟨hqueries, hquery⟩
  · exact .inl ⟨e, _, fun h => hnot h.2.1, run_bind_error hquery⟩
  rw [run_bind_ok hquery, ← compileAll_append]
  rcases sectionParameters_run defs template method .header "headers" m.headers with
    ⟨e, hnot, hheader⟩ | ⟨hheaders, hheader⟩
  · exact .inl ⟨e, _, fun h => hnot h.2.2, run_bind_error hheader⟩
  refine .inr ⟨⟨hparams, hqueries, hheaders⟩, ?_⟩
  rw [run_bind_ok hheader, ← compileAll_append, run_bind_ok (requestBody_run m.body _),
    ← compileAll_append, run_bind_ok (mapM_run content_run m.response), ← compileAll_append,
    described, ← List.append_assoc, ← List.append_assoc, ← List.append_assoc]
  rfl

end Describe

namespace Document

open Describe

variable {defs : Definitions} {r : Registry SchemaObject}

/-- The operations of routes, added in order. -/
def wirePaths (entries : List (RouteEntry Metadata)) (paths : Entries (Entries Operation)) :
    Entries (Entries Operation) :=
  entries.foldl (fun paths e => addOperation paths (pathOf e.template) e.method
    (wireOperation e.payload)) paths

/-- The schemas that a document of routes describes, in the order of their compilation. -/
def described (entries : List (RouteEntry Metadata)) : List Schema :=
  entries.flatMap fun e => Describe.described e.payload

/-- Whether the sections of a route can be described. -/
def Describable (e : RouteEntry Metadata) : Prop :=
  Describe.Describable e.payload.params ∧ Describe.Describable e.payload.query ∧
    Describe.Describable e.payload.headers

/-- **Building compiles schemas in turn**, up to a section that cannot be described. -/
theorem compilePaths_run (defs : Definitions) (entries : List (RouteEntry Metadata))
    (paths : Entries (Entries Operation)) :
    (∃ e ss, (compilePaths defs entries paths).run r = (.error e, (compileAll defs ss r).2)) ∨
      (∀ e ∈ entries, Describable e) ∧ (compilePaths defs entries paths).run r =
        (.ok (wirePaths entries paths), (compileAll defs (described entries) r).2) := by
  induction entries generalizing paths r with
  | nil => exact .inr ⟨nofun, rfl⟩
  | cons e rest ih =>
      rw [compilePaths]
      rcases operation_run defs (r := r) e.template e.method e.payload with
        ⟨error, ss, _, hrun⟩ | ⟨he, hrun⟩
      · exact .inl ⟨error, ss, run_bind_error hrun⟩
      rw [run_bind_ok hrun]
      rcases ih (r := (compileAll defs (Describe.described e.payload) r).2)
          (addOperation paths (pathOf e.template) e.method (wireOperation e.payload)) with
        ⟨error, ss, hrest⟩ | ⟨hall, hrest⟩
      · exact .inl ⟨error, Describe.described e.payload ++ ss, by rw [hrest, compileAll_append]⟩
      · refine .inr ⟨List.forall_mem_cons.mpr ⟨he, hall⟩, ?_⟩
        rw [hrest, ← compileAll_append]
        rfl

/-- **A document that is built** has the operations of its routes, and the definitions that are left
when the schemas described there have been compiled in turn. -/
theorem build_eq_ok {routes : RouteMap Metadata} {config : DocumentConfig} {d : Document}
    (h : build defs routes config = .ok d) :
    (∀ e ∈ routes.entries, Describable e) ∧ d.paths = wirePaths routes.entries [] ∧
      d.schemas = (compileAll defs (described routes.entries) {}).2.entries := by
  unfold build at h
  rcases compilePaths_run defs (r := {}) routes.entries [] with
    ⟨e, ss, hrun⟩ | ⟨hall, hrun⟩
  · rw [hrun] at h
    cases h
  · rw [hrun] at h
    cases h
    exact ⟨hall, rfl, rfl⟩

end Document

end RouteContract
