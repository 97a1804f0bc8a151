import RouteContract.Bindings.Module
import RouteContract.Proofs.Bindings.Render
import RouteContract.Proofs.Document.References

/-!
# Declared -- bindings and documents share their definitions

A module of bindings renders whole sections, a document compiles the properties of some sections and
others whole. Where the document is built both meet the same references in the same order
(`Document.flatMap_described`): a section that has to be an object has the references of its
properties. So both follow the same references, and what one declares and the other defines are texts
and objects of one list of schemas (`Bindings.source_shares_definitions`).
-/

namespace RouteContract

open Registry (Bodies Follows Registered Related)

/-! ## The sections of a route -/

namespace Metadata

/-- The schemas of the declared sections. -/
def schemas (m : Metadata) : List Schema := m.sections.map Prod.snd

theorem schemas_eq (m : Metadata) : m.schemas =
    m.params.toList ++ (m.query.toList ++ (m.headers.toList ++ (m.body.toList ++
      m.response.toList))) := by
  obtain ⟨params, query, headers, body, response⟩ := m
  -- section by section, each of them declared or not
  cases params <;> cases query <;> cases headers <;> cases body <;> cases response <;> rfl

end Metadata

namespace Describe

/-- The properties of a section that can be described have the references of the section. -/
theorem flatMap_sectionProperties {s : Option Schema} (h : Describable s) :
    ((sectionProperties s).map Prod.snd).flatMap wireRefs = s.toList.flatMap wireRefs := by
  cases s with
  | none => rfl
  | some s =>
      obtain ⟨kind, q, f, d⟩ := s
      obtain ⟨properties, hkind⟩ := h _ rfl
      cases hkind
      show (properties.map Prod.snd).flatMap wireRefs = propertyRefs properties ++ []
      rw [List.append_nil, propertyRefs_eq_flatMap]

theorem flatMap_described {m : Metadata} (hparams : Describable m.params)
    (hquery : Describable m.query) (hheaders : Describable m.headers) :
    (described m).flatMap wireRefs = m.schemas.flatMap wireRefs := by
  simp only [described, Metadata.schemas_eq, List.flatMap_append, flatMap_sectionProperties hparams,
    flatMap_sectionProperties hquery, flatMap_sectionProperties hheaders]

/-- The definitions, as the schemas that they are. -/
def definitionBodies (defs : Definitions) : Bodies Schema where
  refs target := wireRefs (defs.resolve target)
  body target := defs.resolve target

/-- What is collected when references of schemas are followed to their ends: definitions that the
schemas refer to, and one for every name in the schemas or in a definition. -/
theorem collected_of_follows {defs : Definitions} {ss : List Schema} {q : Registry Schema}
    (h : Follows (definitionBodies defs) (ss.flatMap wireRefs) {} q) :
    (∀ d ∈ q.entries, ∃ target, d.2 = defs.resolve target ∧ RefersIn defs ss (d.1, target)) ∧
      ∀ s, s ∈ ss ∨ s ∈ Entries.values q.entries → ∀ ref ∈ wireRefs s,
        ref.1 ∈ Entries.keys q.entries := by
  have hregistered : Registered (definitionBodies defs) (RefersIn defs ss) q :=
    registered_of_follows (fun _ => rfl) h
  have hget : ∀ d ∈ q.entries, Entries.get? q.entries d.1 = some d.2 :=
    fun d hmem => (h.distinct Entries.distinct_nil).get?_of_mem hmem
  refine ⟨fun d hmem => ?_, ?_⟩
  · obtain ⟨target, href, hbody, _⟩ := hregistered _ _ (hget d hmem)
    exact ⟨target, hbody, href⟩
  · rintro s (hs | hs) ref href
    · have hmem : ref ∈ ss.flatMap wireRefs := List.mem_flatMap.mpr ⟨s, hs, href⟩
      exact Registry.mem_keys_of_knows h.inProgress (h.knows ref hmem)
    · obtain ⟨d, hmem, rfl⟩ := List.mem_map.mp hs
      obtain ⟨target, _, hbody, hrefs⟩ := hregistered _ _ (hget d hmem)
      rw [hbody] at href
      exact Registry.mem_keys_of_knows h.inProgress (hrefs ref href)

end Describe

namespace Document

open Describe (wireRefs)

/-- The schemas of all sections of all routes. -/
def schemasOf (entries : List (RouteEntry Metadata)) : List Schema :=
  entries.flatMap fun e => e.payload.schemas

/-- **A document that can be built refers to what its sections refer to**, in the same order. -/
theorem flatMap_described {entries : List (RouteEntry Metadata)}
    (h : ∀ e ∈ entries, Describable e) :
    (described entries).flatMap wireRefs = (schemasOf entries).flatMap wireRefs := by
  rw [described, schemasOf, List.flatMap_assoc, List.flatMap_assoc]
  refine List.flatMap_congr fun e he => ?_
  obtain ⟨hparams, hquery, hheaders⟩ := h e he
  exact Describe.flatMap_described hparams hquery hheaders

end Document

namespace Bindings

open Describe (wireRefs RefersIn definitionBodies wireObject)

/-! ## The text of a module -/

variable {config : RenderConfig} {defs : Definitions} {r : Registry String}

/-- Members of the entry of a route, with the names of lazy definitions spelled as given. -/
def spelledSections (config : RenderConfig) (spell : String → String) :
    List (String × Schema) → String
  | [] => ""
  | (name, s) :: rest =>
    config.indent ++ config.indent ++ name ++ ": " ++ (Render.spelled spell s).text ++ ";\n" ++
      spelledSections config spell rest

/-- Entries of routes, with the names of lazy definitions spelled as given. -/
def spelledEntries (config : RenderConfig) (spell : String → String) :
    List (RouteEntry Metadata) → String
  | [] => ""
  | e :: rest =>
    config.indent ++ Json.quote (e.method.upper ++ " " ++ e.template) ++ ": \x7b\n" ++
      spelledSections config spell e.payload.sections ++ config.indent ++ "\x7d;\n" ++
      spelledEntries config spell rest

/-- A module that declares the given definitions, with the names in types spelled as given. -/
def spelledSource (config : RenderConfig) (spell : String → String) (definitions : Entries Schema)
    (entries : List (RouteEntry Metadata)) : String :=
  let declared := declarations config
    (definitions.mapValues fun s => (Render.spelled spell s).text)
  declared ++ (if declared.isEmpty then "" else "\n") ++ exportWord config ++
    "interface Routes \x7b\n" ++ spelledEntries config spell entries ++ "\x7d\n"

/-- What a module declares, by name. -/
def declared (config : RenderConfig) (defs : Definitions) (routes : RouteMap Metadata) :
    Entries String :=
  ((routeEntries config defs routes.entries).run {}).2.entries

section Spelled

variable {spell spell' : String → String}

theorem spelledSections_congr {sections : List (String × Schema)}
    (h : ∀ s ∈ sections, ∀ name ∈ Render.names s.2, spell name = spell' name) :
    spelledSections config spell sections = spelledSections config spell' sections := by
  induction sections with
  | nil => rfl
  | cons s rest ih =>
      obtain ⟨name, s⟩ := s
      rw [List.forall_mem_cons] at h
      rw [spelledSections, spelledSections, Render.spelled_congr h.1, ih h.2]

theorem spelledEntries_congr {entries : List (RouteEntry Metadata)}
    (h : ∀ e ∈ entries, ∀ s ∈ e.payload.sections, ∀ name ∈ Render.names s.2,
      spell name = spell' name) :
    spelledEntries config spell entries = spelledEntries config spell' entries := by
  induction entries with
  | nil => rfl
  | cons e rest ih =>
      rw [List.forall_mem_cons] at h
      rw [spelledEntries, spelledEntries, spelledSections_congr h.1, ih h.2]

theorem spelledSource_congr {definitions : Entries Schema} {entries : List (RouteEntry Metadata)}
    (hdefinitions : ∀ d ∈ definitions, ∀ name ∈ Render.names d.2, spell name = spell' name)
    (hentries : ∀ e ∈ entries, ∀ s ∈ e.payload.sections, ∀ name ∈ Render.names s.2,
      spell name = spell' name) :
    spelledSource config spell definitions entries =
      spelledSource config spell' definitions entries := by
  have htypes : (definitions.mapValues fun s => (Render.spelled spell s).text) =
      definitions.mapValues fun s => (Render.spelled spell' s).text :=
    List.map_congr_left fun d hd =>
      congrArg (fun type => (d.1, type.text)) (Render.spelled_congr (hdefinitions d hd))
  rw [spelledSource, spelledSource, htypes, spelledEntries_congr hentries]

end Spelled

/-! ## What a module is made of -/

theorem sectionLines_fst (hside : config.direction = .encode) (sections : List (String × Schema))
    (r : Registry String) :
    (sectionLines config defs sections r).1 = spelledSections config id sections := by
  induction sections generalizing r with
  | nil => rfl
  | cons s rest ih =>
      obtain ⟨name, s⟩ := s
      show config.indent ++ config.indent ++ name ++ ": " ++ (Render.render defs _ s r).1 ++ ";\n" ++
        (sectionLines config defs rest _).1 = _
      rw [ih, hside, Render.render_fst]
      rfl

theorem routeEntries_fst (hside : config.direction = .encode) (entries : List (RouteEntry Metadata))
    (r : Registry String) :
    (routeEntries config defs entries r).1 = spelledEntries config id entries := by
  induction entries generalizing r with
  | nil => rfl
  | cons e rest ih =>
      show config.indent ++ Json.quote (e.method.upper ++ " " ++ e.template) ++ ": \x7b\n" ++
        (sectionLines config defs e.payload.sections r).1 ++ config.indent ++ "\x7d;\n" ++
        (routeEntries config defs rest _).1 = _
      rw [ih, sectionLines_fst hside]
      rfl

theorem sectionLines_follows (hside : config.direction = .encode)
    (sections : List (String × Schema)) (hidle : r.inProgress = []) :
    Follows (Render.bodies defs) ((sections.map Prod.snd).flatMap wireRefs) r
      (sectionLines config defs sections r).2 := by
  induction sections generalizing r with
  | nil => exact .done
  | cons s rest ih =>
      obtain ⟨name, s⟩ := s
      have hfirst : Follows (Render.bodies defs) (wireRefs s) r
          (Render.render defs config.direction s r).2 := hside ▸ Render.render_follows hidle
      rw [List.map_cons, List.flatMap_cons]
      exact hfirst.append (ih (hfirst.inProgress.trans hidle))

/-- **The entries of routes follow the references of their sections**, one after the other. -/
theorem routeEntries_follows (hside : config.direction = .encode)
    (entries : List (RouteEntry Metadata)) (hidle : r.inProgress = []) :
    Follows (Render.bodies defs) ((Document.schemasOf entries).flatMap wireRefs) r
      (routeEntries config defs entries r).2 := by
  induction entries generalizing r with
  | nil => exact .done
  | cons e rest ih =>
      have hfirst : Follows (Render.bodies defs) (e.payload.schemas.flatMap wireRefs) r
          (sectionLines config defs e.payload.sections r).2 :=
        sectionLines_follows hside e.payload.sections hidle
      rw [Document.schemasOf, List.flatMap_cons, List.flatMap_append]
      exact hfirst.append (ih (hfirst.inProgress.trans hidle))

theorem source_eq (hside : config.direction = .encode) {definitions : Entries Schema}
    {routes : RouteMap Metadata}
    (h : declared config defs routes = definitions.mapValues fun s => (Render.wireType s).text) :
    source defs routes config = spelledSource config id definitions routes.entries := by
  have hentries : ((routeEntries config defs routes.entries).run {}).1 =
      spelledEntries config id routes.entries := routeEntries_fst hside routes.entries {}
  show declarations config (declared config defs routes) ++
    (if (declarations config (declared config defs routes)).isEmpty then "" else "\n") ++
    exportWord config ++ "interface Routes \x7b\n" ++
    ((routeEntries config defs routes.entries).run {}).1 ++ "\x7d\n" = _
  rw [h, hentries]
  rfl

/-! ## One list of definitions -/

/-- What a document defines and what a module declares are made of the same definitions. -/
theorem exists_definitions {routes : RouteMap Metadata} {documentConfig : DocumentConfig}
    {d : Document} (hbuild : Document.build defs routes documentConfig = .ok d)
    (hside : config.direction = .encode) : ∃ q : Registry Schema,
      Follows (definitionBodies defs) ((Document.schemasOf routes.entries).flatMap wireRefs) {} q ∧
      d.schemas = q.entries.mapValues wireObject ∧
      declared config defs routes = q.entries.mapValues fun s => (Render.wireType s).text := by
  obtain ⟨hdescribable, _, hschemas⟩ := Document.build_eq_ok hbuild
  have hdocument : Follows (Describe.bodies defs)
      ((Document.schemasOf routes.entries).flatMap wireRefs) {}
      (Describe.compileAll defs (Document.described routes.entries) {}).2 := by
    rw [← Document.flatMap_described hdescribable]
    exact Describe.compileAll_follows _ rfl
  have hmodule : Follows (Render.bodies defs)
      ((Document.schemasOf routes.entries).flatMap wireRefs) {}
      ((routeEntries config defs routes.entries).run {}).2 :=
    routeEntries_follows hside routes.entries rfl
  obtain ⟨q, hq, hobjects⟩ := hdocument.related (definitionBodies defs)
    (R := fun object s => object = wireObject s) rfl (fun _ => rfl) Registry.related_empty
  obtain ⟨q', hq', htypes⟩ := hmodule.related (definitionBodies defs)
    (R := fun type s => type = (Render.wireType s).text) rfl (fun _ => rfl) Registry.related_empty
  obtain rfl := hq.unique hq'
  exact ⟨q, hq, hschemas ▸ hobjects.eq_mapValues, htypes.eq_mapValues⟩

end Bindings

end RouteContract
