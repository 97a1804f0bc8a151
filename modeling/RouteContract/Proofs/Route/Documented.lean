import RouteContract.Proofs.Route.Mounting
import RouteContract.Proofs.Route.Source

/-!
# Documented -- the routes of a router are what it serves

Every mount of a router has a template with the segments of its path, so resolving a router succeeds
and gives each typed registration under the paths it was made with (`Router.resolve_keys`). A path
that fills in the template of a route is made of pieces that fit the pattern of its leaf; so the
search through the layers does not end in vain (`Router.documented_served`), however many other
layers match before.
-/

namespace RouteContract

namespace Router

/-! ## Resolving a router -/

/-- The templates of mounts have the segments of their paths. -/
theorem exists_templates {mounts : List PathPattern} (h : ∀ m ∈ mounts, m.Written) :
    ∃ templates, mounts.mapM reading.template? = .ok templates ∧
      templates.flatMap Path.segments = (mounts.map PathPattern.path).flatMap Path.segments := by
  induction mounts with
  | nil => exact ⟨[], rfl, rfl⟩
  | cons m others ih =>
      obtain ⟨hm, hothers⟩ := List.forall_mem_cons.mp h
      obtain ⟨template, htemplate, hsegments⟩ := hm.exists_template
      obtain ⟨templates, htemplates, hall⟩ := ih hothers
      refine ⟨template :: templates, ?_, ?_⟩
      · rw [mapM_eq_ok_iff] at htemplates ⊢
        exact .cons htemplate htemplates
      · rw [List.flatMap_cons, hsegments, hall, List.map_cons, List.flatMap_cons]

/-- The template that is documented for paths below one another. -/
def documented (paths : List String) : String := Path.ofSegments (paths.flatMap Path.segments)

/-- The typed registrations of a leaf are documented under the paths of its mounts and its own. -/
theorem typed_eq {leaf : LeafSite PathPattern PathPattern} (h : ∀ m ∈ leaf.around, m.Written) :
    reading.typed leaf = Resolution.typed (documented leaf.paths) leaf.registrations := by
  obtain ⟨templates, htemplates, hsegments⟩ := exists_templates h
  have hjoin : Path.join (Path.joinAll templates) leaf.path.path = documented leaf.paths := by
    rw [← Path.joinAll_concat, Path.joinAll_eq, documented, LeafSite.paths, List.flatMap_append,
      List.flatMap_append, hsegments]
  rw [Resolution.Reading.typed, htemplates]
  exact congrArg (Resolution.typed · leaf.registrations) hjoin

/-- The routes of layers are their keys, each documented under its paths. -/
theorem map_route_routes {layers : List (RouteNode PathPattern PathPattern)} (h : Written layers) :
    (reading.routes layers).map RouteEntry.route =
      (keys [] layers).map fun key => (documented key.1, key.2) := by
  rw [Resolution.Reading.routes, keys, List.map_flatMap, List.map_flatMap]
  refine List.flatMap_congr fun leaf hleaf => ?_
  obtain ⟨haround, _⟩ := h.of_mem_leaves (List.forall_mem_nil _) leaf hleaf
  rw [typed_eq haround, Resolution.typed, keysAt, List.map_filterMap, List.map_filterMap]
  simp only [Option.map_map]
  rfl

/-- The routes found when layers are resolved. -/
theorem resolve_written {layers : List (RouteNode PathPattern PathPattern)} (h : Written layers)
    (activated : List String) :
    ∃ routes, (Site.resolve reading ⟨layers, activated⟩).1 = .ok routes ∧
      ∀ template method, (template, method) ∈ routes.entries.map RouteEntry.route ↔
        ∃ paths, (paths, method) ∈ keys [] layers ∧ template = documented paths := by
  rcases Site.resolve_cases reading ⟨layers, activated⟩ with ⟨e, _, hstopped⟩ | ⟨hok, _⟩
  · obtain ⟨m, hm, hrefuses⟩ := hstopped.refuses
    obtain ⟨template, htemplate, _⟩ := (h.of_mem_mounts m hm).exists_template
    exact absurd hrefuses (Resolution.not_refuses_iff.mpr ⟨template, htemplate⟩)
  · refine ⟨_, hok, fun template method => ?_⟩
    rw [RouteMap.mem_routes_insertAll, map_route_routes h, List.mem_map]
    simp [Prod.ext_iff, and_comm, eq_comm]

/-- **The routes of a router**. Resolution succeeds and finds exactly the typed registrations, each
documented under the segments of the mounts and of the path as they were given, a slash before each. -/
theorem resolve_keys {plan : Plan} {router : Router} (h : plan.build = .ok router)
    (activated : List String) :
    ∃ routes, (Site.resolve reading ⟨router.layers, activated⟩).1 = .ok routes ∧
      ∀ template method, (template, method) ∈ routes.entries.map RouteEntry.route ↔
        ∃ paths, (paths, method) ∈ plan.keys ∧
          template = Path.ofSegments (paths.flatMap Path.segments) := by
  obtain ⟨routes, hroutes, hkeys⟩ := resolve_written (Plan.written h) activated
  refine ⟨routes, hroutes, fun template method => ?_⟩
  simp only [hkeys, Plan.mem_keys h, documented]

end Router

namespace Plan

/-- The house below a path full of characters that mean something in patterns. -/
def versioned : Plan := .mount .empty "//v1.0(x)?|$/" house

end Plan

namespace Router

theorem resolve_keys_versioned :
    ∃ router routes, Plan.versioned.build = .ok router ∧
      (Site.resolve reading ⟨router.layers, []⟩).1 = .ok routes ∧
      ("/v1.0(x)?|$/rooms/:room/lamps/:id", Method.put) ∈
        routes.entries.map RouteEntry.route ∧
      ("/v1.0(x)?|$/:kind/:name/lamps/:id", Method.get) ∈ routes.entries.map RouteEntry.route ∧
      ("/v1.0(x)?|$/:kind/:name/lamps/:id", Method.put) ∉ routes.entries.map RouteEntry.route := by
  obtain ⟨router, hbuild⟩ : ∃ router, Plan.versioned.build = .ok router := ⟨_, rfl⟩
  obtain ⟨routes, hroutes, hkeys⟩ := resolve_keys hbuild []
  have hplan : Plan.versioned.keys =
      [(["//v1.0(x)?|$/", "/rooms/:room", "/lamps/:id"], .put),
        (["//v1.0(x)?|$/", "/:kind/:name", "/lamps/:id"], .get)] := rfl
  have hput : documented ["//v1.0(x)?|$/", "/rooms/:room", "/lamps/:id"] =
      "/v1.0(x)?|$/rooms/:room/lamps/:id" := by
    decide
  have hget : documented ["//v1.0(x)?|$/", "/:kind/:name", "/lamps/:id"] =
      "/v1.0(x)?|$/:kind/:name/lamps/:id" := by
    decide
  rw [hplan] at hkeys
  refine ⟨router, routes, hbuild, hroutes, ?_, ?_, ?_⟩
  · exact (hkeys _ _).mpr ⟨_, List.mem_cons_self, hput.symm⟩
  · exact (hkeys _ _).mpr ⟨_, List.mem_cons_of_mem _ List.mem_cons_self, hget.symm⟩
  · rw [hkeys]
    rintro ⟨paths, hpaths, htemplate⟩
    obtain rfl : paths = ["//v1.0(x)?|$/", "/rooms/:room", "/lamps/:id"] := by simpa using hpaths
    exact absurd (htemplate.trans hput) (by decide)

end Router

/-! ## Filling in templates -/

namespace Path

/-- Whether a part of a path stands for a segment of a template: for a parameter any segment does,
for other text only itself. -/
def FillsIn (segment part : String) : Prop :=
  if segment.toList.head? = some ':' then IsSegment part else part = segment

/-- Whether a path is a template with its parameters replaced. -/
def Fills (template path : String) : Prop :=
  ∃ parts, List.Forall₂ FillsIn (segments template) parts ∧ path = ofSegments parts

end Path

namespace PathPattern

/-- What fills in a segment fits what is read from it. -/
theorem fits_of_fillsIn {text part : String} {s : Segment} (hread : segment? text = .ok s)
    (hfills : Path.FillsIn text part) : s.Fits part.toList := by
  have htext := text_of_segment? hread
  cases s with
  | literal text =>
      cases htext
      rw [Path.FillsIn, if_neg (head?_of_segment? hread)] at hfills
      rw [hfills]
      exact Text.sameLetters_refl _
  | param name =>
      have hhead : text.toList.head? = some ':' := by
        rw [← htext, Segment.text, String.toList_append]
        rfl
      rw [Path.FillsIn, if_pos hhead] at hfills
      exact ⟨fun hnil => hfills.1 (String.toList_eq_nil_iff.mp hnil), hfills.2⟩

theorem forall₂_fits {texts parts : List String} {segments : List Segment}
    (hread : List.Forall₂ (fun text s => segment? text = .ok s) texts segments)
    (hfills : List.Forall₂ Path.FillsIn texts parts) :
    List.Forall₂ Segment.Fits segments (parts.map String.toList) := by
  induction hread generalizing parts with
  | nil =>
      cases hfills
      exact .nil
  | cons hs _ ih =>
      cases hfills with
      | cons hpart hothers => exact .cons (fits_of_fillsIn hs hpart) (ih hothers)

/-- **A path that fills in** the path of a leaf is matched by it. -/
theorem Written.exists_leaf?_of_fills {p : PathPattern} (h : p.Written) {path : String}
    (hfills : Path.Fills p.path path) : ∃ found, p.leaf? path = some found := by
  obtain ⟨parts, hparts, rfl⟩ := hfills
  have hfits := forall₂_fits (written_iff.mp h) hparts
  cases parts with
  | nil => exact ⟨_, leaf?_eq_some_iff.mpr ⟨_, ['/'], hfits, .inr rfl, rfl, rfl⟩⟩
  | cons part others =>
      refine ⟨_, leaf?_eq_some_iff.mpr ⟨_, [], hfits, .inl rfl, ?_, rfl⟩⟩
      rw [Path.toList_ofSegments (List.cons_ne_nil _ _), List.flatMap_map, List.append_nil]

end PathPattern

/-! ## Serving -/

/-- The handler that a slot stands for: the one of the host, or the production handler of the
endpoint, whether resolution has reached it or not. -/
inductive Slot.Runs : Slot → Handler → Prop
  | foreign (h : Handler) : Runs (.foreign h) h
  | declared (e : Endpoint) : Runs (.declared e) e.serve
  | active (e : Endpoint) : Runs (.active e) e.serve

theorem Slot.runs_handler (slot : Slot) : slot.Runs slot.handler := by
  cases slot with
  | foreign h => exact .foreign h
  | declared e => exact .declared e
  | active e => exact .active e

/-- A slot that resolution leaves with an endpoint runs that endpoint, before and after. -/
theorem Slot.Runs.eq_serve {slot : Slot} {handler : Handler} {e : Endpoint} (h : slot.Runs handler)
    (hsettled : slot.settled = .active e) : handler = e.serve := by
  cases h with
  | foreign handler => cases hsettled
  | declared e => cases hsettled; rfl
  | active e => cases hsettled; rfl

namespace Router

/-- What the search finds is registered for the method. -/
theorem exists_registration_of_find {layers : List (RouteNode PathPattern PathPattern)}
    (h : Written layers) {method : Method} {path : String} (hline : '\n' ∉ path.toList)
    {slot : Slot} {params : Entries Json} (hfind : find layers method path [] = some (slot, params)) :
    ∃ leaf ∈ RouteNode.leaves [] layers, ∃ registration ∈ leaf.registrations,
      registration.method = method ∧ registration.slot = slot := by
  rw [find_eq h method hline] at hfind
  obtain ⟨leaf, hleaf, hfound⟩ := List.exists_of_findSome?_eq_some hfind
  obtain ⟨_, _, hregistered⟩ := Option.bind_eq_some_iff.mp hfound
  obtain ⟨registration, hfirst, heq⟩ := Option.map_eq_some_iff.mp hregistered
  have hmethod : (registration.method == method) = true := by
    have hsome := List.find?_some hfirst
    exact hsome
  exact ⟨leaf, hleaf, registration, List.mem_of_find?_eq_some hfirst, beq_iff_eq.mp hmethod,
    (Prod.mk.inj heq).1⟩

/-- The search does not end in vain where a typed registration has the method and a template that
the path fills in: its leaf has an answer, if none before it has. -/
theorem isSome_find_of_mem_keys {layers : List (RouteNode PathPattern PathPattern)}
    (h : Written layers) {paths : List String} {method : Method}
    (hkey : (paths, method) ∈ keys [] layers) {path : String}
    (hfills : Path.Fills (documented paths) path) (hline : '\n' ∉ path.toList) :
    (find layers method path []).isSome := by
  obtain ⟨leaf, hleaf, hkeyAt⟩ := List.mem_flatMap.mp hkey
  obtain ⟨registration, hregistration, htyped⟩ := List.mem_filterMap.mp hkeyAt
  obtain ⟨_, _, heq⟩ := Option.map_eq_some_iff.mp htyped
  obtain ⟨hpaths, hmethod⟩ := Prod.mk.inj heq
  obtain ⟨haround, hpath⟩ := h.of_mem_leaves (List.forall_mem_nil _) leaf hleaf
  have hbelow : Path.Fills (PathPattern.below leaf.around leaf.path).path path := by
    rw [PathPattern.below, Path.joinAll_eq]
    rwa [← hpaths] at hfills
  obtain ⟨found, hfound⟩ := (hpath.below haround).exists_leaf?_of_fills hbelow
  have hregistered : (leaf.registrations.find? fun r => r.method == method).isSome := by
    rw [List.find?_isSome]
    exact ⟨registration, hregistration, beq_iff_eq.mpr hmethod⟩
  rw [find_eq h method hline, List.findSome?_isSome_iff]
  refine ⟨leaf, hleaf, ?_⟩
  rw [found?, hfound, Option.bind_some, Option.isSome_map, hregistered]

/-- Whether a request is answered by a handler that is registered for its method, with parameters
that are captured from its path. -/
def Answers (layers : List (RouteNode PathPattern PathPattern)) (r : Request) : Prop :=
  ∃ leaf ∈ RouteNode.leaves [] layers, ∃ registration ∈ leaf.registrations,
    registration.method = r.method ∧ ∃ handler, registration.slot.Runs handler ∧ ∃ params,
      find layers r.method r.path [] = some (registration.slot, params) ∧
      ∀ fresh, dispatch layers fresh r = handler fresh { r with params }

theorem Written.answers {layers : List (RouteNode PathPattern PathPattern)} (h : Written layers)
    {paths : List String} {r : Request} (hkey : (paths, r.method) ∈ keys [] layers)
    (hfills : Path.Fills (documented paths) r.path) (hline : '\n' ∉ r.path.toList) :
    Answers layers r := by
  obtain ⟨⟨slot, params⟩, hfind⟩ :=
    Option.isSome_iff_exists.mp (isSome_find_of_mem_keys h hkey hfills hline)
  obtain ⟨leaf, hleaf, registration, hregistration, hmethod, rfl⟩ :=
    exists_registration_of_find h hline hfind
  refine ⟨leaf, hleaf, registration, hregistration, hmethod, _, registration.slot.runs_handler, params,
    hfind, fun fresh => ?_⟩
  rw [dispatch, hfind]

/-- Where all slots are those of one endpoint, what is answered is answered by that endpoint. -/
theorem Answers.exists_serve {layers : List (RouteNode PathPattern PathPattern)} {r : Request}
    (h : Answers layers r) {e : Endpoint}
    (hslots : ∀ registration ∈ ((RouteNode.leaves [] layers).map LeafSite.settled).flatMap
      LeafSite.registrations, registration.slot = .active e) :
    ∃ params, ∀ fresh, dispatch layers fresh r = e.serve fresh { r with params } := by
  obtain ⟨leaf, hleaf, registration, hregistration, _, handler, hruns, params, _, hdispatch⟩ := h
  have hsettled : registration.slot.settled = .active e :=
    hslots registration.settled (List.mem_flatMap.mpr
      ⟨leaf.settled, List.mem_map_of_mem hleaf, List.mem_map_of_mem hregistration⟩)
  rw [hruns.eq_serve hsettled] at hdispatch
  exact ⟨params, hdispatch⟩

/-- **Every documented route is served**, before resolution and after it. -/
theorem documented_served {plan : Plan} {router : Router} (h : plan.build = .ok router)
    {activated : List String} {routes : RouteMap Endpoint} {site : Site PathPattern PathPattern}
    (hresolve : Site.resolve reading ⟨router.layers, activated⟩ = (.ok routes, site))
    {template : String} {r : Request}
    (hroute : (template, r.method) ∈ routes.entries.map RouteEntry.route)
    (hfills : Path.Fills template r.path) (hline : '\n' ∉ r.path.toList) :
    Answers router.layers r ∧ Answers site.tree r := by
  have hwritten := Plan.written h
  obtain ⟨routes', hok, hkeys⟩ := resolve_written hwritten activated
  rw [hresolve] at hok
  cases hok
  obtain ⟨paths, hkey, rfl⟩ := (hkeys _ _).mp hroute
  have hsite : site.tree = (Resolution.nodes reading "/" router.layers { activated }).result :=
    congrArg (fun result => result.2.tree) hresolve.symm
  constructor
  · exact hwritten.answers hkey hfills hline
  · rw [hsite]
    refine (hwritten.nodes "/" _).answers ?_ hfills hline
    rwa [keys_nodes]

/-- The first mount matches the path too, but has no handler for the method. -/
theorem documented_served_house :
    let r : Request := { method := .get, path := "/rooms/7/lamps/42" }
    ∃ routes site, Plan.house.build = .ok house ∧
      Site.resolve reading ⟨house.layers, []⟩ = (.ok routes, site) ∧
      ("/:kind/:name/lamps/:id", r.method) ∈ routes.entries.map RouteEntry.route ∧
      Path.Fills "/:kind/:name/lamps/:id" r.path ∧
      Answers house.layers r ∧ Answers site.tree r ∧
      (∃ params, ∀ fresh,
        dispatch house.layers fresh r = Endpoint.lamp.serve fresh { r with params }) ∧
      ∃ params, ∀ fresh, dispatch site.tree fresh r = Endpoint.lamp.serve fresh { r with params } := by
  intro r
  obtain ⟨routes, hok, hkeys⟩ := resolve_written (Plan.written build_house) []
  have hresolve : Site.resolve reading ⟨house.layers, []⟩ =
      (.ok routes, (Site.resolve reading ⟨house.layers, []⟩).2) := by
    rw [← hok]
  have hroute : ("/:kind/:name/lamps/:id", r.method) ∈ routes.entries.map RouteEntry.route := by
    have hkey : (["/:kind/:name", "/lamps/:id"], Method.get) ∈ Plan.house.keys :=
      List.mem_cons_of_mem _ List.mem_cons_self
    exact (hkeys _ _).mpr ⟨_, (Plan.mem_keys build_house).mpr hkey, by decide⟩
  have hfills : Path.Fills "/:kind/:name/lamps/:id" r.path := by
    have hsegments : Path.segments "/:kind/:name/lamps/:id" = [":kind", ":name", "lamps", ":id"] := by
      decide
    refine ⟨["rooms", "7", "lamps", "42"], ?_, by decide⟩
    rw [hsegments]
    simp [Path.FillsIn, Path.IsSegment]
  obtain ⟨hbefore, hafter⟩ : Answers house.layers r ∧
      Answers (Site.resolve reading ⟨house.layers, []⟩).2.tree r :=
    documented_served build_house hresolve hroute hfills (by decide)
  -- every slot of the house is the lamp's, before resolution and after it
  have hslots : ∀ registration ∈ ((RouteNode.leaves [] house.layers).map LeafSite.settled).flatMap
      LeafSite.registrations, registration.slot = .active Endpoint.lamp := by
    have hhouse : ((RouteNode.leaves [] house.layers).map LeafSite.settled).flatMap
        LeafSite.registrations = [⟨.put, .active Endpoint.lamp⟩, ⟨.get, .active Endpoint.lamp⟩] := rfl
    rw [hhouse]
    intro registration hmem
    rcases List.mem_pair.mp hmem with rfl | rfl
    · rfl
    · rfl
  have hsettled := Site.leaves_resolve reading ⟨house.layers, []⟩
  exact ⟨routes, _, build_house, hresolve, hroute, hfills, hbefore, hafter,
    hbefore.exists_serve hslots, hafter.exists_serve (by rwa [hsettled])⟩

end Router

end RouteContract
