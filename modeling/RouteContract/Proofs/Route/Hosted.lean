import RouteContract.Proofs.Route.Calls
import RouteContract.Proofs.Route.Documented

/-!
# Hosted -- sites are hosts

A site says of a slot which endpoint it is for, and which endpoints have been activated by their
names. `Site.hosted` is the host that it stands for: endpoints at their names, the cells of the
activated ones filled, and in an active slot only what the endpoint hands out. Where every registered
endpoint is the one of its name (`RouteNode.Named`), resolution, activation by hand and dispatching do
the same at a site and at its host (`Site.resolve_hosted`, `Site.activate_hosted`,
`Site.dispatch_hosted`). With this, what has been shown of hosts is put together for both
(`Host.resolution_only_activates`).
-/

namespace RouteContract

/-! ## The host of a site -/

/-- The slot of a host for a slot, with endpoints at their names. -/
def Slot.hosted : Slot → Hosting.Slot
  | foreign h => .foreign h
  | declared e => .declared e.name
  | active e => .active ⟨e.metadata, e.serve⟩

/-- The registration of a host for a registration. -/
def Registration.hosted (r : Registration) : Hosting.Registration := ⟨r.method, r.slot.hosted⟩

namespace RouteNode

variable {ℓ μ : Type}

mutual

/-- The node of a host for a node. -/
def hosted : RouteNode ℓ μ → Hosting.Node ℓ μ
  | leaf path registrations => .leaf path (registrations.map Registration.hosted)
  | mount site children => .mount site (hostedAll children)

/-- The nodes of a host for nodes. -/
def hostedAll : List (RouteNode ℓ μ) → List (Hosting.Node ℓ μ)
  | [] => []
  | node :: rest => hosted node :: hostedAll rest

end

/-- Every registered endpoint of a tree is the one of its name. -/
inductive Named (endpoint : String → Endpoint) : List (RouteNode ℓ μ) → Prop
  | nil : Named endpoint []
  | leaf {path registrations rest} :
      (∀ r ∈ registrations, ∀ e, r.slot.endpoint? = some e → endpoint e.name = e) →
      Named endpoint rest → Named endpoint (.leaf path registrations :: rest)
  | mount {site children rest} : Named endpoint children → Named endpoint rest →
      Named endpoint (.mount site children :: rest)

end RouteNode

theorem RouteNode.areResolved_hostedAll {ℓ μ : Type} (tree : List (RouteNode ℓ μ)) :
    Hosting.Node.areResolved (hostedAll tree) = areResolved tree := by
  induction tree using forest_induct with
  | nil => rfl
  | leaf path rs rest hrest =>
      have hslots : (rs.map Registration.hosted).all (fun r => !r.slot.isDeclared) =
          rs.all fun r => !r.slot.isDeclared := by
        rw [List.all_map]
        congr 1
        funext r
        obtain ⟨method, slot⟩ := r
        cases slot <;> rfl
      exact congr (congrArg and hslots) hrest
  | mount site children rest hchildren hrest => exact congr (congrArg and hchildren) hrest

/-- Cells of endpoints at their names, those of activated endpoints filled. -/
def Hosting.Cells.ofActivated (endpoint : String → Endpoint) (activated : List String) : Cells where
  endpoint := endpoint
  cell := fun name =>
    if name ∈ activated then some ⟨(endpoint name).metadata, (endpoint name).serve⟩ else none
  filled := by
    intro name made h
    split at h
    · exact (Option.some.inj h).symm
    · cases h

/-- The host that a site stands for. -/
def Site.hosted {ℓ μ : Type} (endpoint : String → Endpoint) (s : Site ℓ μ) : Host ℓ μ where
  tree := RouteNode.hostedAll s.tree
  cells := .ofActivated endpoint s.activated

/-! ## Registries of routes and cells -/

theorem RouteMap.insertSorted_map {α β : Type} (f : α → β) (entry : RouteEntry α)
    (es : List (RouteEntry α)) :
    (insertSorted entry es).map (fun e => ⟨e.template, e.method, f e.payload⟩) =
      insertSorted ⟨entry.template, entry.method, f entry.payload⟩
        (es.map fun e => ⟨e.template, e.method, f e.payload⟩) := by
  induction es with
  | nil => rfl
  | cons e rest ih =>
      have hbefore : RouteEntry.before (⟨e.template, e.method, f e.payload⟩ : RouteEntry β)
          entry.template entry.method = e.before entry.template entry.method := rfl
      rw [insertSorted, List.map_cons, insertSorted, hbefore]
      split
      · rw [List.map_cons, ih]
      · rfl

theorem RouteMap.map_insert {α β : Type} (f : α → β) (m : RouteMap α) (template : String)
    (method : Method) (payload : α) : ((m.insert template method payload).1).map f =
      ((m.map f).insert template method (f payload)).1 := by
  have hhas : (m.map f).has template method = m.has template method := by
    rw [has, has, map, List.any_map]
    rfl
  rw [insert, insert, hhas]
  split
  · rfl
  · exact congrArg RouteMap.mk (insertSorted_map f ⟨template, method, payload⟩ m.entries)

theorem Hosting.Cells.ofActivated_addActivated (endpoint : String → Endpoint)
    (activated : List String) (name : String) :
    ofActivated endpoint (addActivated activated name) =
      (ofActivated endpoint activated).fill name := by
  have hmem : ∀ a, a ∈ addActivated activated name ↔ a = name ∨ a ∈ activated := by
    intro a
    rw [addActivated]
    split
    · next h =>
        rw [List.contains_iff_mem] at h
        exact ⟨.inr, fun ha => ha.elim (fun heq => heq ▸ h) id⟩
    · rw [List.mem_append, List.mem_singleton, or_comm]
  refine Cells.ext rfl (funext fun a => ?_)
  show (if a ∈ addActivated activated name then some (endpoint a).activate else none) =
    if a = name then some (endpoint name).activate
    else if a ∈ activated then some (endpoint a).activate else none
  simp only [hmem]
  by_cases ha : a = name
  · simp [ha]
  · simp [ha]

/-! ## Resolving -/

namespace Resolution

open RouteNode (Named hostedAll)

variable {ℓ μ : Type} {endpoint : String → Endpoint}

/-- What a host has collected when a site has collected this. -/
def Progress.hosted (endpoint : String → Endpoint) (p : Progress) : Hosting.Progress :=
  ⟨p.routes.map Endpoint.metadata, .ofActivated endpoint p.activated⟩

theorem registration_hosted (template : String) {r : Registration}
    (h : ∀ e, r.slot.endpoint? = some e → endpoint e.name = e) (p : Progress) :
    Hosting.registration template r.hosted (p.hosted endpoint) =
      ⟨(registration template r p).result.hosted,
        (registration template r p).progress.hosted endpoint, none⟩ := by
  obtain ⟨method, slot⟩ := r
  cases slot with
  | foreign handler => rfl
  | active e =>
      show (⟨_, ⟨((p.routes.map Endpoint.metadata).insert template method e.metadata).1, _⟩, none⟩ :
        Hosting.Step Hosting.Registration) = _
      rw [← RouteMap.map_insert]
      rfl
  | declared e =>
      have hactivate := Hosting.Cells.activate_eq e.name (p.hosted endpoint).cells
      have hendpoint : (p.hosted endpoint).cells.endpoint e.name = e := h e rfl
      rw [hendpoint] at hactivate
      simp only [Hosting.registration, Registration.hosted, Slot.hosted, StateT.run, hactivate]
      show (⟨_, ⟨((p.routes.map Endpoint.metadata).insert template method e.metadata).1,
        (Hosting.Cells.ofActivated endpoint p.activated).fill e.name⟩, none⟩ :
        Hosting.Step Hosting.Registration) = _
      rw [← RouteMap.map_insert, ← Hosting.Cells.ofActivated_addActivated]
      rfl

theorem registrations_hosted (template : String) {rs : List Registration}
    (h : ∀ r ∈ rs, ∀ e, r.slot.endpoint? = some e → endpoint e.name = e) (p : Progress) :
    Hosting.registrations template (rs.map Registration.hosted) (p.hosted endpoint) =
      ⟨(registrations template rs p).result.map Registration.hosted,
        (registrations template rs p).progress.hosted endpoint, none⟩ := by
  induction rs generalizing p with
  | nil => rfl
  | cons r rest ih =>
      obtain ⟨hr, hrest⟩ := List.forall_mem_cons.mp h
      rw [List.map_cons, Hosting.registrations, registration_hosted template hr, ih hrest]
      rfl

/-- **A walk of a site** is the walk of its host. -/
theorem nodes_hosted (read : Reading ℓ μ) (mountedAt : String) {tree : List (RouteNode ℓ μ)}
    (h : Named endpoint tree) (p : Progress) :
    Hosting.nodes read mountedAt (hostedAll tree) (p.hosted endpoint) =
      ⟨hostedAll (nodes read mountedAt tree p).result,
        (nodes read mountedAt tree p).progress.hosted endpoint,
        (nodes read mountedAt tree p).error?⟩ := by
  induction h generalizing mountedAt p with
  | nil => rfl
  | @leaf path rs rest hrs _ ih =>
      show Hosting.nodes read mountedAt (.leaf path (rs.map Registration.hosted) :: hostedAll rest)
        (p.hosted endpoint) = _
      rw [Hosting.nodes_leaf, nodes_leaf, registrations_hosted _ hrs]
      simp only [ih]
      rfl
  | @mount site children rest _ _ ihchildren ihrest =>
      show Hosting.nodes read mountedAt (.mount site (hostedAll children) :: hostedAll rest)
        (p.hosted endpoint) = _
      rcases nodes_mount_cases read mountedAt site children rest p with
        ⟨cause, hsite, hwalk⟩ |
        ⟨fragment, step, hsite, rfl, ⟨error, herror, hwalk⟩ | ⟨herror, hwalk⟩⟩
      · rw [hwalk, Hosting.nodes_mount_refused hsite]
        rfl
      all_goals have hbelow := ihchildren (Path.join mountedAt fragment) p
      · rw [hwalk, Hosting.nodes_mount_stopped hsite (by rw [hbelow]; exact herror), hbelow]
        rfl
      · rw [hwalk, Hosting.nodes_mount_passed hsite (by rw [hbelow]; exact herror), hbelow]
        simp only [ihrest]
        rfl

theorem endpoint?_settled (slot : Slot) : slot.settled.endpoint? = slot.endpoint? := by
  cases slot <;> rfl

theorem named_registrations (template : String) {rs : List Registration}
    (h : ∀ r ∈ rs, ∀ e, r.slot.endpoint? = some e → endpoint e.name = e) (p : Progress) :
    ∀ r ∈ (registrations template rs p).result, ∀ e, r.slot.endpoint? = some e →
      endpoint e.name = e := by
  intro r hr e he
  have hmem := List.mem_map_of_mem (f := Registration.settled) hr
  rw [registrations_result] at hmem
  obtain ⟨before, hbefore, hsettled⟩ := List.mem_map.mp hmem
  have hslot : before.slot.settled = r.slot.settled := congrArg Registration.slot hsettled
  refine h before hbefore e ?_
  rw [← endpoint?_settled, hslot, endpoint?_settled, he]

theorem named_nodes (read : Reading ℓ μ) (mountedAt : String) {tree : List (RouteNode ℓ μ)}
    (h : Named endpoint tree) (p : Progress) :
    Named endpoint (nodes read mountedAt tree p).result := by
  induction h generalizing mountedAt p with
  | nil => exact .nil
  | leaf hrs _ ih =>
      rw [nodes_leaf]
      exact .leaf (named_registrations _ hrs p) (ih mountedAt _)
  | @mount site children rest hchildren hrest ihchildren ihrest =>
      rcases nodes_mount_cases read mountedAt site children rest p with
        ⟨cause, _, hwalk⟩ | ⟨fragment, step, _, rfl, ⟨error, _, hwalk⟩ | ⟨_, hwalk⟩⟩
      · rw [hwalk]
        exact .mount hchildren hrest
      · rw [hwalk]
        exact .mount (ihchildren _ p) hrest
      · rw [hwalk]
        exact .mount (ihchildren _ p) (ihrest mountedAt _)

end Resolution

/-! ## Requests -/

namespace Router

open RouteNode (Named hostedAll)

variable {endpoint : String → Endpoint} {layers : List (RouteNode PathPattern PathPattern)}
  {method : Method} {path : String} {params : Entries Json}

/-- A search at a host finds the slot that a search at the site finds. -/
theorem find_hosted (layers : List (RouteNode PathPattern PathPattern)) (method : Method)
    (path : String) (params : Entries Json) :
    Hosting.find (hostedAll layers) method path params =
      (find layers method path params).map fun found => (found.1.hosted, found.2) := by
  induction layers using RouteNode.forest_induct generalizing path params with
  | nil => rfl
  | leaf p rs rest hrest =>
      show Hosting.find (.leaf p (rs.map Registration.hosted) :: hostedAll rest) method path params
        = _
      rw [Hosting.find_cons, find_cons, hrest, Option.map_or]
      congr 1
      rw [Hosting.findInLayer, findInLayer]
      cases p.leaf? path with
      | none => rfl
      | some captures =>
          simp only [List.find?_map, Option.map_map]
          rfl
  | mount p children rest hchildren hrest =>
      show Hosting.find (.mount p (hostedAll children) :: hostedAll rest) method path params = _
      rw [Hosting.find_cons, find_cons, hrest, Option.map_or]
      congr 1
      rw [Hosting.findInLayer, findInLayer]
      cases p.mount? path with
      | none => rfl
      | some captured => exact hchildren captured.2 _

/-- A slot that is found is registered in the tree. -/
theorem named_of_find (h : Named endpoint layers) {slot : Slot} {found : Entries Json}
    (hfind : find layers method path params = some (slot, found)) :
    ∀ e, slot.endpoint? = some e → endpoint e.name = e := by
  induction h generalizing path params with
  | nil => cases hfind
  | @leaf p rs rest hrs _ ih =>
      rw [find_cons, Option.or_eq_some_iff] at hfind
      rcases hfind with hhere | ⟨_, hrest⟩
      · rw [findInLayer] at hhere
        cases hleaf : p.leaf? path with
        | none =>
            rw [hleaf] at hhere
            cases hhere
        | some captures =>
            rw [hleaf] at hhere
            obtain ⟨r, hr, heq⟩ := Option.map_eq_some_iff.mp hhere
            cases heq
            exact hrs r (List.mem_of_find?_eq_some hr)
      · exact ih hrest
  | @mount p children rest _ _ ihchildren ihrest =>
      rw [find_cons, Option.or_eq_some_iff] at hfind
      rcases hfind with hbelow | ⟨_, hrest⟩
      · rw [findInLayer] at hbelow
        cases hmount : p.mount? path with
        | none =>
            rw [hmount] at hbelow
            cases hbelow
        | some captured =>
            rw [hmount] at hbelow
            exact ihchildren hbelow
      · exact ihrest hrest

end Router

namespace Site

open RouteNode (Named)

variable {ℓ μ : Type} {endpoint : String → Endpoint}

/-- **Resolving a site** is resolving its host. -/
theorem resolve_hosted (read : Resolution.Reading ℓ μ) {s : Site ℓ μ} (h : Named endpoint s.tree) :
    (s.hosted endpoint).resolve read =
      ((s.resolve read).1.map (RouteMap.map Endpoint.metadata),
        (s.resolve read).2.hosted endpoint) := by
  have hwalk : Hosting.nodes read "/" (s.hosted endpoint).tree
      { cells := (s.hosted endpoint).cells } = ⟨RouteNode.hostedAll _, _, _⟩ :=
    Resolution.nodes_hosted read "/" h { activated := s.activated }
  rw [Host.resolve, hwalk, Site.resolve]
  cases (Resolution.nodes read "/" s.tree { activated := s.activated }).error? with
  | none => rfl
  | some error => rfl

/-- Resolution leaves registered what was registered. -/
theorem named_resolve (read : Resolution.Reading ℓ μ) {s : Site ℓ μ} (h : Named endpoint s.tree) :
    Named endpoint (s.resolve read).2.tree :=
  Resolution.named_nodes read "/" h { activated := s.activated }

theorem isResolved_hosted (endpoint : String → Endpoint) (s : Site ℓ μ) :
    (s.hosted endpoint).isResolved = s.isResolved :=
  RouteNode.areResolved_hostedAll s.tree

/-- **Activating an endpoint at a site** is activating it at the host. -/
theorem activate_hosted (s : Site ℓ μ) {e : Endpoint} (h : endpoint e.name = e) :
    (s.hosted endpoint).activate e.name = (e.activate, (s.activate e).hosted endpoint) := by
  have hactivate := Hosting.Cells.activate_eq e.name (s.hosted endpoint).cells
  have hendpoint : (s.hosted endpoint).cells.endpoint e.name = e := h
  have hcells : (Hosting.Cells.ofActivated endpoint s.activated).fill e.name =
      .ofActivated endpoint (addActivated s.activated e.name) :=
    (Hosting.Cells.ofActivated_addActivated ..).symm
  rw [hendpoint] at hactivate
  rw [Host.activate]
  simp only [StateT.run, hactivate]
  exact Prod.ext rfl (congrArg (Host.mk _) hcells)

/-- **Dispatching at a site** is dispatching at its host. -/
theorem dispatch_hosted {s : Site PathPattern PathPattern} (h : Named endpoint s.tree)
    (fresh : RequestId) (r : Request) :
    (s.hosted endpoint).dispatch fresh r =
      ((s.dispatch fresh r).1, (s.dispatch fresh r).2.hosted endpoint) := by
  have hfind := Router.find_hosted s.tree r.method r.path []
  show ((Hosting.dispatch (RouteNode.hostedAll s.tree) fresh r (s.hosted endpoint).cells).1,
    (⟨_, (Hosting.dispatch (RouteNode.hostedAll s.tree) fresh r (s.hosted endpoint).cells).2⟩ :
      Host PathPattern PathPattern)) = _
  rw [Hosting.dispatch, hfind, Site.dispatch, Router.dispatch]
  cases hfound : Router.find s.tree r.method r.path [] with
  | none => rfl
  | some found =>
      obtain ⟨slot, params⟩ := found
      cases slot with
      | foreign handler => rfl
      | active e => rfl
      | declared e =>
          -- the request activates the endpoint, at the site and at its host
          have hactivate := activate_hosted s (Router.named_of_find h hfound e rfl)
          have hmade : (Hosting.Cells.activate e.name (s.hosted endpoint).cells).1 = e.activate :=
            congrArg Prod.fst hactivate
          have hhost : ((s.hosted endpoint).activate e.name).2 = (s.activate e).hosted endpoint :=
            congrArg Prod.snd hactivate
          refine Prod.ext ?_ hhost
          show (Hosting.Cells.activate e.name (s.hosted endpoint).cells).1.handler fresh _ = _
          rw [hmade]
          rfl

end Site

/-! ## Resolution only activates -/

namespace Host

open Hosting (Node)

variable {ℓ μ : Type}

/-- **What a resolution did to a host**, with the tour of its tree in two parts. All slots in the part
that was reached are settled, and the cells of their endpoints filled, each with the metadata and the
production handler of that very endpoint; the other part is as it was, and so is everything else.
Nothing is left if the resolution ended; if it failed, what is left begins with the mount that is
refused, and nothing that was reached is. -/
structure Activated (read : Resolution.Reading ℓ μ) (h : Host ℓ μ)
    (result : Except ResolutionError (RouteMap Metadata)) (after : Host ℓ μ)
    (reached left : List (Hosting.Stop ℓ μ)) : Prop where
  before : Node.tour [] h.tree = reached ++ left
  settled : Node.tour [] after.tree = reached.map (Hosting.Stop.settled h.cells.endpoint) ++ left
  endpoint : after.cells.endpoint = h.cells.endpoint
  cell : ∀ address, after.cells.cell address =
    if address ∈ reached.flatMap Hosting.Stop.addresses then
      some ⟨(h.cells.endpoint address).metadata, (h.cells.endpoint address).serve⟩
    else h.cells.cell address
  accepted : ∀ stop ∈ reached, ∀ site, stop.site? = some site → ¬ read.Refuses site
  halted : (∃ routes, result = .ok routes) ∧ left = [] ∨ (∃ error, result = .error error) ∧
    ∃ stop others site, left = stop :: others ∧ stop.site? = some site ∧ read.Refuses site

theorem exists_activated (read : Resolution.Reading ℓ μ) (h : Host ℓ μ) :
    ∃ reached left, Activated read h (h.resolve read).1 (h.resolve read).2 reached left := by
  obtain ⟨reached, left, hwalked⟩ := exists_walked read h
  refine ⟨reached, left, hwalked.before, hwalked.after, hwalked.endpoint, fun address => ?_,
    hwalked.accepted, ?_⟩
  · show (Hosting.nodes read "/" h.tree { cells := h.cells }).progress.cells.cell address = _
    rw [hwalked.cells, Hosting.Cells.fillAll_cell]
    rfl
  · rw [resolve]
    rcases hwalked.halted with ⟨hnone, hleft⟩ | ⟨error, stop, others, site, hsome, hleft, hstop⟩
    · rw [hnone]
      exact .inl ⟨⟨_, rfl⟩, hleft⟩
    · rw [hsome]
      exact .inr ⟨⟨error, rfl⟩, stop, others, site, hleft, hstop⟩

/-- **Resolution only activates.** Whether it ends or fails, resolving any host settles the slots that
a depth-first walk meets up to the mount that stops it, and changes nothing else about the tree; a
tour tells trees apart. When it has ended, no slot is merely declared, and resolving again finds the
same routes and changes nothing. Calls of a router at work in any order are all answered as each of
them would be by the router as it was. And where every registered endpoint is the one of its name, a
site does what its host does. -/
theorem resolution_only_activates :
    (∀ {ℓ μ : Type} (read : Resolution.Reading ℓ μ) (h : Host ℓ μ),
      (∃ reached left, Activated read h (h.resolve read).1 (h.resolve read).2 reached left) ∧
      (∀ tree, Node.tour [] tree = Node.tour [] h.tree → tree = h.tree) ∧
      ∀ routes, (h.resolve read).1 = .ok routes → (h.resolve read).2.isResolved = true ∧
        (h.resolve read).2.resolve read = (.ok routes, (h.resolve read).2)) ∧
    (∀ (h : Host PathPattern PathPattern) (calls : List Call),
      (h.run calls).1 = calls.map fun c => (h.call c).1) ∧
    (∀ {ℓ μ : Type} (endpoint : String → Endpoint) (s : Site ℓ μ), RouteNode.Named endpoint s.tree →
      (s.hosted endpoint).isResolved = s.isResolved ∧
      (∀ read : Resolution.Reading ℓ μ, RouteNode.Named endpoint (s.resolve read).2.tree ∧
        (s.hosted endpoint).resolve read =
          ((s.resolve read).1.map (RouteMap.map Endpoint.metadata),
            (s.resolve read).2.hosted endpoint)) ∧
      ∀ e, endpoint e.name = e →
        (s.hosted endpoint).activate e.name =
          (⟨e.metadata, e.serve⟩, (s.activate e).hosted endpoint)) ∧
    ∀ (endpoint : String → Endpoint) (s : Site PathPattern PathPattern),
      RouteNode.Named endpoint s.tree → ∀ fresh r, (s.hosted endpoint).dispatch fresh r =
        ((s.dispatch fresh r).1, (s.dispatch fresh r).2.hosted endpoint) := by
  refine ⟨fun read h => ⟨exists_activated read h, fun tree => Node.tour_injective,
      fun routes hok => ⟨isResolved_resolve hok, ?_⟩⟩, fun h => run_answers (.refl h),
    fun endpoint s h => ⟨Site.isResolved_hosted endpoint s,
      fun read => ⟨Site.named_resolve read h, Site.resolve_hosted read h⟩,
      fun e => Site.activate_hosted s⟩, fun endpoint s h => Site.dispatch_hosted h⟩
  rw [resolve_resolve hok, ← hok]

theorem named_house : RouteNode.Named (fun _ => Endpoint.lamp) Router.house.layers := by
  have hlamp : ∀ (method : Method), ∀ r ∈ [(⟨method, .declared Endpoint.lamp⟩ : Registration)],
      ∀ e, r.slot.endpoint? = some e → Endpoint.lamp = e := by
    intro method r hr e he
    obtain rfl := List.mem_singleton.mp hr
    exact Option.some.inj he
  exact .mount (.leaf (hlamp .put) .nil) (.mount (.leaf (hlamp .get) .nil) .nil)

/-- A request to the house is answered the same before and after its routes are resolved. -/
theorem resolution_only_activates_house :
    let site := Router.house.site
    let host := site.hosted fun _ => Endpoint.lamp
    ∃ routes, (host.resolve Router.reading).1 = .ok routes ∧
      (host.resolve Router.reading).2.isResolved = true ∧
      ∀ fresh r, (host.run [.dispatch fresh r, .resolve, .activate "lamp", .dispatch fresh r]).1 =
        [.response (site.dispatch fresh r).1, .routes (.ok routes),
          .activation ⟨Endpoint.lamp.metadata, Endpoint.lamp.serve⟩,
          .response (site.dispatch fresh r).1] := by
  intro site host
  obtain ⟨hresolve, hcalls, hsite, hdispatch⟩ := resolution_only_activates
  obtain ⟨_, hresolved, hactivate⟩ := hsite (fun _ => Endpoint.lamp) site named_house
  have hanswer := hdispatch (fun _ => Endpoint.lamp) site named_house
  obtain ⟨routes, hok, _⟩ : ∃ routes, (site.resolve Router.reading).1 = .ok routes ∧ _ :=
    Router.resolve_written (Plan.written Router.build_house) []
  -- from here on it does not matter which site it is
  clear_value site
  have hroutes : (host.resolve Router.reading).1 = .ok (routes.map Endpoint.metadata) := by
    have hhost := congrArg Prod.fst (hresolved Router.reading).2
    rw [hok] at hhost
    exact hhost
  have hmade : (host.activate "lamp").1 = ⟨Endpoint.lamp.metadata, Endpoint.lamp.serve⟩ :=
    congrArg Prod.fst (hactivate Endpoint.lamp rfl)
  have hresponse : ∀ fresh r, (host.dispatch fresh r).1 = (site.dispatch fresh r).1 :=
    fun fresh r => congrArg Prod.fst (hanswer fresh r)
  refine ⟨routes.map Endpoint.metadata, hroutes, ((hresolve Router.reading host).2.2 _ hroutes).1,
    fun fresh r => ?_⟩
  rw [hcalls]
  simp only [List.map_cons, List.map_nil, call, hroutes, hresponse, hmade]

end Host

end RouteContract
