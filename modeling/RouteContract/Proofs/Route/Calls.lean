import RouteContract.Proofs.Route.Hosting

/-!
# Calls -- what is asked of a host, and what it answers

Resolution settles the slots that a walk meets up to the mount that stops it, and fills the cells of
their endpoints (`Hosting.exists_walked`); which routes it finds, and what stops it, can be told from
the settled tree (`Hosting.nodes_settledAll`). So can the answer to a request
(`Hosting.dispatch_settledAll`). No call does more to a tree than to settle slots (`Host.Same`), and so
every call in a row is answered as it would have been before all of them (`Host.run_answers`).
-/

namespace RouteContract

namespace Hosting

open Resolution (Reading)
open Node (tour settledAll)

variable {ℓ μ : Type} {read : Reading ℓ μ}

/-! ## Walks -/

section Step

variable {mountedAt : String} {site : μ} {children rest : List (Node ℓ μ)} {p : Progress}

/-- The typed slots among those at a template, with their metadata. -/
def typed (c : Cells) (template : String) (rs : List Registration) : List (RouteEntry Metadata) :=
  rs.filterMap fun r => (r.slot.metadata? c).map fun m => ⟨template, r.method, m⟩

theorem typed_settled (c c' : Cells) (template : String) (rs : List Registration) :
    typed c' template (rs.map (Registration.settled c.endpoint)) = typed c template rs := by
  rw [typed, List.filterMap_map, typed]
  congr 1
  funext r
  show ((r.slot.settled c.endpoint).metadata? c').map _ = _
  rw [Slot.metadata?_settled]
  rfl

/-- **Slots at a path** are settled, their routes added, and the cells of their endpoints filled. -/
theorem registrations_eq (template : String) (rs : List Registration) (p : Progress) :
    registrations template rs p = ⟨rs.map (Registration.settled p.cells.endpoint),
      ⟨p.routes.insertAll (typed p.cells template rs), p.cells.fillAll (addresses rs)⟩, none⟩ := by
  induction rs generalizing p with
  | nil => rfl
  | cons r rest ih =>
      obtain ⟨method, slot⟩ := r
      rw [registrations, ih]
      cases slot with
      | foreign handler => rfl
      | active made => rfl
      | declared address =>
          have hactivate := Cells.activate_eq address p.cells
          simp only [registration, StateT.run, hactivate]
          rfl

theorem nodes_leaf (path : ℓ) (rs : List Registration) :
    nodes read mountedAt (.leaf path rs :: rest) p =
      let step := registrations (Path.join mountedAt (read.path path)) rs p
      let others := nodes read mountedAt rest step.progress
      ⟨.leaf path step.result :: others.result, others.progress, others.error?⟩ := rfl

theorem nodes_mount_refused {cause : PatternError} (h : read.template? site = .error cause) :
    nodes read mountedAt (.mount site children :: rest) p =
      ⟨.mount site children :: rest, p, some ⟨(read.pattern site).source, mountedAt, cause⟩⟩ := by
  unfold Reading.template? at h
  simp only [nodes, node, h]

theorem nodes_mount_stopped {fragment : String} {error : ResolutionError}
    (h : read.template? site = .ok fragment)
    (hbelow : (nodes read (Path.join mountedAt fragment) children p).error? = some error) :
    nodes read mountedAt (.mount site children :: rest) p =
      let step := nodes read (Path.join mountedAt fragment) children p
      ⟨.mount site step.result :: rest, step.progress, some error⟩ := by
  unfold Reading.template? at h
  simp only [nodes, node, h, hbelow]

theorem nodes_mount_passed {fragment : String} (h : read.template? site = .ok fragment)
    (hbelow : (nodes read (Path.join mountedAt fragment) children p).error? = none) :
    nodes read mountedAt (.mount site children :: rest) p =
      let step := nodes read (Path.join mountedAt fragment) children p
      let others := nodes read mountedAt rest step.progress
      ⟨.mount site step.result :: others.result, others.progress, others.error?⟩ := by
  unfold Reading.template? at h
  simp only [nodes, node, h, hbelow]

end Step

/-- **What a walk does**, with the tour of the tree in two parts: what was reached, where it settled
all slots and filled the cells of their endpoints, and what is left, which begins with the mount that
stopped the walk. -/
structure Walked (read : Reading ℓ μ) (around : List μ) (tree : List (Node ℓ μ)) (p : Progress)
    (step : Step (List (Node ℓ μ))) (reached left : List (Stop ℓ μ)) : Prop where
  before : tour around tree = reached ++ left
  after : tour around step.result = reached.map (Stop.settled p.cells.endpoint) ++ left
  accepted : ∀ stop ∈ reached, ∀ site, stop.site? = some site → ¬ read.Refuses site
  cells : step.progress.cells = p.cells.fillAll (reached.flatMap Stop.addresses)
  halted : step.error? = none ∧ left = [] ∨ ∃ error stop others site, step.error? = some error ∧
    left = stop :: others ∧ stop.site? = some site ∧ read.Refuses site

theorem Walked.endpoint {around : List μ} {tree : List (Node ℓ μ)} {p : Progress}
    {step : Step (List (Node ℓ μ))} {reached left : List (Stop ℓ μ)}
    (h : Walked read around tree p step reached left) :
    step.progress.cells.endpoint = p.cells.endpoint := by
  rw [h.cells, Cells.fillAll_endpoint]

section Walk

variable {mountedAt : String} {around : List μ} {site : μ} {tree children rest : List (Node ℓ μ)}
  {p : Progress} {reached reached' left : List (Stop ℓ μ)}

/-- A walk that leaves nothing has ended. -/
theorem Walked.error?_eq_none {step : Step (List (Node ℓ μ))}
    (h : Walked read around tree p step reached []) : step.error? = none := by
  rcases h.halted with ⟨hnone, _⟩ | ⟨_, _, _, _, _, hleft, _⟩
  · exact hnone
  · cases hleft

/-- A walk settles the slots of a leaf and goes on behind it. -/
theorem Walked.leaf {path : ℓ} {rs : List Registration} {q : Progress}
    (hq : (registrations (Path.join mountedAt (read.path path)) rs p).progress = q)
    (h : Walked read around rest q (nodes read mountedAt rest q) reached left) :
    Walked read around (.leaf path rs :: rest) p
      (nodes read mountedAt (.leaf path rs :: rest) p) (.leaf around path rs :: reached) left := by
  subst hq
  rw [registrations_eq] at h
  rw [nodes_leaf, registrations_eq]
  refine ⟨?_, ?_, ?_, ?_, h.halted⟩
  · exact congrArg (List.cons _) h.before
  · have hafter := h.after
    rw [Cells.fillAll_endpoint] at hafter
    exact congrArg (List.cons _) hafter
  · exact List.forall_mem_cons.mpr ⟨nofun, h.accepted⟩
  · rw [List.flatMap_cons, Cells.fillAll_append]
    exact h.cells

/-- A walk reaches nothing behind a mount that is refused. -/
theorem walked_refused (h : read.Refuses site) :
    Walked read around (.mount site children :: rest) p
      (nodes read mountedAt (.mount site children :: rest) p) []
      (tour around (.mount site children :: rest)) := by
  obtain ⟨cause, hsite⟩ := h
  rw [nodes_mount_refused hsite]
  exact ⟨rfl, rfl, nofun, rfl, .inr ⟨_, .mount around site, _, site, rfl, rfl, rfl, cause, hsite⟩⟩

theorem accepted_mount (hsite : ¬ read.Refuses site)
    (h : ∀ stop ∈ reached, ∀ site, stop.site? = some site → ¬ read.Refuses site) :
    ∀ stop ∈ Stop.mount around site :: reached, ∀ site, stop.site? = some site →
      ¬ read.Refuses site := by
  refine List.forall_mem_cons.mpr ⟨?_, h⟩
  rintro _ ⟨⟩
  exact hsite

/-- A walk that is stopped below a mount is stopped. -/
theorem Walked.stopped {fragment : String} {error : ResolutionError}
    (hsite : read.template? site = .ok fragment)
    (h : Walked read (around ++ [site]) children p
      (nodes read (Path.join mountedAt fragment) children p) reached left)
    (herror : (nodes read (Path.join mountedAt fragment) children p).error? = some error) :
    Walked read around (.mount site children :: rest) p
      (nodes read mountedAt (.mount site children :: rest) p) (.mount around site :: reached)
      (left ++ tour around rest) := by
  rw [nodes_mount_stopped hsite herror]
  refine ⟨?_, ?_, accepted_mount (Resolution.not_refuses_iff.mpr ⟨fragment, hsite⟩) h.accepted,
    h.cells, ?_⟩
  · rw [Node.tour_mount, h.before, List.cons_append, List.append_assoc]
  · rw [Node.tour_mount, h.after, List.map_cons, List.cons_append, List.append_assoc]
    rfl
  · rcases h.halted with ⟨hnone, _⟩ | ⟨_, stop, others, site', _, rfl, hstop⟩
    · rw [herror] at hnone
      cases hnone
    · exact .inr ⟨error, stop, others ++ tour around rest, site', rfl, rfl, hstop⟩

/-- A walk that ends below a mount goes on behind it. -/
theorem Walked.passed {fragment : String} (hsite : read.template? site = .ok fragment)
    (h : Walked read (around ++ [site]) children p
      (nodes read (Path.join mountedAt fragment) children p) reached [])
    (h' : Walked read around rest (nodes read (Path.join mountedAt fragment) children p).progress
      (nodes read mountedAt rest (nodes read (Path.join mountedAt fragment) children p).progress)
      reached' left) :
    Walked read around (.mount site children :: rest) p
      (nodes read mountedAt (.mount site children :: rest) p)
      (.mount around site :: (reached ++ reached')) left := by
  rw [nodes_mount_passed hsite h.error?_eq_none]
  refine ⟨?_, ?_, ?_, ?_, h'.halted⟩
  · rw [Node.tour_mount, h.before, h'.before, List.append_nil, List.cons_append, List.append_assoc]
  · rw [Node.tour_mount, h.after, h'.after, h.endpoint, List.append_nil, List.map_cons,
      List.map_append, List.cons_append, List.append_assoc]
    rfl
  · exact accepted_mount (Resolution.not_refuses_iff.mpr ⟨fragment, hsite⟩)
      (List.forall_mem_append.mpr ⟨h.accepted, h'.accepted⟩)
  · rw [h'.cells, h.cells, List.flatMap_cons, List.flatMap_append, Cells.fillAll_append,
      Cells.fillAll_append]
    rfl

/-- **A walk** reaches some part of the tree and leaves the rest. -/
theorem exists_walked (read : Reading ℓ μ) (mountedAt : String) (around : List μ)
    (tree : List (Node ℓ μ)) (p : Progress) :
    ∃ reached left, Walked read around tree p (nodes read mountedAt tree p) reached left := by
  induction tree using Node.forest_induct generalizing mountedAt p around with
  | nil => exact ⟨[], [], rfl, rfl, nofun, rfl, .inl ⟨rfl, rfl⟩⟩
  | leaf path rs rest hrest =>
      obtain ⟨reached, left, h⟩ := hrest mountedAt around
        (registrations (Path.join mountedAt (read.path path)) rs p).progress
      exact ⟨_, left, .leaf rfl h⟩
  | mount site children rest hchildren hrest =>
      cases hsite : read.template? site with
      | error cause => exact ⟨[], _, walked_refused ⟨cause, hsite⟩⟩
      | ok fragment =>
          obtain ⟨reached, left, h⟩ := hchildren (Path.join mountedAt fragment) (around ++ [site]) p
          rcases h.halted with ⟨_, rfl⟩ | ⟨error, _, _, _, herror, _⟩
          · obtain ⟨reached', left', h'⟩ := hrest mountedAt around
              (nodes read (Path.join mountedAt fragment) children p).progress
            exact ⟨_, _, .passed hsite h h'⟩
          · exact ⟨_, _, .stopped hsite h herror⟩

theorem endpoint_nodes (read : Reading ℓ μ) (mountedAt : String) (tree : List (Node ℓ μ))
    (p : Progress) : (nodes read mountedAt tree p).progress.cells.endpoint = p.cells.endpoint := by
  obtain ⟨_, _, h⟩ := exists_walked read mountedAt [] tree p
  exact h.endpoint

/-- A walk leaves the same tree behind, but for slots that are still to be settled. -/
theorem Walked.settledAll {step : Step (List (Node ℓ μ))} {reached left : List (Stop ℓ μ)}
    (h : Walked read around tree p step reached left) :
    Node.settledAll p.cells.endpoint step.result = Node.settledAll p.cells.endpoint tree := by
  have hsettled : ∀ stops : List (Stop ℓ μ), (stops.map (Stop.settled p.cells.endpoint)).map
      (Stop.settled p.cells.endpoint) = stops.map (Stop.settled p.cells.endpoint) := by
    intro stops
    rw [List.map_map]
    exact List.map_congr_left fun stop _ => Stop.settled_settled p.cells.endpoint stop
  refine Node.tour_injective (?_ : tour around _ = tour around _)
  rw [Node.tour_settledAll, Node.tour_settledAll, h.after, h.before, List.map_append,
    List.map_append, hsettled]

/-- A walk that ends leaves no slot to be settled. -/
theorem Walked.result {step : Step (List (Node ℓ μ))} {reached left : List (Stop ℓ μ)}
    (h : Walked read around tree p step reached left) (hok : step.error? = none) :
    step.result = Node.settledAll p.cells.endpoint tree := by
  rcases h.halted with ⟨_, rfl⟩ | ⟨_, _, _, _, hsome, _⟩
  · refine Node.tour_injective (?_ : tour around _ = tour around _)
    rw [Node.tour_settledAll, h.after, h.before, List.append_nil, List.append_nil]
  · rw [hok] at hsome
    cases hsome

/-- **The routes of a walk**, and the error that stops it, can be told from the settled tree. -/
theorem nodes_settledAll (read : Reading ℓ μ) (mountedAt : String) (tree : List (Node ℓ μ))
    (p q : Progress) (hroutes : q.routes = p.routes)
    (hendpoint : q.cells.endpoint = p.cells.endpoint) :
    (nodes read mountedAt (settledAll p.cells.endpoint tree) q).progress.routes =
        (nodes read mountedAt tree p).progress.routes ∧
      (nodes read mountedAt (settledAll p.cells.endpoint tree) q).error? =
        (nodes read mountedAt tree p).error? := by
  induction tree using Node.forest_induct generalizing mountedAt p q with
  | nil => exact ⟨hroutes, rfl⟩
  | leaf path rs rest hrest =>
      rw [Node.settledAll_leaf, nodes_leaf, nodes_leaf, registrations_eq, registrations_eq]
      have hfill : (p.cells.fillAll (addresses rs)).endpoint = p.cells.endpoint :=
        Cells.fillAll_endpoint ..
      have hq : (q.cells.fillAll
          (addresses (rs.map (Registration.settled p.cells.endpoint)))).endpoint =
            (p.cells.fillAll (addresses rs)).endpoint := by
        rw [Cells.fillAll_endpoint, hfill, hendpoint]
      have h := hrest mountedAt
        ⟨p.routes.insertAll (typed p.cells (Path.join mountedAt (read.path path)) rs),
          p.cells.fillAll (addresses rs)⟩
        ⟨q.routes.insertAll (typed q.cells (Path.join mountedAt (read.path path))
          (rs.map (Registration.settled p.cells.endpoint))), _⟩
        (by rw [hroutes, typed_settled]) hq
      rw [hfill] at h
      exact h
  | mount site children rest hchildren hrest =>
      rw [Node.settledAll_mount]
      cases hsite : read.template? site with
      | error cause =>
          rw [nodes_mount_refused hsite, nodes_mount_refused hsite]
          exact ⟨hroutes, rfl⟩
      | ok fragment =>
          obtain ⟨hbelow, herrors⟩ :=
            hchildren (Path.join mountedAt fragment) p q hroutes hendpoint
          cases herror : (nodes read (Path.join mountedAt fragment) children p).error? with
          | some error =>
              rw [nodes_mount_stopped hsite herror, nodes_mount_stopped hsite (herrors.trans herror)]
              exact ⟨hbelow, rfl⟩
          | none =>
              rw [nodes_mount_passed hsite herror, nodes_mount_passed hsite (herrors.trans herror)]
              have hp := endpoint_nodes read (Path.join mountedAt fragment) children p
              have hq := endpoint_nodes read (Path.join mountedAt fragment)
                (settledAll p.cells.endpoint children) q
              have h := hrest mountedAt _ _ hbelow (hq.trans (hendpoint.trans hp.symm))
              rw [hp] at h
              exact h

end Walk

/-! ## Requests -/

section Dispatch

variable {endpoint : String → Endpoint} {method : Method} {path : String} {params : Entries Json}

theorem find_cons (layer : Node PathPattern PathPattern)
    (rest : List (Node PathPattern PathPattern)) (method : Method) (path : String)
    (params : Entries Json) :
    find (layer :: rest) method path params =
      (findInLayer layer method path params).or (find rest method path params) := by
  rw [find]
  cases findInLayer layer method path params <;> rfl

theorem findInLayer_leaf_settled (p : PathPattern) (rs : List Registration) :
    findInLayer (.leaf p (rs.map (Registration.settled endpoint))) method path params =
      (findInLayer (.leaf p rs) method path params).map fun found =>
        (found.1.settled endpoint, found.2) := by
  rw [findInLayer, findInLayer]
  cases p.leaf? path with
  | none => rfl
  | some captures =>
      simp only [List.find?_map, Option.map_map]
      rfl

/-- A search finds in the settled tree what it finds in the tree, settled. -/
theorem find_settledAll (layers : List (Node PathPattern PathPattern)) :
    find (settledAll endpoint layers) method path params =
      (find layers method path params).map fun found => (found.1.settled endpoint, found.2) := by
  induction layers using Node.forest_induct generalizing path params with
  | nil => rfl
  | leaf p rs rest hrest =>
      rw [Node.settledAll_leaf, find_cons, find_cons, hrest, findInLayer_leaf_settled, Option.map_or]
  | mount p children rest hchildren hrest =>
      rw [Node.settledAll_mount, find_cons, find_cons, hrest, Option.map_or]
      congr 1
      rw [findInLayer, findInLayer]
      cases p.mount? path with
      | none => rfl
      | some captured => exact hchildren

/-- **The answer to a request** can be told from the settled tree, whatever is in the cells. -/
theorem dispatch_settledAll (layers : List (Node PathPattern PathPattern)) (fresh : RequestId)
    (r : Request) (c c' : Cells) :
    (dispatch (settledAll c.endpoint layers) fresh r c').1 = (dispatch layers fresh r c).1 := by
  rw [dispatch, find_settledAll, dispatch]
  cases find layers r.method r.path [] with
  | none => rfl
  | some found =>
      obtain ⟨slot, params⟩ := found
      show ((slot.settled c.endpoint).handler c').1 fresh { r with params } =
        (slot.handler c).1 fresh { r with params }
      rw [Slot.handler_settled]

theorem dispatch_endpoint (layers : List (Node PathPattern PathPattern)) (fresh : RequestId)
    (r : Request) (c : Cells) : (dispatch layers fresh r c).2.endpoint = c.endpoint := by
  rw [dispatch]
  cases find layers r.method r.path [] with
  | none => rfl
  | some found => exact Slot.handler_endpoint found.1 c

end Dispatch

end Hosting

/-! ## Hosts -/

namespace Host

open Hosting
open Resolution (Reading)

variable {ℓ μ : Type} {read : Reading ℓ μ} {h h' : Host ℓ μ}

/-- What a resolution does to a host. -/
theorem exists_walked (read : Reading ℓ μ) (h : Host ℓ μ) :
    ∃ reached left, Walked read [] h.tree { cells := h.cells }
      (nodes read "/" h.tree { cells := h.cells }) reached left :=
  Hosting.exists_walked read "/" [] h.tree { cells := h.cells }

theorem error?_of_resolve_ok {routes : RouteMap Metadata} (hok : (h.resolve read).1 = .ok routes) :
    (nodes read "/" h.tree { cells := h.cells }).error? = none := by
  rw [resolve] at hok
  cases herror : (nodes read "/" h.tree { cells := h.cells }).error? with
  | none => rfl
  | some error =>
      rw [herror] at hok
      cases hok

/-- Hosts of the same endpoints, with trees that are the same once all slots are settled. -/
structure Same (h h' : Host ℓ μ) : Prop where
  endpoint : h'.cells.endpoint = h.cells.endpoint
  settled : Node.settledAll h.cells.endpoint h'.tree = Node.settledAll h.cells.endpoint h.tree

theorem Same.refl (h : Host ℓ μ) : Same h h := ⟨rfl, rfl⟩

theorem Same.trans {h'' : Host ℓ μ} (hfirst : Same h h') (hnext : Same h' h'') : Same h h'' := by
  refine ⟨hnext.endpoint.trans hfirst.endpoint, ?_⟩
  have hsettled := hnext.settled
  rw [hfirst.endpoint] at hsettled
  exact hsettled.trans hfirst.settled

/-- A host that keeps its tree and its endpoints is the same. -/
theorem Same.of_cells {cells : Cells} (hcells : cells.endpoint = h.cells.endpoint) :
    Same h { h with cells } := ⟨hcells, rfl⟩

/-! ## One call -/

theorem same_resolve (read : Reading ℓ μ) (h : Host ℓ μ) : Same h (h.resolve read).2 := by
  obtain ⟨_, _, hwalked⟩ := exists_walked read h
  exact ⟨hwalked.endpoint, hwalked.settledAll⟩

theorem same_activate (h : Host ℓ μ) (address : String) : Same h (h.activate address).2 := by
  refine Same.of_cells ?_
  show (Cells.activate address h.cells).2.endpoint = h.cells.endpoint
  rw [Cells.activate_eq]
  rfl

/-- **No call** does more to a tree than to settle slots. -/
theorem same_call (h : Host PathPattern PathPattern) (c : Call) : Same h (h.call c).2 := by
  cases c with
  | resolve => exact same_resolve Router.reading h
  | activate address => exact same_activate h address
  | dispatch fresh r => exact Same.of_cells (dispatch_endpoint h.tree fresh r h.cells)

theorem Same.resolve (hsame : Same h h') (read : Reading ℓ μ) :
    (h'.resolve read).1 = (h.resolve read).1 := by
  -- both are what resolution finds in the settled tree
  have hleft := nodes_settledAll read "/" h.tree { cells := h.cells } { cells := h.cells } rfl rfl
  have hright := nodes_settledAll read "/" h'.tree { cells := h'.cells } { cells := h.cells } rfl
    hsame.endpoint.symm
  simp only [hsame.endpoint, hsame.settled] at hright
  rw [Host.resolve, Host.resolve, ← hleft.1, ← hleft.2, ← hright.1, ← hright.2]

theorem Same.activate (hsame : Same h h') (address : String) :
    (h'.activate address).1 = (h.activate address).1 := by
  show (Cells.activate address h'.cells).1 = (Cells.activate address h.cells).1
  rw [Cells.activate_eq, Cells.activate_eq, hsame.endpoint]

theorem Same.dispatch {h h' : Host PathPattern PathPattern} (hsame : Same h h') (fresh : RequestId)
    (r : Request) : (h'.dispatch fresh r).1 = (h.dispatch fresh r).1 := by
  have hleft := dispatch_settledAll h.tree fresh r h.cells h.cells
  have hright := dispatch_settledAll h'.tree fresh r h'.cells h.cells
  rw [hsame.endpoint, hsame.settled] at hright
  exact hright.symm.trans hleft

/-- **The same hosts** answer the same. -/
theorem Same.call {h h' : Host PathPattern PathPattern} (hsame : Same h h') (c : Call) :
    (h'.call c).1 = (h.call c).1 := by
  cases c with
  | resolve => exact congrArg Answer.routes (hsame.resolve Router.reading)
  | activate address => exact congrArg Answer.activation (hsame.activate address)
  | dispatch fresh r => exact congrArg Answer.response (hsame.dispatch fresh r)

/-! ## Calls in turn -/

/-- **Calls in turn** are answered as each of them would be by the host as it was. -/
theorem run_answers {h h' : Host PathPattern PathPattern} (hsame : Same h h') (calls : List Call) :
    (h'.run calls).1 = calls.map fun c => (h.call c).1 := by
  induction calls generalizing h' with
  | nil => rfl
  | cons c rest ih =>
      show (h'.call c).1 :: ((h'.call c).2.run rest).1 = _
      rw [hsame.call c, ih (hsame.trans (same_call h' c)), List.map_cons]

/-! ## Resolving again -/

/-- When resolution has come to an end, no slot is left that is merely declared. -/
theorem isResolved_resolve {routes : RouteMap Metadata} (hok : (h.resolve read).1 = .ok routes) :
    (h.resolve read).2.isResolved = true := by
  obtain ⟨_, _, hwalked⟩ := exists_walked read h
  show Node.areResolved (nodes read "/" h.tree { cells := h.cells }).result = true
  rw [hwalked.result (error?_of_resolve_ok hok)]
  exact Node.areResolved_settledAll

/-- **Resolving again** finds the same routes and changes nothing. -/
theorem resolve_resolve {routes : RouteMap Metadata} (hok : (h.resolve read).1 = .ok routes) :
    (h.resolve read).2.resolve read = h.resolve read := by
  have hsame := same_resolve read h
  have htree : (h.resolve read).2.tree = Node.settledAll h.cells.endpoint h.tree := by
    obtain ⟨_, _, hwalked⟩ := exists_walked read h
    exact hwalked.result (error?_of_resolve_ok hok)
  have hresult := hsame.resolve read
  obtain ⟨reached, left, hwalked⟩ := exists_walked read (h.resolve read).2
  -- all slots are settled by now, so there is nothing to settle and no cell to fill
  have hsettled := hwalked.result (error?_of_resolve_ok (hresult.trans hok))
  rw [hsame.endpoint, hsame.settled, ← htree] at hsettled
  have haddresses : reached.flatMap Stop.addresses = [] := by
    rw [List.flatMap_eq_nil_iff]
    intro stop hstop
    have hmem : stop ∈ Node.tour [] (h.resolve read).2.tree :=
      hwalked.before ▸ List.mem_append_left left hstop
    rw [htree, Node.tour_settledAll] at hmem
    obtain ⟨before, _, rfl⟩ := List.mem_map.mp hmem
    exact Stop.addresses_settled h.cells.endpoint before
  have hcells := hwalked.cells
  rw [haddresses] at hcells
  have hsecond : ((h.resolve read).2.resolve read).2 = (h.resolve read).2 := by
    show Host.mk _ _ = Host.mk (h.resolve read).2.tree (h.resolve read).2.cells
    rw [hsettled, hcells]
    rfl
  exact Prod.ext hresult hsecond

end Host

end RouteContract
