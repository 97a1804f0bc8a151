import RouteContract.Proofs.Route.Pattern
import RouteContract.Proofs.Route.RouteMap
import RouteContract.Proofs.Route.Tour
import RouteContract.Route.Resolve

/-!
# Resolution -- what resolving a tree comes to

A walk over a tree fails at the first mount whose pattern is refused, and otherwise collects the
typed registrations in depth-first order, each under the joined templates of the mounts around it
(`Site.resolve_contract`). What it does to the tree itself is to settle slots: after settling all of
them, the trees before and after the walk cannot be told apart (`Resolution.tour_nodes`).
-/

namespace RouteContract

/-- The slot as resolution leaves it: declared endpoints are active. -/
def Slot.settled : Slot → Slot
  | declared e => active e
  | s => s

/-- The registration with its slot settled. -/
def Registration.settled (r : Registration) : Registration := { r with slot := r.slot.settled }

/-- The leaf with its slots settled. -/
def LeafSite.settled {ℓ μ : Type} (l : LeafSite ℓ μ) : LeafSite ℓ μ :=
  { l with registrations := l.registrations.map Registration.settled }

/-- The stop with all of its slots settled. -/
def Stop.settled {ℓ μ : Type} : Stop ℓ μ → Stop ℓ μ
  | mount m => mount m
  | leaf l => leaf l.settled

namespace Resolution

variable {ℓ μ : Type} {read : Reading ℓ μ}

/-! ## Templates -/

/-- The template of a mount, or why there is none. -/
def Reading.template? (read : Reading ℓ μ) (site : μ) : Except PatternError String :=
  Template.reconstruct (read.pattern site).source (read.pattern site).names

/-- Whether a mount has no template. -/
def Reading.Refuses (read : Reading ℓ μ) (site : μ) : Prop :=
  ∃ cause, read.template? site = .error cause

theorem not_refuses_iff {site : μ} :
    ¬ read.Refuses site ↔ ∃ fragment, read.template? site = .ok fragment := by
  unfold Reading.Refuses
  cases read.template? site with
  | error cause => simp
  | ok fragment => simp

/-- The typed registrations among those at a template, with their endpoints. -/
def typed (template : String) (registrations : List Registration) : List (RouteEntry Endpoint) :=
  registrations.filterMap fun r => r.slot.endpoint?.map fun e => ⟨template, r.method, e⟩

/-- The typed registrations of a leaf, at its path below the joined templates of the mounts around
it; a leaf below a mount without a template has none. -/
def Reading.typed (read : Reading ℓ μ) (leaf : LeafSite ℓ μ) : List (RouteEntry Endpoint) :=
  match leaf.around.mapM read.template? with
  | .ok templates =>
    Resolution.typed (Path.join (Path.joinAll templates) (read.path leaf.path)) leaf.registrations
  | .error _ => []

/-- The typed registrations of a tree in depth-first order, each at its full template. -/
def Reading.routes (read : Reading ℓ μ) (tree : List (RouteNode ℓ μ)) : List (RouteEntry Endpoint) :=
  (RouteNode.leaves [] tree).flatMap read.typed

/-! ## One node -/

section Step

variable {mountedAt : String} {p : Progress} {site : μ} {children rest : List (RouteNode ℓ μ)}

theorem registrations_routes (template : String) (rs : List Registration) (p : Progress) :
    (registrations template rs p).progress.routes = p.routes.insertAll (typed template rs) := by
  induction rs generalizing p with
  | nil => rfl
  | cons r rest ih =>
      obtain ⟨method, slot⟩ := r
      cases slot with
      | foreign h => exact ih _
      | declared e => exact ih _
      | active e => exact ih _

theorem registrations_result (template : String) (rs : List Registration) (p : Progress) :
    (registrations template rs p).result.map Registration.settled =
      rs.map Registration.settled := by
  induction rs generalizing p with
  | nil => rfl
  | cons r rest ih =>
      obtain ⟨method, slot⟩ := r
      cases slot <;> exact congrArg (List.cons _) (ih _)

theorem nodes_leaf (path : ℓ) (rs : List Registration) :
    nodes read mountedAt (.leaf path rs :: rest) p =
      let step := registrations (Path.join mountedAt (read.path path)) rs p
      let others := nodes read mountedAt rest step.progress
      ⟨.leaf path step.result :: others.result, others.progress, others.error?⟩ := rfl

/-- A walk over a mount is stopped by its pattern or by an error below it, or goes on behind it. -/
theorem nodes_mount_cases (read : Reading ℓ μ) (mountedAt : String) (site : μ)
    (children rest : List (RouteNode ℓ μ)) (p : Progress) :
    (∃ cause, read.template? site = .error cause ∧
      nodes read mountedAt (.mount site children :: rest) p =
        ⟨.mount site children :: rest, p, some ⟨(read.pattern site).source, mountedAt, cause⟩⟩) ∨
    ∃ fragment step, read.template? site = .ok fragment ∧
      nodes read (Path.join mountedAt fragment) children p = step ∧
      ((∃ error, step.error? = some error ∧
          nodes read mountedAt (.mount site children :: rest) p =
            ⟨.mount site step.result :: rest, step.progress, some error⟩) ∨
        step.error? = none ∧
          nodes read mountedAt (.mount site children :: rest) p =
            let others := nodes read mountedAt rest step.progress
            ⟨.mount site step.result :: others.result, others.progress, others.error?⟩) := by
  cases htemplate : read.template? site with
  | error cause =>
      refine .inl ⟨cause, rfl, ?_⟩
      unfold Reading.template? at htemplate
      simp only [nodes, node, htemplate]
  | ok fragment =>
      refine .inr ⟨fragment, _, rfl, rfl, ?_⟩
      unfold Reading.template? at htemplate
      cases herror : (nodes read (Path.join mountedAt fragment) children p).error? with
      | some error =>
          refine .inl ⟨error, rfl, ?_⟩
          simp only [nodes, node, htemplate, herror]
      | none =>
          refine .inr ⟨rfl, ?_⟩
          simp only [nodes, node, htemplate, herror]

end Step

/-! ## A whole walk -/

section Walk

variable {mountedAt : String} {p : Progress} {around : List μ} {templates : List String}
  {tree : List (RouteNode ℓ μ)}

/-- Below a mount with a template, the mounts around have templates too. -/
theorem mapM_template?_concat {site : μ} {fragment : String}
    (haround : around.mapM read.template? = .ok templates)
    (hsite : read.template? site = .ok fragment) :
    (around ++ [site]).mapM read.template? = .ok (templates ++ [fragment]) := by
  rw [mapM_eq_ok_iff] at haround ⊢
  exact List.rel_append haround (.cons hsite .nil)

/-- A walk that ends without an error has met no mount without a template. -/
theorem accepted_of_nodes (h : (nodes read mountedAt tree p).error? = none) :
    ∀ m ∈ RouteNode.mounts around tree, ¬ read.Refuses m.site := by
  induction tree using RouteNode.forest_induct generalizing mountedAt p around with
  | nil => exact nofun
  | leaf path rs rest hrest =>
      rw [nodes_leaf] at h
      exact hrest h
  | mount site children rest hchildren hrest =>
      rcases nodes_mount_cases read mountedAt site children rest p with
        ⟨cause, _, hwalk⟩ | ⟨fragment, step, hsite, rfl, ⟨error, _, hwalk⟩ | ⟨hbelow, hwalk⟩⟩
      · rw [hwalk] at h
        cases h
      · rw [hwalk] at h
        cases h
      · rw [hwalk] at h
        rw [RouteNode.mounts_mount]
        exact List.forall_mem_cons.mpr ⟨not_refuses_iff.mpr ⟨fragment, hsite⟩,
          List.forall_mem_append.mpr ⟨hchildren hbelow, hrest h⟩⟩

/-- The first mount without a template is what stops a walk. -/
def Stopped (read : Reading ℓ μ) (mounts : List (MountSite μ)) (e : ResolutionError) : Prop :=
  ∃ before m after templates cause, mounts = before ++ m :: after ∧
    (∀ b ∈ before, ¬ read.Refuses b.site) ∧ m.around.mapM read.template? = .ok templates ∧
    read.template? m.site = .error cause ∧
    e = ⟨(read.pattern m.site).source, Path.joinAll templates, cause⟩

theorem Stopped.refuses {mounts : List (MountSite μ)} {e : ResolutionError}
    (h : Stopped read mounts e) : ∃ m ∈ mounts, read.Refuses m.site := by
  obtain ⟨before, m, after, _, cause, rfl, _, _, hcause, _⟩ := h
  exact ⟨m, List.mem_append_right before List.mem_cons_self, cause, hcause⟩

theorem Stopped.prepend {mounts : List (MountSite μ)} {e : ResolutionError}
    (h : Stopped read mounts e) {accepted : List (MountSite μ)}
    (haccepted : ∀ b ∈ accepted, ¬ read.Refuses b.site) : Stopped read (accepted ++ mounts) e := by
  obtain ⟨before, m, after, templates, cause, rfl, hbefore, hrest⟩ := h
  refine ⟨accepted ++ before, m, after, templates, cause, (List.append_assoc ..).symm, ?_, hrest⟩
  exact List.forall_mem_append.mpr ⟨haccepted, hbefore⟩

theorem Stopped.append {mounts : List (MountSite μ)} {e : ResolutionError}
    (h : Stopped read mounts e) (others : List (MountSite μ)) :
    Stopped read (mounts ++ others) e := by
  obtain ⟨before, m, after, templates, cause, rfl, hrest⟩ := h
  exact ⟨before, m, after ++ others, templates, cause, by simp, hrest⟩

/-- **The error of a walk** is that of the first mount without a template. -/
theorem stopped_of_nodes {e : ResolutionError}
    (haround : around.mapM read.template? = .ok templates)
    (h : (nodes read (Path.joinAll templates) tree p).error? = some e) :
    Stopped read (RouteNode.mounts around tree) e := by
  -- The templates around grow with the mounts around, so the walk is at their join at every node.
  induction tree using RouteNode.forest_induct generalizing p around templates with
  | nil => cases h
  | leaf path rs rest hrest =>
      rw [nodes_leaf] at h
      exact hrest haround h
  | mount site children rest hchildren hrest =>
      rw [RouteNode.mounts_mount]
      rcases nodes_mount_cases read (Path.joinAll templates) site children rest p with
        ⟨cause, hsite, hwalk⟩ | ⟨fragment, step, hsite, rfl, hgoes⟩
      · rw [hwalk] at h
        -- This mount is the first one.
        exact ⟨[], ⟨around, site⟩, _, templates, cause, rfl, nofun, haround, hsite,
          (Option.some.inj h).symm⟩
      · have hmount : ∀ b ∈ [(⟨around, site⟩ : MountSite μ)], ¬ read.Refuses b.site := by
          simpa using not_refuses_iff.mpr ⟨fragment, hsite⟩
        rw [← Path.joinAll_concat] at hgoes
        rcases hgoes with ⟨error, hbelow, hwalk⟩ | ⟨hbelow, hwalk⟩
        · rw [hwalk] at h
          cases h
          exact ((hchildren (mapM_template?_concat haround hsite) hbelow).append _).prepend hmount
        · rw [hwalk] at h
          exact ((hrest haround h).prepend (accepted_of_nodes hbelow)).prepend hmount

/-- **The routes of a walk** that ends are the typed registrations in depth-first order. -/
theorem routes_of_nodes (haround : around.mapM read.template? = .ok templates)
    (h : (nodes read (Path.joinAll templates) tree p).error? = none) :
    (nodes read (Path.joinAll templates) tree p).progress.routes =
      p.routes.insertAll ((RouteNode.leaves around tree).flatMap read.typed) := by
  induction tree using RouteNode.forest_induct generalizing p around templates with
  | nil => rfl
  | leaf path rs rest hrest =>
      rw [nodes_leaf] at h ⊢
      have htyped : read.typed ⟨around, path, rs⟩ =
          typed (Path.join (Path.joinAll templates) (read.path path)) rs := by
        rw [Reading.typed, haround]
      rw [RouteNode.leaves_leaf, List.flatMap_cons, RouteMap.insertAll_append,
        htyped, ← registrations_routes]
      exact hrest haround h
  | mount site children rest hchildren hrest =>
      rw [RouteNode.leaves_mount, List.flatMap_append, RouteMap.insertAll_append]
      rcases nodes_mount_cases read (Path.joinAll templates) site children rest p with
        ⟨cause, _, hwalk⟩ | ⟨fragment, step, hsite, rfl, hgoes⟩
      · rw [hwalk] at h
        cases h
      · rw [← Path.joinAll_concat] at hgoes
        rcases hgoes with ⟨error, _, hwalk⟩ | ⟨hbelow, hwalk⟩
        · rw [hwalk] at h
          cases h
        · rw [hwalk] at h ⊢
          rw [← hchildren (mapM_template?_concat haround hsite) hbelow]
          exact hrest haround h

/-- **The tree after a walk** differs from the tree before in settled slots only. -/
theorem tour_nodes :
    (RouteNode.tour around (nodes read mountedAt tree p).result).map Stop.settled =
      (RouteNode.tour around tree).map Stop.settled := by
  induction tree using RouteNode.forest_induct generalizing mountedAt p around with
  | nil => rfl
  | leaf path rs rest hrest =>
      rw [nodes_leaf, RouteNode.tour_leaf, RouteNode.tour_leaf, List.map_cons, List.map_cons, hrest]
      simp only [Stop.settled, LeafSite.settled, registrations_result]
  | mount site children rest hchildren hrest =>
      rcases nodes_mount_cases read mountedAt site children rest p with
        ⟨cause, _, hwalk⟩ | ⟨fragment, step, _, rfl, ⟨error, _, hwalk⟩ | ⟨_, hwalk⟩⟩
      · rw [hwalk]
      · rw [hwalk]
        simp only [RouteNode.tour_mount, List.map_cons, List.map_append, hchildren]
      · rw [hwalk]
        simp only [RouteNode.tour_mount, List.map_cons, List.map_append, hchildren, hrest]

/-- The leaves after a walk differ from the leaves before in settled slots only. -/
theorem leaves_nodes :
    (RouteNode.leaves around (nodes read mountedAt tree p).result).map LeafSite.settled =
      (RouteNode.leaves around tree).map LeafSite.settled := by
  have hleaves : ∀ stops : List (Stop ℓ μ), (stops.map Stop.settled).filterMap Stop.leaf? =
      (stops.filterMap Stop.leaf?).map LeafSite.settled := by
    intro stops
    rw [List.filterMap_map, List.map_filterMap]
    congr 1
    funext stop
    cases stop <;> rfl
  rw [RouteNode.leaves, ← hleaves, tour_nodes, hleaves, RouteNode.leaves]

end Walk

/-! ## Resolution -/

/-- What resolving a tree comes to. -/
structure Contract (read : Reading ℓ μ) (tree : List (RouteNode ℓ μ))
    (result : Except ResolutionError (RouteMap Endpoint)) : Prop where
  /-- Resolution fails exactly when some mount has no template. -/
  fails : (∃ e, result = .error e) ↔ ∃ m ∈ RouteNode.mounts [] tree, read.Refuses m.site
  /-- Then the error is that of the first such mount, found at the joined templates of the mounts
  around it. -/
  error : ∀ e, result = .error e → Stopped read (RouteNode.mounts [] tree) e
  /-- Otherwise a route leads to the endpoint of the first typed registration for it. -/
  get : ∀ routes, result = .ok routes → ∀ template method, routes.get? template method =
    ((read.routes tree).find? fun e => e.isAt template method).map RouteEntry.payload
  /-- Its metadata is that of this registration. -/
  metadata : ∀ routes, result = .ok routes → ∀ template method,
    (routes.map Endpoint.metadata).get? template method =
      ((read.routes tree).find? fun e => e.isAt template method).map fun e => e.payload.metadata
  /-- There are no other routes, and none is listed twice. -/
  entries : ∀ routes, result = .ok routes → routes.Distinct ∧ ∀ e, e ∈ routes.entries ↔
    ((read.routes tree).find? fun e' => e'.isAt e.template e.method) = some e

end Resolution

namespace Site

variable {ℓ μ : Type}

/-- Resolution is stopped by a mount, or no mount stands in its way and it collects the typed
registrations in depth-first order. -/
theorem resolve_cases (read : Resolution.Reading ℓ μ) (s : Site ℓ μ) :
    (∃ e, (s.resolve read).1 = .error e ∧
      Resolution.Stopped read (RouteNode.mounts [] s.tree) e) ∨
    (s.resolve read).1 = .ok (({} : RouteMap Endpoint).insertAll (read.routes s.tree)) ∧
      ∀ m ∈ RouteNode.mounts [] s.tree, ¬ read.Refuses m.site := by
  have htop : ([] : List μ).mapM read.template? = .ok [] := rfl
  cases herror : (Resolution.nodes read "/" s.tree { activated := s.activated }).error? with
  | some e =>
      refine .inl ⟨e, ?_, Resolution.stopped_of_nodes htop herror⟩
      simp only [resolve, herror]
  | none =>
      refine .inr ⟨?_, Resolution.accepted_of_nodes herror⟩
      have hroutes : (Resolution.nodes read "/" s.tree
          { activated := s.activated }).progress.routes = _ := Resolution.routes_of_nodes htop herror
      simp only [resolve, herror, hroutes, Resolution.Reading.routes]

/-- Resolution settles slots, and leaves registered what was registered. -/
theorem leaves_resolve (read : Resolution.Reading ℓ μ) (s : Site ℓ μ) :
    (RouteNode.leaves [] (s.resolve read).2.tree).map LeafSite.settled =
      (RouteNode.leaves [] s.tree).map LeafSite.settled :=
  Resolution.leaves_nodes

/-- **The meaning of resolution**, for every tree and however its sites are read. -/
theorem resolve_contract (read : Resolution.Reading ℓ μ) (s : Site ℓ μ) :
    Resolution.Contract read s.tree (s.resolve read).1 := by
  rcases resolve_cases read s with ⟨error, hresult, hstopped⟩ | ⟨hresult, haccepted⟩
  · rw [hresult]
    refine ⟨iff_of_true ⟨error, rfl⟩ hstopped.refuses, fun e he => ?_, fun _ h => ?_,
      fun _ h => ?_, fun _ h => ?_⟩
    · rw [← Except.error.inj he]
      exact hstopped
    · cases h
    · cases h
    · cases h
  · rw [hresult]
    refine ⟨iff_of_false ?_ ?_, fun _ h => ?_, fun routes h template method => ?_,
      fun routes h template method => ?_, fun routes h => ?_⟩
    · rintro ⟨e, he⟩
      cases he
    · rintro ⟨m, hm, hrefuses⟩
      exact haccepted m hm hrefuses
    · cases h
    · rw [← Except.ok.inj h, RouteMap.get?_insertAll]
      rfl
    · rw [← Except.ok.inj h, RouteMap.get?_map, RouteMap.get?_insertAll]
      exact Option.map_map _ _ _
    · rw [← Except.ok.inj h]
      exact ⟨RouteMap.distinct_empty.insertAll _, fun e => RouteMap.mem_insertAll⟩

end Site

end RouteContract
