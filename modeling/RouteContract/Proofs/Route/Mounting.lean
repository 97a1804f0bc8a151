import RouteContract.Proofs.Endpoint.Contract
import RouteContract.Proofs.Entries
import RouteContract.Proofs.Route.Plan

/-!
# Mounting -- a nested router answers like a flat one

A router hands what a mount leaves of a path to the router that is mounted there. This comes to the
same as matching every leaf at once, under the one path that is joined from the paths of its mounts
and its own: for a single leaf this is `PathPattern.leaf?_below`, for the search through all layers
`Router.find_eq`, and for the answer to a request `Router.dispatch_flat`.
-/

namespace RouteContract

namespace PathPattern

/-! ## Mounts in turn -/

/-- What mounts in turn capture of a path, and what they leave of it. -/
def descend : List PathPattern → String → Option (List (String × String) × String)
  | [], path => some ([], path)
  | m :: others, path =>
    (m.mount? path).bind fun r => (descend others r.2).map fun q => (r.1 ++ q.1, q.2)

theorem descend_concat (mounts : List PathPattern) (last : PathPattern) (path : String) :
    descend (mounts ++ [last]) path =
      (descend mounts path).bind fun q => (last.mount? q.2).map fun r => (q.1 ++ r.1, r.2) := by
  induction mounts generalizing path with
  | nil =>
      rw [List.nil_append, descend, descend, Option.bind_some]
      cases last.mount? path with
      | none => rfl
      | some r => simp [descend]
  | cons m others ih =>
      rw [List.cons_append, descend, descend]
      cases m.mount? path with
      | none => rfl
      | some r =>
          simp only [Option.bind_some, ih]
          cases descend others r.2 with
          | none => rfl
          | some q => simp [Function.comp_def]

/-- A mount leaves no line break behind. -/
theorem not_mem_of_mount? {m : PathPattern} {path : String} {r : List (String × String) × String}
    (h : m.mount? path = some r) : '\n' ∉ r.2.toList := by
  obtain ⟨_, tail, _, _, hline, _, hrest, _⟩ := mount?_eq_some_iff.mp h
  rw [hrest]
  split
  · decide
  · rwa [String.toList_ofList]

/-- **A leaf below mounts** matches what the mounts leave of the path, and captures after them. -/
theorem leaf?_below {mounts : List PathPattern} {p : PathPattern} {path : String}
    (hmounts : ∀ m ∈ mounts, m.Written) (hp : p.Written) (hline : '\n' ∉ path.toList) :
    (below mounts p).leaf? path =
      (descend mounts path).bind fun q => (p.leaf? q.2).map fun found => q.1 ++ found := by
  induction mounts generalizing path with
  | nil =>
      rw [descend, Option.bind_some, leaf?_eq, leaf?_eq]
      simp [below]
  | cons m others ih =>
      obtain ⟨_, hothers⟩ := List.forall_mem_cons.mp hmounts
      have hsegments : (below (m :: others) p).segments =
          m.segments ++ (below others p).segments := by
        simp [below]
      have htexts : ∀ s ∈ (below others p).segments, s.text ≠ "" := fun s hs =>
        ((hp.below hothers).isSegment hs).1
      rw [leaf?_append hsegments htexts hline, descend]
      cases hmount : m.mount? path with
      | none => rfl
      | some r =>
          rw [Option.bind_some, Option.bind_some, ih hothers (not_mem_of_mount? hmount)]
          cases descend others r.2 with
          | none => rfl
          | some q =>
              simp [Function.comp_def]

theorem bindCaptures_append (params : Entries Json) (found others : List (String × String)) :
    bindCaptures params (found ++ others) = bindCaptures (bindCaptures params found) others :=
  List.foldl_append

end PathPattern

namespace Router

/-! ## The search -/

/-- What a leaf has for a method and a path, with the parameters captured so far and on the way. -/
def found? (method : Method) (path : String) (params : Entries Json)
    (leaf : LeafSite PathPattern PathPattern) : Option (Slot × Entries Json) :=
  ((PathPattern.below leaf.around leaf.path).leaf? path).bind fun found =>
    (leaf.registrations.find? fun r => r.method == method).map fun r =>
      (r.slot, PathPattern.bindCaptures params found)

theorem find_cons (layer : RouteNode PathPattern PathPattern)
    (rest : List (RouteNode PathPattern PathPattern)) (method : Method) (path : String)
    (params : Entries Json) :
    find (layer :: rest) method path params =
      (findInLayer layer method path params).or (find rest method path params) := by
  rw [find]
  cases findInLayer layer method path params <;> rfl

/-- The search below mounts finds what the first leaf has that has something. -/
theorem findSome?_leaves {layers : List (RouteNode PathPattern PathPattern)} (h : Written layers)
    {mounts : List PathPattern} (hmounts : ∀ m ∈ mounts, m.Written) {method : Method}
    {path : String} (hline : '\n' ∉ path.toList) (params : Entries Json) :
    (RouteNode.leaves mounts layers).findSome? (found? method path params) =
      (PathPattern.descend mounts path).bind fun q =>
        find layers method q.2 (PathPattern.bindCaptures params q.1) := by
  -- The layers are searched with what the mounts around them leave of the path, so the induction is
  -- for all mounts around; what is captured on the way is bound first on both sides.
  induction h generalizing mounts with
  | nil => cases PathPattern.descend mounts path <;> rfl
  | @leaf p rs rest hp _ ih =>
      have hleaf : found? method path params ⟨mounts, p, rs⟩ =
          (PathPattern.descend mounts path).bind fun q =>
            findInLayer (.leaf p rs) method q.2 (PathPattern.bindCaptures params q.1) := by
        rw [found?, PathPattern.leaf?_below hmounts hp hline]
        cases PathPattern.descend mounts path with
        | none => rfl
        | some q =>
            simp only [Option.bind_some, findInLayer]
            cases p.leaf? q.2 with
            | none => rfl
            | some found => simp [PathPattern.bindCaptures_append]
      rw [RouteNode.leaves_leaf, List.findSome?_cons, ih hmounts, hleaf]
      cases PathPattern.descend mounts path with
      | none => rfl
      | some q =>
          simp only [Option.bind_some, find_cons]
          cases findInLayer (.leaf p rs) method q.2 (PathPattern.bindCaptures params q.1) <;> rfl
  | @mount p children rest hp _ _ ihchildren ihrest =>
      have hall : ∀ m ∈ mounts ++ [p], m.Written :=
        List.forall_mem_append.mpr ⟨hmounts, List.forall_mem_singleton.mpr hp⟩
      rw [RouteNode.leaves_mount, List.findSome?_append, ihrest hmounts, ihchildren hall,
        PathPattern.descend_concat]
      cases PathPattern.descend mounts path with
      | none => rfl
      | some q =>
          simp only [Option.bind_some, find_cons, findInLayer]
          cases p.mount? q.2 with
          | none => rfl
          | some r => simp [PathPattern.bindCaptures_append]

/-- **The search through nested layers** is a search through the leaves alone. -/
theorem find_eq {layers : List (RouteNode PathPattern PathPattern)} (h : Written layers)
    (method : Method) {path : String} (hline : '\n' ∉ path.toList) (params : Entries Json) :
    find layers method path params =
      (RouteNode.leaves [] layers).findSome? (found? method path params) := by
  rw [findSome?_leaves h (List.forall_mem_nil _) hline]
  rfl

end Router

/-! ## Flat layers -/

/-- A leaf layer by itself: handlers registered at one path. -/
structure FlatLayer where
  /-- The path. -/
  path : String
  /-- Handlers registered there. -/
  registrations : List Registration

/-- What a flat layer answers a request with, and what it captures: if the path matches, the first
registration for the method. -/
def FlatLayer.answer? (layer : FlatLayer) (method : Method) (path : String) :
    Option (Registration × List (String × String)) :=
  match PathPattern.parse layer.path with
  | .error _ => none
  | .ok p => (p.leaf? path).bind fun found =>
      (layer.registrations.find? fun r => r.method == method).map fun r => (r, found)

namespace Router

/-- The leaf layers of a router in depth-first order, each under the one path that is joined from
the paths of its mounts and its own. -/
def flat (router : Router) : List FlatLayer :=
  (RouteNode.leaves [] router.layers).map fun leaf =>
    ⟨Path.joinAll (leaf.around.map PathPattern.path ++ [leaf.path.path]), leaf.registrations⟩

/-- Parameters that hold exactly what was captured: a repeated name stays where it first came, with
the value that came last. -/
def Holds (params : Entries Json) (found : List (String × String)) : Prop :=
  params.keys = (found.map Prod.fst).eraseDups ∧
    ∀ name, params.get? name = (Entries.get? found.reverse name).map Json.str

theorem holds_bindCaptures (found : List (String × String)) :
    Holds (PathPattern.bindCaptures [] found) found := by
  have hbind : PathPattern.bindCaptures [] found =
      Entries.ofList (Entries.mapValues Json.str found) := by
    rw [Entries.ofList, Entries.mapValues, List.foldl_map]
    rfl
  rw [hbind]
  constructor
  · rw [Entries.keys_ofList, ← Entries.keys, Entries.keys_mapValues, Entries.keys]
  · intro name
    rw [Entries.get?_ofList, Entries.mapValues, ← List.map_reverse]
    exact Entries.get?_mapValues Json.str found.reverse name

/-- A search with another test finds the same if the test says the same of every candidate. -/
theorem findSome?_eq_map {α β γ : Type} {f : α → Option γ} {g : α → Option β} {k : β → γ}
    {candidates : List α} (h : ∀ a ∈ candidates, f a = (g a).map k) :
    candidates.findSome? f = (candidates.findSome? g).map k := by
  induction candidates with
  | nil => rfl
  | cons a rest ih =>
      obtain ⟨ha, hrest⟩ := List.forall_mem_cons.mp h
      rw [List.findSome?_cons, List.findSome?_cons, ha, ih hrest]
      cases g a <;> rfl

/-- The search through nested layers finds what the flat layers answer. -/
theorem find_eq_flat {router : Router} (h : Written router.layers) (method : Method) {path : String}
    (hline : '\n' ∉ path.toList) :
    find router.layers method path [] =
      (router.flat.findSome? fun layer => layer.answer? method path).map fun a =>
        (a.1.slot, PathPattern.bindCaptures [] a.2) := by
  rw [find_eq h method hline, flat, List.findSome?_map]
  refine findSome?_eq_map fun leaf hleaf => ?_
  obtain ⟨hmounts, hp⟩ := h.of_mem_leaves (List.forall_mem_nil _) leaf hleaf
  have hparse : PathPattern.parse (Path.joinAll (leaf.around.map PathPattern.path ++
      [leaf.path.path])) = .ok (PathPattern.below leaf.around leaf.path) := hp.below hmounts
  simp only [found?, Function.comp_apply, FlatLayer.answer?, hparse]
  cases (PathPattern.below leaf.around leaf.path).leaf? path with
  | none => rfl
  | some found =>
      simp only [Option.bind_some, Option.map_map]
      rfl

/-- **Mounting is transparent to dispatch**. The paths of the flat layers can be read; the first flat
layer that answers gives the handler, which gets exactly what this layer captures; and if none
answers there is no route. -/
theorem dispatch_flat {plan : Plan} {router : Router} (h : plan.build = .ok router)
    (fresh : RequestId) (r : Request) (hline : '\n' ∉ r.path.toList) :
    (∀ layer ∈ router.flat, ∃ p, PathPattern.parse layer.path = .ok p) ∧
      match router.flat.findSome? fun layer => layer.answer? r.method r.path with
      | some (registration, found) => ∃ params, Holds params found ∧
          find router.layers r.method r.path [] = some (registration.slot, params) ∧
          dispatch router.layers fresh r = registration.slot.handler fresh { r with params }
      | none => dispatch router.layers fresh r = (noRoute r).toResponse := by
  have hfind := find_eq_flat (Plan.written h) r.method hline
  refine ⟨fun layer hlayer => ?_, ?_⟩
  · obtain ⟨leaf, hleaf, rfl⟩ := List.mem_map.mp hlayer
    obtain ⟨hmounts, hp⟩ := (Plan.written h).of_mem_leaves (List.forall_mem_nil _) leaf hleaf
    exact ⟨_, hp.below hmounts⟩
  · cases hflat : router.flat.findSome? fun layer => layer.answer? r.method r.path with
    | none =>
        rw [hflat] at hfind
        simp only [dispatch, hfind, Option.map_none]
    | some a =>
        rw [hflat] at hfind
        refine ⟨_, holds_bindCaptures a.2, hfind, ?_⟩
        simp only [dispatch, hfind, Option.map_some]

end Router

namespace Plan

/-- A router for single lamps. -/
def lamps (method : Method) : Plan := .route .empty method "/lamps/:id" Endpoint.lamp

/-- A router that can switch the lamps of rooms, and show the lamps of anything. -/
def house : Plan := .mount (.mount .empty "/rooms/:room" (lamps .put)) "/:kind/:name" (lamps .get)

end Plan

namespace Router

/-- What the plan of the same name builds. -/
def house : Router :=
  let lamps := fun method : Method => RouteNode.leaf
    ⟨"/lamps/:id", [.literal "lamps", .param "id"]⟩ [⟨method, .declared Endpoint.lamp⟩]
  ⟨[.mount ⟨"/rooms/:room", [.literal "rooms", .param "room"]⟩ [lamps .put],
    .mount ⟨"/:kind/:name", [.param "kind", .param "name"]⟩ [lamps .get]]⟩

theorem build_house : Plan.house.build = .ok house := rfl

theorem flat_house : house.flat =
    [⟨"/rooms/:room/lamps/:id", [⟨.put, .declared Endpoint.lamp⟩]⟩,
      ⟨"/:kind/:name/lamps/:id", [⟨.get, .declared Endpoint.lamp⟩]⟩] := by
  have hput : Path.joinAll ["/rooms/:room", "/lamps/:id"] = "/rooms/:room/lamps/:id" := by decide
  have hget : Path.joinAll ["/:kind/:name", "/lamps/:id"] = "/:kind/:name/lamps/:id" := by decide
  rw [← hput, ← hget]
  rfl

/-- The first mount matches the path but has no handler for the method, and nothing of what it
captured is left. -/
theorem dispatch_flat_house :
    let r : Request := { method := .get, path := "/Rooms/7/lamps/42/" }
    Plan.house.build = .ok house ∧ '\n' ∉ r.path.toList ∧ ∀ fresh, ∃ params,
      Holds params [("kind", "Rooms"), ("name", "7"), ("id", "42")] ∧
        dispatch house.layers fresh r = Endpoint.lamp.serve fresh { r with params } := by
  intro r
  have hline : '\n' ∉ r.path.toList := by decide
  refine ⟨build_house, hline, fun fresh => ?_⟩
  have hrooms : FlatLayer.answer? ⟨"/rooms/:room/lamps/:id", [⟨.put, .declared Endpoint.lamp⟩]⟩
      .get "/Rooms/7/lamps/42/" = none := rfl
  have hothers : FlatLayer.answer? ⟨"/:kind/:name/lamps/:id", [⟨.get, .declared Endpoint.lamp⟩]⟩
      .get "/Rooms/7/lamps/42/" = some (⟨.get, .declared Endpoint.lamp⟩,
        [("kind", "Rooms"), ("name", "7"), ("id", "42")]) := rfl
  have hanswer : (house.flat.findSome? fun layer => layer.answer? r.method r.path) =
      some (⟨.get, .declared Endpoint.lamp⟩, [("kind", "Rooms"), ("name", "7"), ("id", "42")]) := by
    rw [flat_house, List.findSome?_cons, hrooms, List.findSome?_cons, hothers]
  have h := (dispatch_flat build_house fresh r hline).2
  rw [hanswer] at h
  obtain ⟨params, hparams, _, hdispatch⟩ := h
  exact ⟨params, hparams, hdispatch⟩

end Router

end RouteContract
