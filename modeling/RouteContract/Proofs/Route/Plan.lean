import RouteContract.Proofs.Route.Resolution
import RouteContract.Route.Router

/-!
# Plan -- how routers are built

A plan says by which calls a router is built. Whatever they are, every path in the router is the
path that its pattern was read from (`Plan.written`), which is all that matching and resolution rely
on, and its typed registrations are those of the plan, under the paths given there
(`Plan.mem_keys`).
-/

namespace RouteContract

/-! ## Layers -/

/-- The keys of typed registrations: the paths under which they can be reached, the outermost mount
first, and the method. -/
def keysAt (paths : List String) (registrations : List Registration) : List (List String × Method) :=
  registrations.filterMap fun r => r.slot.endpoint?.map fun _ => (paths, r.method)

theorem keysAt_append (paths : List String) (rs others : List Registration) :
    keysAt paths (rs ++ others) = keysAt paths rs ++ keysAt paths others :=
  List.filterMap_append

theorem keysAt_settled (paths : List String) (rs : List Registration) :
    keysAt paths (rs.map Registration.settled) = keysAt paths rs := by
  rw [keysAt, List.filterMap_map, keysAt]
  congr 1
  funext r
  obtain ⟨method, slot⟩ := r
  cases slot <;> rfl

/-- The paths under which a leaf can be reached, as they are written. -/
def LeafSite.paths (leaf : LeafSite PathPattern PathPattern) : List String :=
  leaf.around.map PathPattern.path ++ [leaf.path.path]

namespace Router

/-- The keys of the typed registrations in layers, in depth-first order. -/
def keys (around : List PathPattern) (layers : List (RouteNode PathPattern PathPattern)) :
    List (List String × Method) :=
  (RouteNode.leaves around layers).flatMap fun leaf => keysAt leaf.paths leaf.registrations

/-- Layers all of whose patterns are what their paths are read as. -/
inductive Written : List (RouteNode PathPattern PathPattern) → Prop where
  | nil : Written []
  | leaf {p registrations rest} :
      p.Written → Written rest → Written (.leaf p registrations :: rest)
  | mount {p children rest} :
      p.Written → Written children → Written rest → Written (.mount p children :: rest)

variable {around : List PathPattern} {p : PathPattern} {rs : List Registration}
  {layers children rest others : List (RouteNode PathPattern PathPattern)}

theorem keys_nil : keys around [] = [] := rfl

theorem keys_leaf : keys around (.leaf p rs :: rest) =
    keysAt (around.map PathPattern.path ++ [p.path]) rs ++ keys around rest := by
  rw [keys, RouteNode.leaves_leaf, List.flatMap_cons]
  rfl

theorem keys_mount : keys around (.mount p children :: rest) =
    keys (around ++ [p]) children ++ keys around rest := by
  rw [keys, RouteNode.leaves_mount, List.flatMap_append]
  rfl

theorem keys_append : keys around (layers ++ others) = keys around layers ++ keys around others := by
  induction layers using RouteNode.forest_induct generalizing around with
  | nil => rfl
  | leaf p rs rest ih => rw [List.cons_append, keys_leaf, keys_leaf, ih, List.append_assoc]
  | mount p children rest _ ih => rw [List.cons_append, keys_mount, keys_mount, ih, List.append_assoc]

/-- What is mounted keeps its keys, behind the paths of the mounts. -/
theorem keys_eq_map (around : List PathPattern) (layers : List (RouteNode PathPattern PathPattern)) :
    keys around layers =
      (keys [] layers).map fun key => (around.map PathPattern.path ++ key.1, key.2) := by
  have hkeysAt : ∀ paths own rs, keysAt (paths ++ own) rs =
      (keysAt own rs).map fun key => (paths ++ key.1, key.2) := by
    intro paths own rs
    rw [keysAt, keysAt, List.map_filterMap]
    simp only [Option.map_map]
    rfl
  induction layers using RouteNode.forest_induct generalizing around with
  | nil => rfl
  | leaf p rs rest ih =>
      rw [keys_leaf, keys_leaf, List.map_append, ← ih, hkeysAt]
      rfl
  | mount p children rest ihchildren ihrest =>
      rw [keys_mount, keys_mount, List.map_append, ← ihrest, ihchildren, ihchildren ([] ++ [p]),
        List.map_map]
      simp [Function.comp_def]

/-- Resolution changes no keys. -/
theorem keys_nodes (mountedAt : String) (layers : List (RouteNode PathPattern PathPattern))
    (p : Resolution.Progress) :
    keys around (Resolution.nodes reading mountedAt layers p).result = keys around layers := by
  have hsettled : ∀ layers, keys around layers =
      ((RouteNode.leaves around layers).map LeafSite.settled).flatMap fun leaf =>
        keysAt leaf.paths leaf.registrations := by
    intro layers
    rw [keys, List.flatMap_map]
    congr 1
    funext leaf
    exact (keysAt_settled leaf.paths leaf.registrations).symm
  rw [hsettled, hsettled, Resolution.leaves_nodes]

/-! ## Patterns -/

theorem Written.append (h : Written layers) (hothers : Written others) :
    Written (layers ++ others) := by
  induction h with
  | nil => exact hothers
  | leaf hp _ ih => exact .leaf hp ih
  | mount hp hchildren _ _ ih => exact .mount hp hchildren ih

/-- The leaves of written layers, and the mounts around them, are written. -/
theorem Written.of_mem_leaves (h : Written layers) (haround : ∀ m ∈ around, m.Written) :
    ∀ leaf ∈ RouteNode.leaves around layers, (∀ m ∈ leaf.around, m.Written) ∧ leaf.path.Written := by
  induction h generalizing around with
  | nil => exact nofun
  | leaf hp _ ih =>
      rw [RouteNode.leaves_leaf]
      exact List.forall_mem_cons.mpr ⟨⟨haround, hp⟩, ih haround⟩
  | @mount p children rest hp _ _ ihchildren ihrest =>
      have hall : ∀ m ∈ around ++ [p], m.Written :=
        List.forall_mem_append.mpr ⟨haround, List.forall_mem_singleton.mpr hp⟩
      rw [RouteNode.leaves_mount]
      exact List.forall_mem_append.mpr ⟨ihchildren hall, ihrest haround⟩

theorem Written.of_mem_mounts (h : Written layers) :
    ∀ m ∈ RouteNode.mounts around layers, m.site.Written := by
  induction h generalizing around with
  | nil => exact nofun
  | leaf _ _ ih =>
      rw [RouteNode.mounts_leaf]
      exact ih
  | mount hp _ _ ihchildren ihrest =>
      rw [RouteNode.mounts_mount]
      exact List.forall_mem_cons.mpr ⟨hp, List.forall_mem_append.mpr ⟨ihchildren, ihrest⟩⟩

theorem Written.nodes (h : Written layers) (mountedAt : String) (p : Resolution.Progress) :
    Written (Resolution.nodes reading mountedAt layers p).result := by
  induction h generalizing mountedAt p with
  | nil => exact .nil
  | leaf hp _ ih => exact .leaf hp (ih _ _)
  | @mount site children rest hp hchildren hrest ihchildren ihrest =>
      rcases Resolution.nodes_mount_cases reading mountedAt site children rest p with
        ⟨cause, _, hwalk⟩ | ⟨fragment, step, _, rfl, ⟨error, _, hwalk⟩ | ⟨_, hwalk⟩⟩
      · rw [hwalk]
        exact .mount hp hchildren hrest
      · rw [hwalk]
        exact .mount hp (ihchildren _ _) hrest
      · rw [hwalk]
        exact .mount hp (ihchildren _ _) (ihrest _ _)

/-! ## Calls -/

theorem pattern_eq_ok {path : String} {p : PathPattern} (h : pattern path = .ok p) :
    p.path = path ∧ p.Written := by
  have hparse : PathPattern.parse path = .ok p := by
    unfold pattern at h
    cases hparse : PathPattern.parse path with
    | error e =>
        rw [hparse] at h
        cases h
    | ok q =>
        rw [hparse] at h
        rw [Except.ok.inj h]
  exact ⟨PathPattern.path_of_parse hparse, PathPattern.written_of_parse hparse⟩

theorem map_pattern_eq_ok {path : String} {f : PathPattern → Router} {bigger : Router}
    (h : (pattern path).map f = .ok bigger) : ∃ p, p.path = path ∧ p.Written ∧ bigger = f p := by
  obtain ⟨p, hpattern, rfl⟩ := exists_of_map h
  obtain ⟨hpath, hwritten⟩ := pattern_eq_ok hpattern
  exact ⟨p, hpath, hwritten, rfl⟩

/-- What registering a handler does: it joins the others at its path, or stands in a new layer. -/
theorem register_cases {router bigger : Router} {path : String} {r : Registration}
    (h : router.register path r = .ok bigger) :
    appendTo path r router.layers = some bigger.layers ∨
      ∃ p, p.path = path ∧ p.Written ∧ bigger = ⟨router.layers ++ [.leaf p [r]]⟩ := by
  unfold Router.register at h
  split at h
  · next layers happend =>
      cases h
      exact .inl happend
  · exact .inr (map_pattern_eq_ok h)

theorem Written.appendTo {path : String} {r : Registration}
    {bigger : List (RouteNode PathPattern PathPattern)} (h : Written layers)
    (happend : appendTo path r layers = some bigger) : Written bigger := by
  induction h generalizing bigger with
  | nil => cases happend
  | @leaf p rs rest hp hrest ih =>
      rw [Router.appendTo] at happend
      split at happend
      · cases happend
        exact .leaf hp hrest
      · obtain ⟨others, hothers, rfl⟩ := Option.map_eq_some_iff.mp happend
        exact .leaf hp (ih hothers)
  | mount hp hchildren _ _ ih =>
      obtain ⟨others, hothers, rfl⟩ := Option.map_eq_some_iff.mp happend
      exact .mount hp hchildren (ih hothers)

theorem Written.register {router bigger : Router} {path : String} {r : Registration}
    (h : Written router.layers) (hregister : router.register path r = .ok bigger) :
    Written bigger.layers := by
  rcases register_cases hregister with happend | ⟨p, _, hp, rfl⟩
  · exact h.appendTo happend
  · exact h.append (.leaf hp .nil)

theorem mem_keys_appendTo {path : String} {r : Registration}
    {bigger : List (RouteNode PathPattern PathPattern)} (h : appendTo path r layers = some bigger)
    {key : List String × Method} :
    key ∈ keys [] bigger ↔ key ∈ keys [] layers ∨ key ∈ keysAt [path] [r] := by
  induction layers using RouteNode.forest_induct generalizing bigger with
  | nil => cases h
  | leaf p rs rest ih =>
      rw [appendTo] at h
      split at h
      · next hpath =>
          cases h
          -- The registration comes behind the others of its leaf, before the later layers.
          rw [keys_leaf, keys_leaf, keysAt_append, ← hpath]
          simp only [List.mem_append, List.map_nil, List.nil_append]
          tauto
      · obtain ⟨others, hothers, rfl⟩ := Option.map_eq_some_iff.mp h
        rw [keys_leaf, keys_leaf, List.mem_append, List.mem_append, ih hothers, or_assoc]
  | mount p children rest _ ih =>
      obtain ⟨others, hothers, rfl⟩ := Option.map_eq_some_iff.mp h
      rw [keys_mount, keys_mount, List.mem_append, List.mem_append, ih hothers, or_assoc]

theorem mem_keys_register {router bigger : Router} {path : String} {r : Registration}
    (h : router.register path r = .ok bigger) {key : List String × Method} :
    key ∈ keys [] bigger.layers ↔ key ∈ keys [] router.layers ∨ key ∈ keysAt [path] [r] := by
  rcases register_cases h with happend | ⟨p, rfl, _, rfl⟩
  · exact mem_keys_appendTo happend
  · rw [keys_append, List.mem_append, keys_leaf, List.mem_append]
    simp [keys_nil]

end Router

/-! ## Plans -/

/-- By which calls a router is built. -/
inductive Plan where
  /-- None. -/
  | empty
  /-- Registering an endpoint, last. -/
  | route (base : Plan) (method : Method) (path : String) (e : Endpoint)
  /-- Registering a handler of the host, last. -/
  | foreign (base : Plan) (method : Method) (path : String) (h : Handler)
  /-- Mounting another router, last. -/
  | mount (base : Plan) (path : String) (inner : Plan)
  /-- Resolving the routes, last; some endpoints may have been activated before. -/
  | resolved (base : Plan) (activated : List String)

namespace Plan

/-- The router that is built. -/
def build : Plan → Except ResolutionError Router
  | empty => .ok {}
  | route base method path e => do (← base.build).route method path e
  | foreign base method path h => do (← base.build).foreign method path h
  | mount base path inner => do (← base.build).mount path (← inner.build)
  | resolved base activated => do
    let site := (Site.resolve Router.reading ⟨(← base.build).layers, activated⟩).2
    return ⟨site.tree⟩

/-- The endpoints that are registered: the paths under which each can be reached, as they are given,
the outermost mount first, and its method. -/
def keys : Plan → List (List String × Method)
  | empty => []
  | route base method path _ => base.keys ++ [([path], method)]
  | foreign base _ _ _ => base.keys
  | mount base path inner => base.keys ++ inner.keys.map fun key => (path :: key.1, key.2)
  | resolved base _ => base.keys

variable {plan : Plan} {router : Router}

/-- **The patterns of a router** are what its paths are read as. -/
theorem written (h : plan.build = .ok router) : Router.Written router.layers := by
  induction plan generalizing router with
  | empty =>
      cases h
      exact .nil
  | route base method path e ih =>
      obtain ⟨_, hbase, hroute⟩ := exists_of_bind h
      exact (ih hbase).register hroute
  | foreign base method path handler ih =>
      obtain ⟨_, hbase, hforeign⟩ := exists_of_bind h
      exact (ih hbase).register hforeign
  | mount base path inner ih ihinner =>
      obtain ⟨_, hbase, h⟩ := exists_of_bind h
      obtain ⟨_, hinner, hmount⟩ := exists_of_bind h
      obtain ⟨p, _, hp, rfl⟩ := Router.map_pattern_eq_ok hmount
      exact (ih hbase).append (.mount hp (ihinner hinner) .nil)
  | resolved base activated ih =>
      obtain ⟨_, hbase, h⟩ := exists_of_bind h
      cases h
      exact (ih hbase).nodes "/" _

/-- **The typed registrations of a router** are those that were made, under the paths given. -/
theorem mem_keys (h : plan.build = .ok router) {key : List String × Method} :
    key ∈ Router.keys [] router.layers ↔ key ∈ plan.keys := by
  induction plan generalizing router key with
  | empty =>
      cases h
      exact Iff.rfl
  | route base method path e ih =>
      obtain ⟨_, hbase, hroute⟩ := exists_of_bind h
      rw [Router.mem_keys_register hroute, ih hbase, keys, List.mem_append]
      rfl
  | foreign base method path handler ih =>
      obtain ⟨_, hbase, hforeign⟩ := exists_of_bind h
      rw [Router.mem_keys_register hforeign, ih hbase, keys]
      exact or_iff_left List.not_mem_nil
  | mount base path inner ih ihinner =>
      obtain ⟨_, hbase, h⟩ := exists_of_bind h
      obtain ⟨_, hinner, hmount⟩ := exists_of_bind h
      obtain ⟨p, rfl, _, rfl⟩ := Router.map_pattern_eq_ok hmount
      rw [Router.keys_append, List.mem_append, ih hbase, keys, List.mem_append, Router.keys_mount,
        Router.keys_eq_map, List.mem_append]
      simp [ihinner hinner, Router.keys_nil]
  | resolved base activated ih =>
      obtain ⟨_, hbase, h⟩ := exists_of_bind h
      cases h
      rw [Site.resolve, Router.keys_nodes, ih hbase, keys]

end Plan

end RouteContract
