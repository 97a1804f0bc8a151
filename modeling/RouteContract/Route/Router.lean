import RouteContract.Route.Pattern
import RouteContract.Route.Resolve

/-!
# Router -- registering paths and dispatching requests

A router tries its layers in registration order. A leaf answers if its path matches and it has a
handler for the method; a mount hands the rest of the path on. A layer that matches without
answering is left again, and nothing that it captured stays behind.
-/

namespace RouteContract

/-- A router whose paths are parsed patterns. -/
structure Router where
  /-- Layers in registration order. -/
  layers : List (RouteNode PathPattern PathPattern) := []

namespace Router

/-! ## Registering -/

/-- Parses a path; a bad parameter name is an error about the path itself. -/
def pattern (path : String) : Except ResolutionError PathPattern :=
  (PathPattern.parse path).mapError fun cause => { pattern := path, cause }

/-- Adds a registration to the first leaf with exactly the given path. -/
def appendTo (path : String) (r : Registration) :
    List (RouteNode PathPattern PathPattern) → Option (List (RouteNode PathPattern PathPattern))
  | [] => none
  | .leaf p rs :: rest =>
    if p.path = path then some (.leaf p (rs ++ [r]) :: rest)
    else (appendTo path r rest).map (.leaf p rs :: ·)
  | .mount p children :: rest => (appendTo path r rest).map (.mount p children :: ·)

/-- Registers a handler: with the others of the same path, or as a new layer at the end. -/
def register (router : Router) (path : String) (r : Registration) :
    Except ResolutionError Router :=
  match appendTo path r router.layers with
  | some layers => .ok ⟨layers⟩
  | none => (pattern path).map fun p => ⟨router.layers ++ [.leaf p [r]]⟩

/-- Registers an endpoint. -/
def route (router : Router) (method : Method) (path : String) (e : Endpoint) :
    Except ResolutionError Router :=
  router.register path ⟨method, .declared e⟩

/-- Registers a handler of the host. -/
def foreign (router : Router) (method : Method) (path : String) (h : Handler) :
    Except ResolutionError Router :=
  router.register path ⟨method, .foreign h⟩

/-- Mounts a router under a path. -/
def mount (router : Router) (path : String) (inner : Router) : Except ResolutionError Router :=
  (pattern path).map fun p => ⟨router.layers ++ [.mount p inner.layers]⟩

/-- How the sites of a router are read. -/
def reading : Resolution.Reading PathPattern PathPattern :=
  ⟨PathPattern.path, fun p => ⟨p.source, p.names⟩⟩

/-! ## Dispatching -/

mutual

/-- The slot for a method and a path below one layer, with the parameters captured so far and on
the way. -/
def findInLayer (layer : RouteNode PathPattern PathPattern) (method : Method) (path : String)
    (params : Entries Json) : Option (Slot × Entries Json) :=
  match layer with
  | .leaf p rs =>
    match p.leaf? path with
    | none => none
    | some captures =>
      (rs.find? fun r => r.method == method).map fun r =>
        (r.slot, PathPattern.bindCaptures params captures)
  | .mount p children =>
    match p.mount? path with
    | none => none
    | some (captures, rest) =>
      find children method rest (PathPattern.bindCaptures params captures)
termination_by structural layer

/-- The first slot for a method and a path, in depth-first order. -/
def find (layers : List (RouteNode PathPattern PathPattern)) (method : Method) (path : String)
    (params : Entries Json) : Option (Slot × Entries Json) :=
  match layers with
  | [] => none
  | layer :: rest =>
    match findInLayer layer method path params with
    | some found => some found
    | none => find rest method path params
termination_by structural layers

end

/-- The fault for a request that no layer answers. -/
def noRoute (r : Request) : Fault := .notFound ("No route for " ++ r.method.upper ++ " " ++ r.path)

/-- Answers a request; its path parameters are those of the route. -/
def dispatch (layers : List (RouteNode PathPattern PathPattern)) (fresh : RequestId)
    (r : Request) : Option Response :=
  match find layers r.method r.path [] with
  | some (slot, params) => slot.handler fresh { r with params }
  | none => some (noRoute r).toResponse

/-- The router at work, nothing activated yet. -/
def site (router : Router) : Site PathPattern PathPattern := ⟨router.layers, []⟩

end Router

/-- Answers a request at a site; an endpoint that runs is activated by it. -/
def Site.dispatch (s : Site PathPattern PathPattern) (fresh : RequestId) (r : Request) :
    Option Response × Site PathPattern PathPattern :=
  (Router.dispatch s.tree fresh r,
   match Router.find s.tree r.method r.path [] with
   | some (.declared e, _) => s.activate e
   | _ => s)

end RouteContract
