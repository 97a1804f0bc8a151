import RouteContract.Route.RouteMap
import RouteContract.Route.Segments
import RouteContract.Route.Template
import RouteContract.Route.Tree

/-!
# Resolving routes

Resolution walks a tree in depth-first order and finds the full template of every endpoint, mount
templates being reconstructed from their patterns. Declared endpoints become active on the way;
foreign handlers are left alone. Of several registrations for one template and method the first one
stands. The walk stops at the first pattern that cannot be reconstructed; what it had activated by
then stays active.
-/

namespace RouteContract

/-- A pattern that is not the pattern of a path. -/
structure ResolutionError where
  /-- The pattern. -/
  pattern : String
  /-- Template of the mounts around it. -/
  mountedAt : String := "/"
  /-- What is wrong with it. -/
  cause : PatternError
deriving DecidableEq

/-- Text of a resolution error. -/
def ResolutionError.message (e : ResolutionError) : String :=
  "cannot reconstruct route template from `" ++ e.pattern ++ "` (mounted under `" ++ e.mountedAt ++
    "`): " ++ e.cause.message

namespace Resolution

/-- What a walk has collected. -/
structure Progress where
  /-- Endpoints by template and method. -/
  routes : RouteMap Endpoint := {}
  /-- Names of the endpoints activated so far. -/
  activated : List String := []

/-- A part of the tree after the walk over it, what was collected, and the error that stopped it. -/
structure Step (α : Type) where
  /-- The part with its endpoints activated. -/
  result : α
  /-- What was collected. -/
  progress : Progress
  /-- Why the walk stopped, if it did. -/
  error? : Option ResolutionError := none

/-- Activates one registration and adds its route. -/
def registration (template : String) (r : Registration) (p : Progress) : Step Registration :=
  match r.slot with
  | .foreign _ => ⟨r, p, none⟩
  | .declared e =>
    ⟨⟨r.method, .active e⟩,
      ⟨(p.routes.insert template r.method e).1, addActivated p.activated e.name⟩, none⟩
  | .active e => ⟨r, ⟨(p.routes.insert template r.method e).1, p.activated⟩, none⟩

/-- Activates registrations in order. -/
def registrations (template : String) : List Registration → Progress → Step (List Registration)
  | [], p => ⟨[], p, none⟩
  | r :: rest, p =>
    let first := registration template r p
    let others := registrations template rest first.progress
    ⟨first.result :: others.result, others.progress, none⟩

variable {ℓ μ : Type}

/-- How the sites of a tree are read: leaf paths, and patterns of mounts. -/
structure Reading (ℓ μ : Type) where
  /-- Path of a leaf. -/
  path : ℓ → String
  /-- Pattern of a mount. -/
  pattern : μ → MountPattern

mutual

/-- Walks over a node mounted under a template. -/
def node (read : Reading ℓ μ) (mountedAt : String) (n : RouteNode ℓ μ) (p : Progress) :
    Step (RouteNode ℓ μ) :=
  match n with
  | .leaf path rs =>
    let step := registrations (Path.join mountedAt (read.path path)) rs p
    ⟨.leaf path step.result, step.progress, none⟩
  | .mount site children =>
    let pattern := read.pattern site
    match Template.reconstruct pattern.source pattern.names with
    | .error cause => ⟨.mount site children, p, some ⟨pattern.source, mountedAt, cause⟩⟩
    | .ok fragment =>
      let step := nodes read (Path.join mountedAt fragment) children p
      ⟨.mount site step.result, step.progress, step.error?⟩
termination_by structural n

/-- Walks over nodes in order, up to the first error. -/
def nodes (read : Reading ℓ μ) (mountedAt : String) (ns : List (RouteNode ℓ μ)) (p : Progress) :
    Step (List (RouteNode ℓ μ)) :=
  match ns with
  | [] => ⟨[], p, none⟩
  | n :: rest =>
    let first := node read mountedAt n p
    match first.error? with
    | some error => ⟨first.result :: rest, first.progress, some error⟩
    | none =>
      let others := nodes read mountedAt rest first.progress
      ⟨first.result :: others.result, others.progress, others.error?⟩
termination_by structural ns

end

/-- How plain trees are read. -/
def plain : Reading String MountPattern := ⟨id, id⟩

end Resolution

/-- A tree together with the names of activated endpoints. -/
structure Site (ℓ μ : Type) where
  /-- The tree. -/
  tree : List (RouteNode ℓ μ)
  /-- Names of activated endpoints. -/
  activated : List String := []

namespace Site

variable {ℓ μ : Type}

/-- Resolves the routes of a tree. The tree and the set of activated endpoints change also when
resolution fails. -/
def resolve (read : Resolution.Reading ℓ μ) (s : Site ℓ μ) :
    Except ResolutionError (RouteMap Endpoint) × Site ℓ μ :=
  let step := Resolution.nodes read "/" s.tree { activated := s.activated }
  (match step.error? with
    | some error => .error error
    | none => .ok step.progress.routes,
   ⟨step.result, step.progress.activated⟩)

/-- Activates an endpoint by hand. -/
def activate (s : Site ℓ μ) (e : Endpoint) : Site ℓ μ :=
  { s with activated := addActivated s.activated e.name }

/-- Whether resolution has reached every registered endpoint. -/
def isResolved (s : Site ℓ μ) : Bool := RouteNode.areResolved s.tree

end Site

end RouteContract
