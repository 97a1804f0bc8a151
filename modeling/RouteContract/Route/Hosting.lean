import RouteContract.Route.Router

/-!
# Hosting -- routers at work, slot by slot

A host keeps a cell for every endpoint it was given, at an address that all registrations of the
endpoint share. The first activation fills the cell, and every later one hands out what is in it. A
slot that resolution has reached holds the metadata and the handler that it was handed, and no longer
says which endpoint they came from.

Resolution rewrites slots in place on its way through the tree. A request for an endpoint that
resolution has not reached activates the endpoint in its cell, and leaves the slot as it is.
-/

namespace RouteContract

namespace Hosting

open Endpoint (Activation)
open Resolution (Reading)

/-! ## Cells -/

/-- Endpoints at their addresses, each with the cell for its activation. -/
@[ext]
structure Cells where
  /-- The endpoint at an address. -/
  endpoint : String → Endpoint
  /-- What is in its cell. -/
  cell : String → Option Activation
  /-- Nothing but its own activation is ever in the cell of an endpoint. -/
  filled : ∀ address made, cell address = some made → made = (endpoint address).activate

namespace Cells

/-- The cells when that of one endpoint has been filled. -/
def fill (c : Cells) (address : String) : Cells where
  endpoint := c.endpoint
  cell := fun a => if a = address then some (c.endpoint address).activate else c.cell a
  filled := by
    intro a made h
    split at h
    · next ha => exact ha ▸ (Option.some.inj h).symm
    · exact c.filled a made h

/-- Activates an endpoint: what is in its cell, which is filled if it was empty. -/
def activate (address : String) : StateM Cells Activation := fun c =>
  match c.cell address with
  | some made => (made, c)
  | none => ((c.endpoint address).activate, c.fill address)

end Cells

/-! ## Trees -/

/-- What a slot of a host holds. -/
inductive Slot where
  /-- A handler of the host, without schemas. -/
  | foreign (handler : Handler)
  /-- The address of an endpoint that resolution has not reached. -/
  | declared (address : String)
  /-- What resolution was handed by an endpoint. -/
  | active (activation : Activation)

namespace Slot

/-- Handler to run for requests; a declared endpoint is activated for it. -/
def handler : Slot → StateM Cells Handler
  | foreign h => return h
  | declared address => return (← Cells.activate address).handler
  | active made => return made.handler

/-- Declared schemas. -/
def metadata? (c : Cells) : Slot → Option Metadata
  | foreign _ => none
  | declared address => some (c.endpoint address).metadata
  | active made => some made.metadata

/-- Whether resolution still has to reach the slot. -/
def isDeclared : Slot → Bool
  | declared _ => true
  | _ => false

end Slot

/-- A slot registered for a method. -/
structure Registration where
  /-- Method. -/
  method : Method
  /-- What is registered. -/
  slot : Slot

/-- A node of a router of a host. -/
inductive Node (ℓ μ : Type) where
  /-- Slots registered at one path. -/
  | leaf (path : ℓ) (registrations : List Registration)
  /-- A router mounted under a path. -/
  | mount (site : μ) (children : List (Node ℓ μ))

variable {ℓ μ : Type}

namespace Node

mutual

/-- Whether no slot below is merely declared. -/
def isResolved : Node ℓ μ → Bool
  | leaf _ registrations => registrations.all fun r => !r.slot.isDeclared
  | mount _ children => areResolved children

/-- Whether no slot below any node is merely declared. -/
def areResolved : List (Node ℓ μ) → Bool
  | [] => true
  | node :: rest => isResolved node && areResolved rest

end

end Node

/-! ## Resolving -/

/-- What a walk has collected, and the cells by then. -/
structure Progress where
  /-- Metadata by template and method. -/
  routes : RouteMap Metadata := {}
  /-- The cells. -/
  cells : Cells

/-- A part of the tree after the walk over it, what was collected, and the error that stopped it. -/
structure Step (α : Type) where
  /-- The part with its slots rewritten. -/
  result : α
  /-- What was collected. -/
  progress : Progress
  /-- Why the walk stopped, if it did. -/
  error? : Option ResolutionError := none

/-- Activates one slot and adds its route. -/
def registration (template : String) (r : Registration) (p : Progress) : Step Registration :=
  match r.slot with
  | .foreign _ => ⟨r, p, none⟩
  | .declared address =>
    let (made, cells) := (Cells.activate address).run p.cells
    ⟨⟨r.method, .active made⟩, ⟨(p.routes.insert template r.method made.metadata).1, cells⟩, none⟩
  | .active made => ⟨r, ⟨(p.routes.insert template r.method made.metadata).1, p.cells⟩, none⟩

/-- Activates slots in order. -/
def registrations (template : String) : List Registration → Progress → Step (List Registration)
  | [], p => ⟨[], p, none⟩
  | r :: rest, p =>
    let first := registration template r p
    let others := registrations template rest first.progress
    ⟨first.result :: others.result, others.progress, none⟩

mutual

/-- Walks over a node mounted under a template. -/
def node (read : Reading ℓ μ) (mountedAt : String) (n : Node ℓ μ) (p : Progress) :
    Step (Node ℓ μ) :=
  match n with
  | .leaf path rs =>
    let step := registrations (Path.join mountedAt (read.path path)) rs p
    ⟨.leaf path step.result, step.progress, none⟩
  | .mount site children =>
    let pattern := read.pattern site
    match Template.reconstruct pattern.source pattern.names with
    | .error cause => ⟨.mount site children, p, some ⟨pattern.source, mountedAt, cause⟩⟩
    | .ok fragment =>
      let step := nodes read (Path.join mountedAt fragment) children p
      ⟨.mount site step.result, step.progress, step.error?⟩
termination_by structural n

/-- Walks over nodes in order, up to the first error. -/
def nodes (read : Reading ℓ μ) (mountedAt : String) (ns : List (Node ℓ μ)) (p : Progress) :
    Step (List (Node ℓ μ)) :=
  match ns with
  | [] => ⟨[], p, none⟩
  | n :: rest =>
    let first := node read mountedAt n p
    match first.error? with
    | some error => ⟨first.result :: rest, first.progress, some error⟩
    | none =>
      let others := nodes read mountedAt rest first.progress
      ⟨first.result :: others.result, others.progress, others.error?⟩
termination_by structural ns

end

/-! ## Dispatching -/

mutual

/-- The slot for a method and a path below one layer, with the parameters captured so far and on
the way. -/
def findInLayer (layer : Node PathPattern PathPattern) (method : Method) (path : String)
    (params : Entries Json) : Option (Slot × Entries Json) :=
  match layer with
  | .leaf p rs =>
    match p.leaf? path with
    | none => none
    | some captures =>
      (rs.find? fun r => r.method == method).map fun r =>
        (r.slot, PathPattern.bindCaptures params captures)
  | .mount p children =>
    match p.mount? path with
    | none => none
    | some (captures, rest) =>
      find children method rest (PathPattern.bindCaptures params captures)
termination_by structural layer

/-- The first slot for a method and a path, in depth-first order. -/
def find (layers : List (Node PathPattern PathPattern)) (method : Method) (path : String)
    (params : Entries Json) : Option (Slot × Entries Json) :=
  match layers with
  | [] => none
  | layer :: rest =>
    match findInLayer layer method path params with
    | some found => some found
    | none => find rest method path params
termination_by structural layers

end

/-- Answers a request; its path parameters are those of the route. -/
def dispatch (layers : List (Node PathPattern PathPattern)) (fresh : RequestId) (r : Request) :
    StateM Cells (Option Response) :=
  match find layers r.method r.path [] with
  | some (slot, params) => do
    let handler ← slot.handler
    return handler fresh { r with params }
  | none => return some (Router.noRoute r).toResponse

end Hosting

/-! ## Hosts -/

/-- A router at work, with the cells of its endpoints. -/
structure Host (ℓ μ : Type) where
  /-- The tree. -/
  tree : List (Hosting.Node ℓ μ)
  /-- The cells. -/
  cells : Hosting.Cells

namespace Host

open Hosting

variable {ℓ μ : Type}

/-- Resolves the routes. Slots and cells change also when resolution fails. -/
def resolve (read : Resolution.Reading ℓ μ) (h : Host ℓ μ) :
    Except ResolutionError (RouteMap Metadata) × Host ℓ μ :=
  let step := nodes read "/" h.tree { cells := h.cells }
  (match step.error? with
    | some error => .error error
    | none => .ok step.progress.routes,
   ⟨step.result, step.progress.cells⟩)

/-- Whether resolution has reached every registered endpoint. -/
def isResolved (h : Host ℓ μ) : Bool := Node.areResolved h.tree

/-- Activates an endpoint by hand. -/
def activate (h : Host ℓ μ) (address : String) : Endpoint.Activation × Host ℓ μ :=
  let (made, cells) := (Cells.activate address).run h.cells
  (made, { h with cells })

/-- Answers a request. -/
def dispatch (h : Host PathPattern PathPattern) (fresh : RequestId) (r : Request) :
    Option Response × Host PathPattern PathPattern :=
  let (response, cells) := (Hosting.dispatch h.tree fresh r).run h.cells
  (response, { h with cells })

/-! ## Calls -/

/-- What is asked of a host. -/
inductive Call where
  /-- Its routes are resolved. -/
  | resolve
  /-- An endpoint is activated by hand. -/
  | activate (address : String)
  /-- A request comes in. -/
  | dispatch (fresh : RequestId) (request : Request)

/-- What a host answers. -/
inductive Answer where
  /-- The routes, or why there are none. -/
  | routes (result : Except ResolutionError (RouteMap Metadata))
  /-- What the endpoint hands out. -/
  | activation (made : Endpoint.Activation)
  /-- The response to the request, if its handler ends. -/
  | response (response : Option Response)

/-- A call and its answer. -/
def call (h : Host PathPattern PathPattern) : Call → Answer × Host PathPattern PathPattern
  | .resolve => (.routes (h.resolve Router.reading).1, (h.resolve Router.reading).2)
  | .activate address => (.activation (h.activate address).1, (h.activate address).2)
  | .dispatch fresh r => (.response (h.dispatch fresh r).1, (h.dispatch fresh r).2)

/-- Calls in turn and their answers. -/
def run (h : Host PathPattern PathPattern) : List Call → List Answer × Host PathPattern PathPattern
  | [] => ([], h)
  | c :: rest =>
    let (answer, after) := h.call c
    let (answers, last) := run after rest
    (answer :: answers, last)

end Host

end RouteContract
