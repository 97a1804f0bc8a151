import RouteContract.Endpoint.Endpoint

/-!
# Route trees

A router is a list of nodes in registration order: leaves with the handlers registered at a path,
and mounts with the nodes of a router mounted under a path. What stands for a path is a parameter,
once for leaves and once for mounts, since hosts describe the two differently.

A registered endpoint is activated when it first runs or when routes are resolved. Endpoints are
shared between registrations, so what has been activated is a set of endpoint names beside the tree.
-/

namespace RouteContract

/-- What is registered for a method. -/
inductive Slot where
  /-- A handler of the host, without schemas. -/
  | foreign (handler : Handler)
  /-- An endpoint that resolution has not reached. -/
  | declared (endpoint : Endpoint)
  /-- An endpoint that resolution has reached. -/
  | active (endpoint : Endpoint)

namespace Slot

/-- The endpoint of a slot. -/
def endpoint? : Slot → Option Endpoint
  | foreign _ => none
  | declared e => some e
  | active e => some e

/-- Handler to run for requests. -/
def handler : Slot → Handler
  | foreign h => h
  | declared e => e.activate.handler
  | active e => e.activate.handler

/-- Declared schemas. -/
def metadata? (s : Slot) : Option Metadata := s.endpoint?.map Endpoint.metadata

/-- Whether resolution still has to reach the slot. -/
def isDeclared : Slot → Bool
  | declared _ => true
  | _ => false

/-- Name of the state of a slot. -/
def stateName : Slot → String
  | foreign _ => "foreign"
  | declared _ => "declared"
  | active _ => "active"

end Slot

/-- A handler registered for a method. -/
structure Registration where
  /-- Method. -/
  method : Method
  /-- What is registered. -/
  slot : Slot

/-- A node of a router; `ℓ` describes the paths of leaves and `μ` those of mounts. -/
inductive RouteNode (ℓ μ : Type) where
  /-- Handlers registered at one path. -/
  | leaf (path : ℓ) (registrations : List Registration)
  /-- A router mounted under a path. -/
  | mount (site : μ) (children : List (RouteNode ℓ μ))

/-- How a host exposes a mounted path: a pattern and the names of its captures. -/
structure MountPattern where
  /-- Source of a regular expression. -/
  source : String
  /-- Parameter names in the order of the captures. -/
  names : List String
deriving DecidableEq

/-- A tree whose mounts are known by their patterns only. -/
abbrev RouteTree := List (RouteNode String MountPattern)

namespace RouteNode

variable {ℓ μ : Type}

mutual

/-- Whether no registration below is merely declared. -/
def isResolved : RouteNode ℓ μ → Bool
  | leaf _ registrations => registrations.all fun r => !r.slot.isDeclared
  | mount _ children => areResolved children

/-- Whether no registration below any node is merely declared. -/
def areResolved : List (RouteNode ℓ μ) → Bool
  | [] => true
  | node :: rest => isResolved node && areResolved rest

end

end RouteNode

/-- Adds the name of an activated endpoint. -/
def addActivated (activated : List String) (name : String) : List String :=
  if activated.contains name then activated else activated ++ [name]

end RouteContract
