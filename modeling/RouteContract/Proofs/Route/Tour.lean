import RouteContract.Route.Tree

/-!
# Tour -- a route tree in depth-first order

`RouteNode.tour` lists what a depth-first walk over a tree meets, every mount before what is mounted
there and each stop with the mounts around it. Statements about routers and about resolution are
statements about this list; `RouteNode.forest_induct` is the induction that proves them, over nodes
in a row.
-/

namespace RouteContract

/-! ## Stops -/

/-- A mount of a tree with the mounts around it, the outermost first. -/
structure MountSite (μ : Type) where
  /-- The mounts around it. -/
  around : List μ
  /-- The mount. -/
  site : μ

/-- A leaf of a tree with the mounts around it, the outermost first. -/
structure LeafSite (ℓ μ : Type) where
  /-- The mounts around it. -/
  around : List μ
  /-- Its path. -/
  path : ℓ
  /-- Handlers registered there. -/
  registrations : List Registration

/-- What a walk over a tree meets. -/
inductive Stop (ℓ μ : Type) where
  /-- A mount, before what is mounted there. -/
  | mount (m : MountSite μ)
  /-- A leaf. -/
  | leaf (l : LeafSite ℓ μ)

namespace Stop

variable {ℓ μ : Type}

/-- The mount, if the stop is one. -/
def mount? : Stop ℓ μ → Option (MountSite μ)
  | mount m => some m
  | leaf _ => none

/-- The leaf, if the stop is one. -/
def leaf? : Stop ℓ μ → Option (LeafSite ℓ μ)
  | mount _ => none
  | leaf l => some l

end Stop

/-! ## Walks -/

namespace RouteNode

variable {ℓ μ : Type}

mutual

/-- What a walk over a node meets. -/
def stops (around : List μ) : RouteNode ℓ μ → List (Stop ℓ μ)
  | leaf path registrations => [.leaf ⟨around, path, registrations⟩]
  | mount site children => .mount ⟨around, site⟩ :: tour (around ++ [site]) children

/-- What a walk over nodes in order meets. -/
def tour (around : List μ) : List (RouteNode ℓ μ) → List (Stop ℓ μ)
  | [] => []
  | node :: rest => stops around node ++ tour around rest

end

/-- The mounts of a tree below others, in depth-first order. -/
def mounts (around : List μ) (tree : List (RouteNode ℓ μ)) : List (MountSite μ) :=
  (tour around tree).filterMap Stop.mount?

/-- The leaves of a tree below mounts, in depth-first order. -/
def leaves (around : List μ) (tree : List (RouteNode ℓ μ)) : List (LeafSite ℓ μ) :=
  (tour around tree).filterMap Stop.leaf?

/-- Nodes in a row, one after the other: a leaf is followed by the rest, a mount by what is mounted
there and by the rest. -/
theorem forest_induct {motive : List (RouteNode ℓ μ) → Prop} (nil : motive [])
    (leaf : ∀ path registrations rest, motive rest → motive (.leaf path registrations :: rest))
    (mount : ∀ site children rest, motive children → motive rest →
      motive (.mount site children :: rest)) (tree : List (RouteNode ℓ μ)) : motive tree := by
  refine RouteNode.rec_1 (motive_1 := fun node => ∀ rest, motive rest → motive (node :: rest))
    (motive_2 := motive) ?_ ?_ nil ?_ tree
  · exact leaf
  · exact fun site children hchildren rest hrest => mount site children rest hchildren hrest
  · exact fun node rest hnode hrest => hnode rest hrest

variable {around : List μ} {path : ℓ} {registrations : List Registration} {site : μ}
  {children rest : List (RouteNode ℓ μ)}

@[simp] theorem tour_leaf : tour around (leaf path registrations :: rest) =
    .leaf ⟨around, path, registrations⟩ :: tour around rest := rfl

@[simp] theorem tour_mount : tour around (mount site children :: rest) =
    .mount ⟨around, site⟩ :: (tour (around ++ [site]) children ++ tour around rest) := rfl

@[simp] theorem mounts_leaf :
    mounts around (leaf path registrations :: rest) = mounts around rest := rfl

@[simp] theorem mounts_mount : mounts around (mount site children :: rest) =
    ⟨around, site⟩ :: (mounts (around ++ [site]) children ++ mounts around rest) :=
  congrArg (List.cons _) List.filterMap_append

@[simp] theorem leaves_leaf : leaves around (leaf path registrations :: rest) =
    ⟨around, path, registrations⟩ :: leaves around rest := rfl

@[simp] theorem leaves_mount : leaves around (mount site children :: rest) =
    leaves (around ++ [site]) children ++ leaves around rest := List.filterMap_append

end RouteNode

end RouteContract
