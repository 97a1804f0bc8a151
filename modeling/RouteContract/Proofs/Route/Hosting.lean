import RouteContract.Proofs.Route.Resolution
import RouteContract.Route.Hosting

/-!
# Hosting -- slots, cells and trees of hosts

An activation hands out that of the endpoint itself, whichever time it is (`Cells.activate_eq`). So
what can become of a declared slot is known beforehand: `Slot.settled` is the slot as resolution
leaves it, with the same handler and the same metadata, and a tree can be settled as a whole
(`Node.settledAll`).

`Node.tour` lists what a depth-first walk over a tree meets, every mount before what is mounted there.
It determines the tree (`Node.tour_injective`), so what is done to a tree can be said of its tour.
-/

namespace RouteContract

namespace Hosting

open Endpoint (Activation)
open Resolution (Reading)

/-! ## Cells -/

namespace Cells

variable {c : Cells} {address : String} {made : Activation}

theorem fill_of_cell (h : c.cell address = some made) : c.fill address = c := by
  refine Cells.ext rfl (funext fun a => ?_)
  show (if a = address then some (c.endpoint address).activate else c.cell a) = c.cell a
  split
  · next ha => rw [ha, h, c.filled address made h]
  · rfl

/-- **An activation** hands out that of the endpoint itself, and leaves its cell filled. -/
theorem activate_eq (address : String) (c : Cells) :
    activate address c = ((c.endpoint address).activate, c.fill address) := by
  rw [activate]
  cases h : c.cell address with
  | none => rfl
  | some made => rw [fill_of_cell h, c.filled address made h]

/-- The cells when those of several endpoints have been filled. -/
def fillAll (c : Cells) (addresses : List String) : Cells := addresses.foldl fill c

theorem fillAll_append (c : Cells) (as bs : List String) :
    c.fillAll (as ++ bs) = (c.fillAll as).fillAll bs := List.foldl_append

theorem fillAll_endpoint (c : Cells) (addresses : List String) :
    (c.fillAll addresses).endpoint = c.endpoint := by
  induction addresses generalizing c with
  | nil => rfl
  | cons a rest ih => exact ih (c.fill a)

theorem fillAll_cell (c : Cells) (addresses : List String) (address : String) :
    (c.fillAll addresses).cell address =
      if address ∈ addresses then some (c.endpoint address).activate else c.cell address := by
  induction addresses generalizing c with
  | nil => rfl
  | cons a rest ih =>
      have hfill : (c.fill a).cell address =
          if address = a then some (c.endpoint a).activate else c.cell address := rfl
      show ((c.fill a).fillAll rest).cell address = _
      rw [ih, hfill]
      by_cases ha : address = a
      · subst ha
        simp [fill]
      · simp [fill, ha]

end Cells

/-! ## Settled slots -/

namespace Slot

/-- The slot as resolution leaves it. -/
def settled (endpoint : String → Endpoint) : Slot → Slot
  | declared address => active ⟨(endpoint address).metadata, (endpoint address).serve⟩
  | s => s

/-- Where the endpoint of the slot is, if resolution has not reached it. -/
def address? : Slot → Option String
  | declared address => some address
  | _ => none

theorem settled_settled (endpoint : String → Endpoint) (s : Slot) :
    (s.settled endpoint).settled endpoint = s.settled endpoint := by
  cases s <;> rfl

theorem address?_settled (endpoint : String → Endpoint) (s : Slot) :
    (s.settled endpoint).address? = none := by
  cases s <;> rfl

theorem isDeclared_settled (endpoint : String → Endpoint) (s : Slot) :
    (s.settled endpoint).isDeclared = false := by
  cases s <;> rfl

theorem metadata?_settled (s : Slot) (c c' : Cells) :
    (s.settled c.endpoint).metadata? c' = s.metadata? c := by
  cases s <;> rfl

/-- **The handler of a slot** is that of the settled slot, whatever is in the cells. -/
theorem handler_settled (s : Slot) (c c' : Cells) :
    ((s.settled c.endpoint).handler c').1 = (s.handler c).1 := by
  cases s with
  | foreign handler => rfl
  | active made => rfl
  | declared address =>
      show (c.endpoint address).activate.handler = (Cells.activate address c).1.handler
      rw [Cells.activate_eq]

theorem handler_endpoint (s : Slot) (c : Cells) : (s.handler c).2.endpoint = c.endpoint := by
  cases s with
  | foreign handler => rfl
  | active made => rfl
  | declared address =>
      show (Cells.activate address c).2.endpoint = c.endpoint
      rw [Cells.activate_eq]
      rfl

end Slot

/-- The registration with its slot settled. -/
def Registration.settled (endpoint : String → Endpoint) (r : Registration) : Registration :=
  { r with slot := r.slot.settled endpoint }

/-- The addresses of the endpoints that resolution has not reached. -/
def addresses (rs : List Registration) : List String := rs.filterMap fun r => r.slot.address?

theorem map_settled_settled (endpoint : String → Endpoint) (rs : List Registration) :
    (rs.map (Registration.settled endpoint)).map (Registration.settled endpoint) =
      rs.map (Registration.settled endpoint) := by
  rw [List.map_map]
  refine List.map_congr_left fun r _ => ?_
  exact congrArg (Registration.mk r.method) (Slot.settled_settled endpoint r.slot)

theorem addresses_settled (endpoint : String → Endpoint) (rs : List Registration) :
    addresses (rs.map (Registration.settled endpoint)) = [] := by
  rw [addresses, List.filterMap_map, List.filterMap_eq_nil_iff]
  exact fun r _ => Slot.address?_settled endpoint r.slot

/-! ## Settled trees -/

variable {ℓ μ : Type}

/-- What a walk over a tree meets: a mount before what is mounted there, or a leaf, with the mounts
around it. -/
inductive Stop (ℓ μ : Type) where
  /-- A mount. -/
  | mount (around : List μ) (site : μ)
  /-- A leaf. -/
  | leaf (around : List μ) (path : ℓ) (registrations : List Registration)

namespace Stop

/-- The mounts around the stop. -/
def around : Stop ℓ μ → List μ
  | mount around _ => around
  | leaf around _ _ => around

/-- The mount, if the stop is one. -/
def site? : Stop ℓ μ → Option μ
  | mount _ site => some site
  | leaf _ _ _ => none

/-- The stop with all of its slots settled. -/
def settled (endpoint : String → Endpoint) : Stop ℓ μ → Stop ℓ μ
  | mount around site => mount around site
  | leaf around path rs => leaf around path (rs.map (Registration.settled endpoint))

/-- The addresses of the endpoints at the stop that resolution has not reached. -/
def addresses : Stop ℓ μ → List String
  | mount _ _ => []
  | leaf _ _ rs => Hosting.addresses rs

theorem settled_settled (endpoint : String → Endpoint) (stop : Stop ℓ μ) :
    (stop.settled endpoint).settled endpoint = stop.settled endpoint := by
  cases stop with
  | mount around site => rfl
  | leaf around path rs => exact congrArg (leaf around path) (map_settled_settled endpoint rs)

theorem addresses_settled (endpoint : String → Endpoint) (stop : Stop ℓ μ) :
    (stop.settled endpoint).addresses = [] := by
  cases stop with
  | mount around site => rfl
  | leaf around path rs => exact Hosting.addresses_settled endpoint rs

end Stop

namespace Node

/-- Nodes in a row, one after the other: a leaf is followed by the rest, a mount by what is mounted
there and by the rest. -/
theorem forest_induct {motive : List (Node ℓ μ) → Prop} (nil : motive [])
    (leaf : ∀ path registrations rest, motive rest → motive (.leaf path registrations :: rest))
    (mount : ∀ site children rest, motive children → motive rest →
      motive (.mount site children :: rest)) (tree : List (Node ℓ μ)) : motive tree := by
  refine Node.rec_1 (motive_1 := fun node => ∀ rest, motive rest → motive (node :: rest))
    (motive_2 := motive) ?_ ?_ nil ?_ tree
  · exact leaf
  · exact fun site children hchildren rest hrest => mount site children rest hchildren hrest
  · exact fun node rest hnode hrest => hnode rest hrest

mutual

/-- The node with all slots below it settled. -/
def settled (endpoint : String → Endpoint) : Node ℓ μ → Node ℓ μ
  | leaf path rs => leaf path (rs.map (Registration.settled endpoint))
  | mount site children => mount site (settledAll endpoint children)

/-- The nodes with all slots below them settled. -/
def settledAll (endpoint : String → Endpoint) : List (Node ℓ μ) → List (Node ℓ μ)
  | [] => []
  | node :: rest => settled endpoint node :: settledAll endpoint rest

end

mutual

/-- What a walk over a node meets. -/
def stops (around : List μ) : Node ℓ μ → List (Stop ℓ μ)
  | leaf path registrations => [.leaf around path registrations]
  | mount site children => .mount around site :: tour (around ++ [site]) children

/-- What a walk over nodes in order meets. -/
def tour (around : List μ) : List (Node ℓ μ) → List (Stop ℓ μ)
  | [] => []
  | node :: rest => stops around node ++ tour around rest

end

variable {endpoint : String → Endpoint} {around : List μ} {path : ℓ} {rs : List Registration}
  {site : μ} {tree tree' children rest : List (Node ℓ μ)}

@[simp] theorem tour_nil : tour around ([] : List (Node ℓ μ)) = [] := rfl

@[simp] theorem tour_leaf :
    tour around (leaf path rs :: rest) = .leaf around path rs :: tour around rest := rfl

@[simp] theorem tour_mount : tour around (mount site children :: rest) =
    .mount around site :: (tour (around ++ [site]) children ++ tour around rest) := rfl

@[simp] theorem settledAll_leaf : settledAll endpoint (leaf path rs :: rest) =
    leaf path (rs.map (Registration.settled endpoint)) :: settledAll endpoint rest := rfl

@[simp] theorem settledAll_mount : settledAll endpoint (mount site children :: rest) =
    mount site (settledAll endpoint children) :: settledAll endpoint rest := rfl

theorem tour_settledAll :
    tour around (settledAll endpoint tree) = (tour around tree).map (Stop.settled endpoint) := by
  induction tree using forest_induct generalizing around with
  | nil => rfl
  | leaf path rs rest hrest =>
      rw [settledAll_leaf, tour_leaf, tour_leaf, List.map_cons, hrest]
      rfl
  | mount site children rest hchildren hrest =>
      rw [settledAll_mount, tour_mount, tour_mount, List.map_cons, List.map_append, hchildren, hrest]
      rfl

theorem areResolved_settledAll : areResolved (settledAll endpoint tree) = true := by
  induction tree using forest_induct with
  | nil => rfl
  | leaf path rs rest hrest =>
      rw [settledAll_leaf, areResolved, hrest, Bool.and_true, isResolved, List.all_map,
        List.all_eq_true]
      intro r _
      show (!(r.slot.settled endpoint).isDeclared) = true
      rw [Slot.isDeclared_settled, Bool.not_false]
  | mount site children rest hchildren hrest =>
      rw [settledAll_mount, areResolved, hrest, Bool.and_true]
      exact hchildren

/-! ## Tours determine trees -/

/-- A tour is no less deep than where it starts. -/
theorem length_around_le : ∀ stop ∈ tour around tree, around.length ≤ stop.around.length := by
  induction tree using forest_induct generalizing around with
  | nil => exact nofun
  | leaf path rs rest hrest =>
      rw [tour_leaf]
      exact List.forall_mem_cons.mpr ⟨Nat.le_refl _, hrest⟩
  | mount site children rest hchildren hrest =>
      rw [tour_mount]
      refine List.forall_mem_cons.mpr ⟨Nat.le_refl _, List.forall_mem_append.mpr ⟨?_, hrest⟩⟩
      intro stop hstop
      have hbelow := hchildren stop hstop
      rw [List.length_append] at hbelow
      omega

/-- What is mounted somewhere is the part of the tour that is deeper than the mount. -/
theorem takeWhile_deeper (site : μ) (children rest : List (Node ℓ μ)) :
    (tour (around ++ [site]) children ++ tour around rest).takeWhile
      (fun stop => around.length < stop.around.length) = tour (around ++ [site]) children := by
  have hbelow : ∀ stop ∈ tour (around ++ [site]) children,
      decide (around.length < stop.around.length) = true := by
    intro stop hstop
    have hle := length_around_le stop hstop
    rw [List.length_append, List.length_singleton] at hle
    exact decide_eq_true hle
  rw [List.takeWhile_append_of_pos hbelow]
  -- the tour goes on, if it does, at the depth of the mount
  cases rest with
  | nil => exact List.append_nil _
  | cons node rest => cases node <;> simp [Stop.around]

/-- **A tree is determined** by what a walk over it meets. -/
theorem tour_injective (h : tour around tree = tour around tree') : tree = tree' := by
  induction tree using forest_induct generalizing around tree' with
  | nil =>
      cases tree' with
      | nil => rfl
      | cons node rest => cases node <;> cases h
  | leaf path rs rest hrest =>
      cases tree' with
      | nil => cases h
      | cons node rest' =>
          cases node with
          | mount site children => cases h
          | leaf path' rs' =>
              obtain ⟨hstop, htours⟩ := List.cons.inj h
              cases hstop
              rw [hrest htours]
  | mount site children rest hchildren hrest =>
      cases tree' with
      | nil => cases h
      | cons node rest' =>
          cases node with
          | leaf path rs => cases h
          | mount site' children' =>
              obtain ⟨hstop, htours⟩ := List.cons.inj h
              cases hstop
              change tour (around ++ [site]) children ++ tour around rest =
                tour (around ++ [site]) children' ++ tour around rest' at htours
              have hbelow : tour (around ++ [site]) children = tour (around ++ [site]) children' := by
                rw [← takeWhile_deeper site children rest, htours, takeWhile_deeper]
              rw [hbelow] at htours
              rw [hchildren hbelow, hrest (List.append_cancel_left htours)]

end Node

end Hosting

end RouteContract
