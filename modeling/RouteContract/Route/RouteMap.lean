import RouteContract.Http.Method

/-!
# RouteMap -- payloads by template and method

Routes are kept sorted, by template in the order of code points and then by method. The first
payload given for a route stays.
-/

namespace RouteContract

/-- A route and what it carries. -/
structure RouteEntry (α : Type) where
  /-- Path template, parameters written with a colon. -/
  template : String
  /-- Method. -/
  method : Method
  /-- What the route carries. -/
  payload : α

namespace RouteEntry

variable {α : Type}

/-- Whether the entry is the one of the given route. -/
def isAt (e : RouteEntry α) (template : String) (method : Method) : Bool :=
  e.template == template && e.method == method

/-- Whether the entry stands before the given route. -/
def before (e : RouteEntry α) (template : String) (method : Method) : Bool :=
  decide (e.template < template) ||
    (e.template == template && decide (e.method.rank < method.rank))

end RouteEntry

/-- Routes with their payloads, sorted. -/
structure RouteMap (α : Type) where
  /-- The routes in order. -/
  entries : List (RouteEntry α) := []

namespace RouteMap

variable {α β : Type}

/-- Puts an entry in its place. -/
def insertSorted (entry : RouteEntry α) : List (RouteEntry α) → List (RouteEntry α)
  | [] => [entry]
  | e :: rest =>
    if e.before entry.template entry.method then e :: insertSorted entry rest
    else entry :: e :: rest

/-- Payload of a route. -/
def get? (m : RouteMap α) (template : String) (method : Method) : Option α :=
  (m.entries.find? fun e => e.isAt template method).map RouteEntry.payload

/-- Whether the map has a route. -/
def has (m : RouteMap α) (template : String) (method : Method) : Bool :=
  m.entries.any fun e => e.isAt template method

/-- Adds a route unless it is there already, and says whether it was added. -/
def insert (m : RouteMap α) (template : String) (method : Method) (payload : α) :
    RouteMap α × Bool :=
  if m.has template method then (m, false)
  else (⟨insertSorted ⟨template, method, payload⟩ m.entries⟩, true)

/-- Drops repetitions of neighbours. -/
def dedup : List String → List String
  | [] => []
  | t :: rest =>
    match dedup rest with
    | [] => [t]
    | u :: others => if t = u then u :: others else t :: u :: others

/-- All templates, each once, in order. -/
def templates (m : RouteMap α) : List String := dedup (m.entries.map RouteEntry.template)

/-- Number of routes. -/
def size (m : RouteMap α) : Nat := m.entries.length

/-- Whether there are no routes. -/
def isEmpty (m : RouteMap α) : Bool := m.entries.isEmpty

/-- Replaces every payload. -/
def map (f : α → β) (m : RouteMap α) : RouteMap β :=
  ⟨m.entries.map fun e => ⟨e.template, e.method, f e.payload⟩⟩

/-! ## Laws -/

theorem insert_of_has {m : RouteMap α} {template : String} {method : Method}
    (h : m.has template method = true) (payload : α) :
    m.insert template method payload = (m, false) := by
  simp [insert, h]

theorem perm_insertSorted (entry : RouteEntry α) (es : List (RouteEntry α)) :
    (insertSorted entry es).Perm (entry :: es) := by
  induction es with
  | nil => exact .refl _
  | cons e rest ih =>
    simp only [insertSorted]
    split
    · exact (ih.cons e).trans (.swap entry e rest)
    · exact .refl _

end RouteMap

end RouteContract
