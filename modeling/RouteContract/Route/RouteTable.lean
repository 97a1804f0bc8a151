import Mathlib.Data.List.Basic
import RouteContract.Route.RouteMap

/-!
# RouteTable -- payloads in rows of methods

A map of routes as an ordered map of ordered maps: a row for each template, and in a row the payloads
by method. A row is opened before it is known whether anything is put into it, and the table is empty
if it has no rows; that rows are never left empty is therefore a property to be kept.
-/

namespace RouteContract

/-- Methods are ordered as they are listed. -/
instance : Ord Method := ⟨compareOn Method.rank⟩

instance : Std.TransOrd Method := inferInstanceAs (Std.TransCmp (compareOn Method.rank))

instance : Std.LawfulEqOrd Method where
  eq_of_compare h := Method.rank_injective (Std.LawfulEqOrd.eq_of_compare h)

/-- Payloads by method. -/
abbrev RouteRow (α : Type) := Std.ExtTreeMap Method α

/-- Payloads by template, then by method. -/
structure RouteTable (α : Type) where
  /-- The rows, by template. -/
  rows : Std.ExtTreeMap String (RouteRow α) := ∅

namespace RouteTable

variable {α : Type}

/-- Adds a route unless it is there already, and says whether it was added. The row of the template is
opened in either case. -/
def insert (t : RouteTable α) (template : String) (method : Method) (payload : α) :
    RouteTable α × Bool :=
  let opened := t.rows.insertIfNew template ∅
  let row := opened.getD template ∅
  if row.contains method then (⟨opened⟩, false)
  else (⟨opened.insert template (row.insert method payload)⟩, true)

/-- Payload of a route. -/
def get? (t : RouteTable α) (template : String) (method : Method) : Option α :=
  t.rows[template]?.bind fun row => row[method]?

/-- The routes in the row of a template. -/
def rowEntries (template : String) (row : RouteRow α) : List (RouteEntry α) :=
  row.toList.map fun (method, payload) => ⟨template, method, payload⟩

/-- The routes, row by row. -/
def entries (t : RouteTable α) : List (RouteEntry α) :=
  t.rows.toList.flatMap fun (template, row) => rowEntries template row

/-- The templates that have rows. -/
def templates (t : RouteTable α) : List String := t.rows.keys

/-- Number of routes, counted row by row. -/
def size (t : RouteTable α) : Nat := t.rows.foldl (fun count _ row => count + row.size) 0

/-- Whether there are no rows. -/
def isEmpty (t : RouteTable α) : Bool := t.rows.isEmpty

end RouteTable

end RouteContract
