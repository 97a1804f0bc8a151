import RouteContract.Entries

/-!
# Registry -- named bodies, each computed once

Documentation and rendered types both compile a lazy definition once, under its name, and refer to
it by name everywhere else. A `Registry` holds the finished bodies in the order in which they were
finished, and the names whose bodies are being computed: reaching such a name again is a recursive
reference and computes nothing.
-/

namespace RouteContract

/-- Finished bodies by name, and the names in progress. -/
structure Registry (β : Type) where
  /-- Finished bodies, in the order of completion. -/
  entries : Entries β := []
  /-- Names whose bodies are being computed. -/
  inProgress : List String := []

namespace Registry

variable {β : Type}

/-- Whether a name is finished or in progress. -/
def knows (r : Registry β) (name : String) : Bool :=
  Entries.has r.entries name || r.inProgress.contains name

/-- Computes the body of a name, unless it is known. -/
def define (name : String) (body : StateM (Registry β) β) : StateM (Registry β) Unit := fun r =>
  if r.knows name then ((), r)
  else
    let (finished, after) := body { r with inProgress := name :: r.inProgress }
    ((), { entries := after.entries.put name finished, inProgress := after.inProgress.erase name })

/-! ## Laws -/

/-- A known name computes nothing. -/
theorem define_of_knows {r : Registry β} {name : String} (h : r.knows name = true)
    (body : StateM (Registry β) β) : define name body r = ((), r) := by
  simp [define, h]

end Registry

end RouteContract
