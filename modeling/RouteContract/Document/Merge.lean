import RouteContract.Json.Value

/-!
# Merging overrides into a value

Objects merge member by member; anything else in the overrides replaces what it meets. Members of
the base keep their positions and new members follow in the order of the overrides.
-/

namespace RouteContract.Json

mutual

/-- The base with overrides merged in. -/
def merge (base : Json) : Json → Json
  | .obj overrides =>
    match base with
    | .obj members => .obj (mergeMembers members overrides)
    | _ => .obj overrides
  | replacement => replacement

/-- Members of the base with overriding members merged in, one after the other. -/
def mergeMembers (members : Entries Json) : List (String × Json) → Entries Json
  | [] => members
  | (key, value) :: rest =>
    let merged := match members.get? key with
      | some existing => merge existing value
      | none => value
    mergeMembers (members.put key merged) rest

end

end RouteContract.Json
