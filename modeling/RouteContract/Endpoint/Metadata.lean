import RouteContract.Schema.Basic

/-!
# Metadata -- the schemas of an endpoint
-/

namespace RouteContract

/-- Schemas declared by an endpoint, one per section of request and response. -/
structure Metadata where
  /-- Path parameters; documented only if this is an object. -/
  params : Option Schema := none
  /-- Query string; documented only if this is an object. -/
  query : Option Schema := none
  /-- Headers; documented only if this is an object. -/
  headers : Option Schema := none
  /-- Request body. -/
  body : Option Schema := none
  /-- Response body. -/
  response : Option Schema := none

namespace Metadata

/-- The declared sections by name, in the order in which they are listed. -/
def sections (m : Metadata) : List (String × Schema) :=
  [("params", m.params), ("query", m.query), ("headers", m.headers), ("body", m.body),
    ("response", m.response)].filterMap fun s => s.2.map fun schema => (s.1, schema)

end Metadata

end RouteContract
