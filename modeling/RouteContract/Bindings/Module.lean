import RouteContract.Bindings.Renderer
import RouteContract.Config
import RouteContract.Endpoint.Metadata
import RouteContract.Route.RouteMap

/-!
# Modules of type bindings

A module declares every lazy definition and an interface `Routes` with one entry per route, whose
members are the types of the declared sections.
-/

namespace RouteContract.Bindings

/-- The word in front of exported declarations. -/
def exportWord (config : RenderConfig) : String := if config.exportTypes then "export " else ""

/-- Declarations of a registry, one per line. -/
def declarations (config : RenderConfig) (entries : Entries String) : String :=
  String.join (entries.map fun e => exportWord config ++ "type " ++ e.1 ++ " = " ++ e.2 ++ ";\n")

/-- Members of the entry of a route. -/
def sectionLines (config : RenderConfig) (defs : Definitions) :
    List (String × Schema) → Render String
  | [] => return ""
  | (name, s) :: rest => do
    let type ← Render.render defs config.direction s
    let others ← sectionLines config defs rest
    return config.indent ++ config.indent ++ name ++ ": " ++ type ++ ";\n" ++ others

/-- Entries of routes, in order. -/
def routeEntries (config : RenderConfig) (defs : Definitions) :
    List (RouteEntry Metadata) → Render String
  | [] => return ""
  | e :: rest => do
    let lines ← sectionLines config defs e.payload.sections
    let others ← routeEntries config defs rest
    return config.indent ++ Json.quote (e.method.upper ++ " " ++ e.template) ++ ": \x7b\n" ++
      lines ++ config.indent ++ "\x7d;\n" ++ others

/-- The module of a map of routes. -/
def source (defs : Definitions) (routes : RouteMap Metadata) (config : RenderConfig) : String :=
  let (entries, registry) := (routeEntries config defs routes.entries).run {}
  let declared := declarations config registry.entries
  declared ++ (if declared.isEmpty then "" else "\n") ++ exportWord config ++
    "interface Routes \x7b\n" ++ entries ++ "\x7d\n"

end RouteContract.Bindings
