import RouteContract.Json.Value
import RouteContract.Route.Segments
import RouteContract.Route.Template
import RouteContract.Text.CaseFold

/-!
# Path patterns of a router

A path is registered as slash-separated segments, literal or `:name`. `PathPattern.leaf?` and
`PathPattern.mount?` match a request path: literals up to case, a parameter against everything up to
the next slash. A leaf takes the whole path, a mount takes it up to a segment boundary and leaves
the rest. `PathPattern.source` writes the pattern as the regular expression under which the router
exposes it.
-/

namespace RouteContract

/-- One segment of a registered path. -/
inductive Segment where
  /-- Fixed text. -/
  | literal (text : String)
  /-- Any text without a slash, bound to a name. -/
  | param (name : String)
deriving DecidableEq

/-- A registered path. -/
structure PathPattern where
  /-- The path as written. -/
  path : String
  /-- Its non-empty segments. -/
  segments : List Segment
deriving DecidableEq

namespace PathPattern

/-! ## Reading -/

/-- Characters of parameter names. -/
def isNameChar (c : Char) : Bool := c.isAlphanum || c == '_'

/-- Reads one segment. -/
def segment? (text : String) : Except PatternError Segment :=
  match text.toList with
  | ':' :: name =>
    if !name.isEmpty && name.all isNameChar then .ok (.param (String.ofList name))
    else .error (.invalidName (String.ofList name))
  | _ => .ok (.literal text)

/-- Reads a path; the first bad parameter name is the error. -/
def parse (path : String) : Except PatternError PathPattern :=
  ((Path.segments path).mapM segment?).map fun segments => ⟨path, segments⟩

/-- Parameter names in order. -/
def names (p : PathPattern) : List String :=
  p.segments.filterMap fun
    | .param name => some name
    | .literal _ => none

/-! ## Matching -/

/-- Takes the segments off the front of a path: the captured values in order, and the rest. -/
def matchSegments : List Segment → List Char → Option (List (String × String) × List Char)
  | [], cs => some ([], cs)
  | .literal text :: others, '/' :: cs =>
    let expected := text.toList
    if Text.sameLetters expected (cs.take expected.length) then
      matchSegments others (cs.drop expected.length)
    else none
  | .param name :: others, '/' :: cs =>
    let value := cs.takeWhile fun c => c != '/'
    if value.isEmpty then none
    else
      (matchSegments others (cs.dropWhile fun c => c != '/')).map fun (captures, rest) =>
        ((name, String.ofList value) :: captures, rest)
  | _ :: _, _ => none

/-- Matches a whole path, a slash at its end allowed. -/
def leaf? (p : PathPattern) (path : String) : Option (List (String × String)) :=
  match matchSegments p.segments path.toList with
  | some (captures, []) => some captures
  | some (captures, ['/']) => some captures
  | _ => none

/-- Matches a path up to a segment boundary and leaves the rest, which starts with a slash and has
no line break. -/
def mount? (p : PathPattern) (path : String) : Option (List (String × String) × String) :=
  match matchSegments p.segments path.toList with
  | some (captures, []) => some (captures, "/")
  | some (captures, '/' :: rest) =>
    if rest.contains '\n' then none else some (captures, String.ofList ('/' :: rest))
  | _ => none

/-- Adds captured values to parameters. -/
def bindCaptures (params : Entries Json) (captures : List (String × String)) : Entries Json :=
  captures.foldl (fun params c => params.put c.1 (.str c.2)) params

/-! ## Source -/

/-- Characters written with a backslash. -/
def isMeta (c : Char) : Bool :=
  ['\\', '/', '.', '*', '+', '?', '(', ')', '[', ']', '\x7b', '\x7d', '|', '^', '$'].contains c

/-- Source of one segment, with the slash in front. -/
def segmentSource : Segment → List Char
  | .param _ => "\\/(?:([^\\/]+?))".toList
  | .literal text =>
    "\\/".toList ++ text.toList.flatMap fun c => if isMeta c then ['\\', c] else [c]

/-- Source of a mounted pattern: letters match in either case, and the pattern ends before a slash
or at the end of the path. -/
def source (p : PathPattern) : String :=
  "/^" ++ String.ofList (p.segments.flatMap segmentSource) ++ "\\/?(?=\\/|$)/i"

end PathPattern

end RouteContract
