import RouteContract.Endpoint.Endpoint

/-!
# Serving -- an endpoint around a handler with effects

`Endpoint.serve` answers by a handler that is a function, or never ends. Here the handler may do
anything while it computes its result, in whatever monad it runs: `Endpoint.serveWith` is the
production handler around it, and shows when it is run. The sections of a request are named, with
what is declared for each, what comes in and what is handed to the handler.
-/

namespace RouteContract

/-- The sections of a request, in the order in which rejected ones are listed. -/
inductive RequestSection where
  /-- Path parameters. -/
  | params
  /-- Query string. -/
  | query
  /-- Body. -/
  | body
  /-- Headers. -/
  | headers
deriving DecidableEq

namespace RequestSection

/-- All sections. -/
def all : List RequestSection := [params, query, body, headers]

theorem mem_all (part : RequestSection) : part ∈ all := by cases part <;> decide

/-- Name of a section in the answer to a rejected request. -/
def name : RequestSection → String
  | params => "params"
  | query => "query"
  | body => "body"
  | headers => "headers"

/-- The schema declared for a section. -/
def schema? (declared : Metadata) : RequestSection → Option Schema
  | params => declared.params
  | query => declared.query
  | body => declared.body
  | headers => declared.headers

/-- What a request holds in a section; only the body may be missing. -/
def value (r : Request) : RequestSection → Option Json
  | params => some (.obj r.params)
  | query => some (.obj r.query)
  | body => r.body
  | headers => some (.obj r.headers)

end RequestSection

/-- What a decoded request holds in a section. -/
def TypedRequest.part (r : TypedRequest) : RequestSection → Option Json
  | .params => some r.params
  | .query => some r.query
  | .body => r.body
  | .headers => some r.headers

namespace Endpoint

/-- What the endpoint makes of one section of a request. -/
def verdict (e : Endpoint) (r : Request) (part : RequestSection) : Outcome Report (Option Json) :=
  e.decodeSection (part.schema? e.metadata) (part.value r)

/-- Some section of the request is rejected. -/
def Rejects (e : Endpoint) (r : Request) : Prop := ∃ part report, e.verdict r part = .failed report

/-- Every section of the request is decoded to an end. -/
def Decodes (e : Endpoint) (r : Request) : Prop := ∀ part, e.verdict r part ≠ .looping

/-- The rejected sections by name, each with the issues of that section: where, and what is wrong. -/
def rejections (e : Endpoint) (r : Request) : Entries Json :=
  RequestSection.all.filterMap fun part =>
    (e.verdict r part).reason?.map fun report => (part.name, .arr (report.issues.map fun issue =>
      .obj [("path", .str issue.path), ("errors", .arr (issue.errors.map .str))]))

/-- The production handler around an application handler with effects. -/
def serveWith {m : Type → Type} [Monad m] (e : Endpoint)
    (handler : TypedRequest → Reply → m (Except Fault Response)) (fresh : RequestId) (r : Request) :
    m (Option Response) :=
  match e.decodeRequest fresh r with
  | .failed errors => pure (some (.json e.config.errorStatus (.obj [("errors", errors.toJson)])))
  | .looping => pure none
  | .ok typed => do
    let result ← handler typed e.reply
    return some (e.answer result)

end Endpoint

end RouteContract
