import RouteContract.Json.Record

/-!
# Reports

A `Finding` is one message at one path. A `Report` groups findings by path: every path once, in the
order in which it first failed, with its messages in the order in which they were found.
-/

namespace RouteContract

/-- One message about the value at a path; the root has the empty path. -/
structure Finding where
  /-- Where the value is. -/
  path : String
  /-- What is wrong with it. -/
  message : String
deriving DecidableEq

/-- All messages about the value at one path. -/
structure Issue where
  /-- Where the value is. -/
  path : String
  /-- What is wrong with it, in the order found. -/
  errors : List String
deriving DecidableEq

/-- All issues of one value. -/
structure Report where
  /-- The issues, in the order in which their paths first failed. -/
  issues : List Issue := []
deriving DecidableEq

namespace Report

/-- Adds a message to the issue at its path, or a new issue at the end. -/
def pushTo (path message : String) : List Issue → List Issue
  | [] => [⟨path, [message]⟩]
  | issue :: rest =>
    if issue.path = path then ⟨issue.path, issue.errors ++ [message]⟩ :: rest
    else issue :: pushTo path message rest

/-- Records a message at a path. -/
def push (r : Report) (path message : String) : Report := ⟨pushTo path message r.issues⟩

/-- Records findings in order. -/
def record (r : Report) (findings : List Finding) : Report :=
  findings.foldl (fun r f => r.push f.path f.message) r

/-- The report of a list of findings. -/
def ofFindings (findings : List Finding) : Report := record {} findings

/-- The findings of a list of issues, in order. -/
def findingsOf (issues : List Issue) : List Finding :=
  issues.flatMap fun issue => issue.errors.map fun message => ⟨issue.path, message⟩

/-- The report of a list of issues that may repeat paths. -/
def ofIssues (issues : List Issue) : Report := ofFindings (findingsOf issues)

/-- Paths of all issues. -/
def paths (r : Report) : List String := r.issues.map Issue.path

/-- The messages at a path, if there are any. -/
def errorsAt? (r : Report) (path : String) : Option (List String) :=
  (r.issues.find? fun issue => issue.path == path).map Issue.errors

/-- Number of distinct failing paths. -/
def size (r : Report) : Nat := r.issues.length

/-- Whether nothing was recorded. -/
def isEmpty (r : Report) : Bool := r.issues.isEmpty

/-- Summary of a report. -/
def message (r : Report) : String :=
  "validation failed with " ++ toString r.size ++ " issue(s)"

end Report

/-! ## Stored form -/

namespace Issue

/-- The issue as stored. -/
def toJson (issue : Issue) : Json :=
  .obj [("path", .str issue.path), ("errors", .arr (issue.errors.map .str))]

/-- Reads a stored issue. -/
def ofJson? (v : Json) : Option Issue := do
  let r ← Record.ofJson? ["path", "errors"] v
  let path ← r.required "path" Record.string?
  let errors ← r.required "errors" (Record.list? Record.string?)
  return { path, errors }

end Issue

namespace Report

/-- A report is stored as the bare list of its issues. -/
def toJson (r : Report) : Json := .arr (r.issues.map Issue.toJson)

/-- Reads a stored report, as it stands: paths that repeat are not merged. -/
def ofJson? (v : Json) : Option Report := (Record.list? Issue.ofJson? v).map Report.mk

/-! ## Laws -/

/-- A push adds its path at the end, unless the path is there already. -/
theorem paths_push (r : Report) (path message : String) :
    (r.push path message).paths = if path ∈ r.paths then r.paths else r.paths ++ [path] := by
  obtain ⟨issues⟩ := r
  simp only [push, paths]
  induction issues with
  | nil => rfl
  | cons issue rest ih =>
    by_cases h : issue.path = path
    · simp [pushTo, h]
    · have h' : ¬path = issue.path := fun e => h e.symm
      by_cases hm : path ∈ rest.map Issue.path
      · simp only [pushTo, h, if_false, List.map_cons, List.mem_cons, hm, or_true, if_true, ih]
      · simp only [pushTo, h, if_false, List.map_cons, List.mem_cons, hm, h', or_self, ih,
          List.cons_append]

theorem push_ne_empty (r : Report) (path message : String) :
    (r.push path message).isEmpty = false := by
  obtain ⟨issues⟩ := r
  cases issues with
  | nil => rfl
  | cons issue rest =>
    simp only [push, pushTo, isEmpty]
    split <;> rfl

end Report

end RouteContract
