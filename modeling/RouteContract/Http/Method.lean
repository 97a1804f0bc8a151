import RouteContract.Json.Record

/-!
# HTTP methods
-/

namespace RouteContract

/-- Method of a registered endpoint. The order of the constructors is the order in which routes of
one template are listed. -/
inductive Method where
  | get
  | post
  | put
  | patch
  | delete
  | head
  | options
deriving DecidableEq

namespace Method

/-- All methods, in order. -/
def all : List Method := [get, post, put, patch, delete, head, options]

/-- Name on the wire. -/
def upper : Method → String
  | get => "GET"
  | post => "POST"
  | put => "PUT"
  | patch => "PATCH"
  | delete => "DELETE"
  | head => "HEAD"
  | options => "OPTIONS"

/-- Name as a key of documents and stored requests. -/
def lower : Method → String
  | get => "get"
  | post => "post"
  | put => "put"
  | patch => "patch"
  | delete => "delete"
  | head => "head"
  | options => "options"

/-- Position in the order of methods. -/
def rank : Method → Nat
  | get => 0
  | post => 1
  | put => 2
  | patch => 3
  | delete => 4
  | head => 5
  | options => 6

/-- The method of a name on the wire. -/
def ofUpper? (name : String) : Option Method := all.find? fun m => m.upper == name

/-- Reads a method name, ASCII letters in either case. -/
def parse (text : String) : Except String Method :=
  let name := String.ofList (text.toList.map Char.toUpper)
  match ofUpper? name with
  | some m => .ok m
  | none => .error ("unsupported HTTP method '" ++ name ++ "'")

/-- Reads a stored method, in lower case only. -/
def ofJson? : Json → Option Method := Record.word? (all.map fun m => (m.lower, m))

theorem mem_all (m : Method) : m ∈ all := by cases m <;> decide

theorem rank_injective {a b : Method} (h : a.rank = b.rank) : a = b := by
  revert h
  cases a <;> cases b <;> decide

theorem ofUpper?_upper (m : Method) : ofUpper? m.upper = some m := by cases m <;> decide

end Method

end RouteContract
