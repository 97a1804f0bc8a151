import RouteContract.Decimal.Binary64
import RouteContract.Entries

/-!
# Json -- values with ordered members and two kinds of numbers

An object keeps its members in insertion order. A number is a 64-bit integer or a double, and the
two stay apart: `1` and `1.0` are different literals. `Json.same` is equality of values, blind to
the order of members; `Json.literalsEqual` compares two numbers as doubles as soon as one of them is
a double, and is the equality used for literals of a schema.
-/

namespace RouteContract

/-! ## Numbers -/

/-- A JSON number. Readers make integers only in the range of `Number.leastInt` to
`Number.greatestInt`. -/
inductive Number where
  /-- A literal without point and exponent. -/
  | int (value : Int)
  /-- Any other literal. -/
  | float (value : Binary64)
deriving DecidableEq

namespace Number

/-- The least integer literal: the least signed 64-bit number. -/
def leastInt : Int := -0x8000000000000000

/-- The greatest integer literal: the greatest unsigned 64-bit number. -/
def greatestInt : Int := 0xFFFFFFFFFFFFFFFF

/-- Integers lie in the range of literals. -/
def InRange : Number → Prop
  | .int n => leastInt ≤ n ∧ n ≤ greatestInt
  | .float _ => True

/-- Equality of literals: integers and doubles are never equal, the two zeros are. -/
def same : Number → Number → Bool
  | .int a, .int b => a == b
  | .float a, .float b => a.same b
  | _, _ => false

/-- The nearest double. Integers in range always have one. -/
def toBinary64? : Number → Option Binary64
  | .int n => Binary64.ofInt? n
  | .float x => some x

/-- Equality by value once a double is involved: both numbers are rounded to doubles first. -/
def sameValue : Number → Number → Bool
  | .int a, .int b => a == b
  | a, b =>
    match a.toBinary64?, b.toBinary64? with
    | some x, some y => x.same y
    | none, none => true
    | _, _ => false

/-- Strictly greater than zero. -/
def isPositive : Number → Bool
  | .int n => decide (0 < n)
  | .float x => x.isPositive

theorem same_refl (n : Number) : n.same n = true := by
  cases n with
  | int a => simp [same]
  | float x => exact Binary64.same_refl x

end Number

/-! ## Values -/

/-- A JSON value. -/
inductive Json where
  | null
  | bool (value : Bool)
  | num (value : Number)
  | str (value : String)
  | arr (elements : List Json)
  | obj (members : List (String × Json))

instance : Inhabited Json := ⟨.null⟩

namespace Json

/-- A whole number as a value. -/
def ofNat (n : Nat) : Json := .num (.int n)

/-- An object whose absent members are left out. -/
def ofFields (fields : List (String × Option Json)) : Json :=
  .obj (fields.filterMap fun f => f.2.map fun v => (f.1, v))

def isBool : Json → Bool
  | .bool _ => true
  | _ => false

def isNumber : Json → Bool
  | .num _ => true
  | _ => false

def isString : Json → Bool
  | .str _ => true
  | _ => false

/-- The members, if the value is an object. -/
def members? : Json → Option (Entries Json)
  | .obj ms => some ms
  | _ => none

/-- The elements, if the value is an array. -/
def elements? : Json → Option (List Json)
  | .arr xs => some xs
  | _ => none

/-- The text, if the value is a string. -/
def string? : Json → Option String
  | .str s => some s
  | _ => none

/-- The word for the type of a value. -/
def typeName : Json → String
  | .null => "null"
  | .bool _ => "boolean"
  | .num _ => "number"
  | .str _ => "string"
  | .arr _ => "array"
  | .obj _ => "object"

/-! ## Depth and well-formedness -/

mutual

/-- Number of containers around the innermost value. -/
def depth : Json → Nat
  | .arr xs => depthElements xs + 1
  | .obj ms => depthMembers ms + 1
  | _ => 0

/-- Greatest depth of the elements. -/
def depthElements : List Json → Nat
  | [] => 0
  | x :: rest => max (depth x) (depthElements rest)

/-- Greatest depth of the member values. -/
def depthMembers : List (String × Json) → Nat
  | [] => 0
  | (_, v) :: rest => max (depth v) (depthMembers rest)

end

theorem depth_lt_of_mem_elements {x : Json} {xs : List Json} (h : x ∈ xs) :
    depth x < depth (.arr xs) := by
  have : depth x ≤ depthElements xs := by
    induction h with
    | head rest => exact Nat.le_max_left _ _
    | tail y _ ih => exact Nat.le_trans ih (Nat.le_max_right _ _)
  simp only [depth]
  omega

theorem depth_lt_of_mem_members {m : String × Json} {ms : List (String × Json)} (h : m ∈ ms) :
    depth m.2 < depth (.obj ms) := by
  have : depth m.2 ≤ depthMembers ms := by
    induction h with
    | head rest => exact Nat.le_max_left _ _
    | tail y _ ih => exact Nat.le_trans ih (Nat.le_max_right _ _)
  simp only [depth]
  omega

/-- Induction over a value with the hypothesis for every element and every member. -/
@[elab_as_elim, induction_eliminator]
theorem induct {P : Json → Prop} (null : P .null) (bool : ∀ b, P (.bool b)) (num : ∀ n, P (.num n))
    (str : ∀ s, P (.str s)) (arr : ∀ xs, (∀ x ∈ xs, P x) → P (.arr xs))
    (obj : ∀ ms, (∀ m ∈ ms, P m.2) → P (.obj ms)) (v : Json) : P v := by
  refine @Json.rec P (fun xs => ∀ x ∈ xs, P x) (fun ms => ∀ m ∈ ms, P m.2) (fun m => P m.2)
    null bool num str arr obj ?_ ?_ ?_ ?_ ?_ v
  · simp
  · intro x xs hx hxs y hy
    rcases List.mem_cons.1 hy with rfl | hy
    · exact hx
    · exact hxs y hy
  · simp
  · intro m ms hm hms y hy
    rcases List.mem_cons.1 hy with rfl | hy
    · exact hm
    · exact hms y hy
  · exact fun _ _ h => h

mutual

/-- Every object inside the value has distinct names, and every integer is in range. -/
def WellFormed : Json → Prop
  | .num n => n.InRange
  | .arr xs => WellFormedElements xs
  | .obj ms => Entries.Distinct ms ∧ WellFormedMembers ms
  | _ => True

/-- All elements are well-formed. -/
def WellFormedElements : List Json → Prop
  | [] => True
  | x :: rest => WellFormed x ∧ WellFormedElements rest

/-- All member values are well-formed. -/
def WellFormedMembers : List (String × Json) → Prop
  | [] => True
  | (_, v) :: rest => WellFormed v ∧ WellFormedMembers rest

end

/-! ## Equality -/

mutual

/-- Equality of values, blind to the order of object members. -/
def same : Json → Json → Bool
  | .null, .null => true
  | .bool a, .bool b => a == b
  | .num a, .num b => a.same b
  | .str a, .str b => a == b
  | .arr xs, .arr ys => sameElements xs ys
  | .obj ms, .obj ns => ms.length == ns.length && sameMembers ms ns
  | _, _ => false

/-- Equality element by element. -/
def sameElements : List Json → List Json → Bool
  | [], [] => true
  | x :: xs, y :: ys => same x y && sameElements xs ys
  | _, _ => false

/-- Every member on the left has an equal one of its name on the right. -/
def sameMembers : List (String × Json) → List (String × Json) → Bool
  | [], _ => true
  | (k, v) :: rest, ns =>
    match Entries.get? ns k with
    | some w => same v w && sameMembers rest ns
    | none => false

end

/-- Equality of literals: like `same`, except that two numbers at the top are compared by value, so
`1` matches `1.0`. Numbers inside arrays and objects are compared as literals. -/
def literalsEqual : Json → Json → Bool
  | .num a, .num b => a.sameValue b
  | a, b => same a b

end Json

end RouteContract
