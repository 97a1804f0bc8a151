import RouteContract.Json.Value
import RouteContract.Text.Blank

/-!
# Request ids

A request keeps the id that its `x-request-id` header carries, and gets a fresh one otherwise. Fresh
ids are UUIDs of version 7: the time in milliseconds, then random bits.
-/

namespace RouteContract

/-- Identifies one request. -/
structure RequestId where
  /-- The id as text. -/
  text : String
deriving DecidableEq

namespace RequestId

/-- Name of the header that carries an id. -/
def header : String := "x-request-id"

/-- The lowest hexadecimal digits of a number, in lower case. -/
def hexDigits : Nat → Nat → List Char
  | 0, _ => []
  | count + 1, n => hexDigits count (n / 16) ++ [Nat.digitChar (n % 16)]

/-- The UUID of version 7 with the given time and random bits; bits beyond its fields are
dropped. -/
def fresh (milliseconds random : Nat) : RequestId :=
  let time := hexDigits 12 milliseconds
  let low := 0x8000 + random / 0x1000000000000 % 0x4000
  let high := 0x7000 + random / 0x4000000000000000 % 0x1000
  ⟨String.ofList (time.take 8 ++ ['-'] ++ time.drop 8 ++ ['-'] ++ hexDigits 4 high ++ ['-'] ++
    hexDigits 4 low ++ ['-'] ++ hexDigits 12 random)⟩

/-- The id in the headers, blanks around it dropped, or else the given fresh one. -/
def ofHeaders (headers : Entries Json) (fresh : RequestId) : RequestId :=
  match (headers.get? header).bind Json.string? with
  | some s => if (Text.trim s).isEmpty then fresh else ⟨Text.trim s⟩
  | none => fresh

theorem length_hexDigits (count n : Nat) : (hexDigits count n).length = count := by
  induction count generalizing n with
  | zero => rfl
  | succ count ih => simp [hexDigits, ih]

/-- A fresh id always has 36 characters. -/
theorem length_fresh (milliseconds random : Nat) :
    (fresh milliseconds random).text.toList.length = 36 := by
  simp [fresh, length_hexDigits]

end RequestId

end RouteContract
