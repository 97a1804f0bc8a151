import RouteContract.Decimal.Binary64

/-!
# Decimal literals

Two readers for numbers in text: whole numbers of 64 bits (`Decimal.int64?`) and decimals with an
optional point and exponent (`Decimal.binary64?`). Both accept a leading `+` or `-` and ASCII digits
only. Neither trims: blanks are the caller's business.
-/

namespace RouteContract.Decimal

/-- Value of a decimal digit. -/
def digit? (c : Char) : Option Nat :=
  if '0' ≤ c ∧ c ≤ '9' then some (c.toNat - '0'.toNat) else none

/-- Whether a character is one of `0` to `9`. -/
def isDigit (c : Char) : Bool := (digit? c).isSome

/-- Value of a digit sequence, read from the left. -/
def natOfDigits (cs : List Char) : Nat :=
  cs.foldl (fun n c => 10 * n + (digit? c).getD 0) 0

/-- Splits off an optional sign; true means negative. -/
def splitSign : List Char → Bool × List Char
  | '-' :: rest => (true, rest)
  | '+' :: rest => (false, rest)
  | cs => (false, cs)

/-- An optional sign and one or more digits. -/
def int? (cs : List Char) : Option Int :=
  let (negative, ds) := splitSign cs
  if ds.isEmpty || !ds.all isDigit then none
  else some (if negative then -(natOfDigits ds : Int) else natOfDigits ds)

/-- The least signed 64-bit number. -/
def leastInt64 : Int := -0x8000000000000000

/-- The greatest signed 64-bit number. -/
def greatestInt64 : Int := 0x7FFFFFFFFFFFFFFF

/-- A whole number that fits 64 bits with a sign. -/
def int64? (cs : List Char) : Option Int :=
  (int? cs).filter fun n => decide (leastInt64 ≤ n) && decide (n ≤ greatestInt64)

/-- A decimal literal `± digits * 10 ^ exponent`. -/
structure Scientific where
  /-- Whether a minus sign was written. -/
  negative : Bool
  /-- All digits written, the point left out. -/
  digits : Nat
  /-- Written exponent less the number of digits after the point. -/
  exponent : Int

/-- The exponent part: nothing, or `e` or `E` and a whole number. -/
def exponent? : List Char → Option Int
  | [] => some 0
  | c :: rest => if c = 'e' || c = 'E' then int? rest else none

/-- Sign, digits, an optional point with digits, and an optional exponent. At least one digit has to
stand before the exponent, on either side of the point. -/
def scientific? (cs : List Char) : Option Scientific := do
  let (negative, body) := splitSign cs
  let whole := body.takeWhile isDigit
  let rest := body.dropWhile isDigit
  let (fraction, tail) := match rest with
    | '.' :: after => (after.takeWhile isDigit, after.dropWhile isDigit)
    | _ => ([], rest)
  if whole.isEmpty && fraction.isEmpty then none
  else
    let exponent ← exponent? tail
    some ⟨negative, natOfDigits (whole ++ fraction), exponent - fraction.length⟩

/-- The double nearest to a decimal literal; a literal beyond the format's range is refused. -/
def binary64? (cs : List Char) : Option Binary64 := do
  let s ← scientific? cs
  Binary64.ofDecimal? s.negative s.digits s.exponent

end RouteContract.Decimal
