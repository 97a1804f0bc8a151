/-!
# Binary64 -- finite double-precision numbers, exactly

Every finite double is a whole number of units of `2 ^ -1074`, so the module works in `Nat` only:
`Binary64` is a sign, a mantissa and a shift, and `Binary64.units` is its magnitude counted in those
units. `Binary64.ofQuotient?` is the one rounding function of the library: it takes a quotient of
natural numbers to the nearest double, a half to the even mantissa, and answers `none` exactly when
the quotient is too large for the format. Decimal literals and integers are rounded through it.
-/

namespace RouteContract

/-- The least mantissa that uses all 53 bits, `2 ^ 52`. -/
def Binary64.fullMantissa : Nat := 0x10000000000000

/-- A finite double: `± mantissa * 2 ^ shift` units of `2 ^ -1074`. The condition makes the
representation unique, apart from the two zeros. -/
structure Binary64 where
  /-- Whether the sign bit is set; a zero has a sign too. -/
  negative : Bool
  /-- Significand, at most 53 bits. -/
  mantissa : Nat
  /-- Binary exponent, counted from the smallest subnormal. -/
  shift : Nat
  /-- The mantissa uses its full width unless the shift is the least one. -/
  canonical : mantissa < 2 * Binary64.fullMantissa ∧ shift ≤ 2045 ∧
    (Binary64.fullMantissa ≤ mantissa ∨ shift = 0)
deriving DecidableEq

namespace Binary64

/-! ## Magnitude and comparison -/

/-- Magnitude in units of `2 ^ -1074`. -/
def units (x : Binary64) : Nat := x.mantissa * Nat.pow 2 x.shift

/-- Both zeros are zero. -/
def isZero (x : Binary64) : Bool := x.mantissa == 0

/-- Equality of the numbers: equal magnitude and, zeros apart, equal sign. -/
def same (x y : Binary64) : Bool :=
  x.units == y.units && (x.negative == y.negative || x.isZero)

/-- Strictly greater than zero. -/
def isPositive (x : Binary64) : Bool := !x.negative && !x.isZero

/-- Zero with a sign. -/
def zero (negative : Bool) : Binary64 :=
  ⟨negative, 0, 0, by decide⟩

theorem same_refl (x : Binary64) : x.same x = true := by
  simp [same]

theorem isZero_iff_units (x : Binary64) : x.isZero = true ↔ x.units = 0 := by
  have : 0 < Nat.pow 2 x.shift := Nat.two_pow_pos _
  rw [isZero, units, beq_iff_eq, Nat.mul_eq_zero]
  omega

/-! ## Rounding -/

/-- The whole number nearest to `num / den`; a half goes to the even neighbour. -/
def roundHalfEven (num den : Nat) : Nat :=
  let low := num / den
  let twice := 2 * (num % den)
  if twice < den then low
  else if den < twice then low + 1
  else if low % 2 = 0 then low else low + 1

/-- A double with the given parts, if they are the canonical parts of one. -/
def ofParts? (negative : Bool) (mantissa shift : Nat) : Option Binary64 :=
  if h : mantissa < 2 * fullMantissa ∧ shift ≤ 2045 ∧ (fullMantissa ≤ mantissa ∨ shift = 0) then
    some ⟨negative, mantissa, shift, h⟩
  else
    none

/-- The double nearest to `± num / den`, a half going to the even mantissa. The shift is the least
one that leaves at most 53 bits; a mantissa that rounds up to `2 ^ 53` is halved. A quotient beyond
the largest double has no answer. -/
def ofQuotient? (negative : Bool) (num den : Nat) : Option Binary64 :=
  let scaled := num * Nat.pow 2 1074
  let shift := (scaled / den).log2 - 52
  let mantissa := roundHalfEven scaled (den * Nat.pow 2 shift)
  if mantissa = 2 * fullMantissa then ofParts? negative fullMantissa (shift + 1)
  else ofParts? negative mantissa shift

/-- The double nearest to an integer. -/
def ofInt? (n : Int) : Option Binary64 :=
  ofQuotient? (decide (n < 0)) n.natAbs 1

/-- The double nearest to `± digits * 10 ^ exponent`. The two guards decide by the bit length alone
what is certainly too large and what certainly rounds to zero (`10 > 2 ^ 3`), so that no power of
ten beyond the format's range is ever computed. -/
def ofDecimal? (negative : Bool) (digits : Nat) (exponent : Int) : Option Binary64 :=
  if digits = 0 then some (zero negative)
  else if 0 ≤ exponent then
    if 1024 ≤ 3 * exponent + digits.log2 then none
    else ofQuotient? negative (digits * Nat.pow 10 exponent.toNat) 1
  else if 3 * exponent + digits.log2 + 1 < -1075 then some (zero negative)
  else ofQuotient? negative digits (Nat.pow 10 (-exponent).toNat)

end Binary64

end RouteContract
