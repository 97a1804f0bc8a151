import RouteContract.Decimal.Binary64

/-!
# Shortest decimals of doubles

`Binary64.shortest` chooses, among the decimals that round to a given double, one with the fewest
digits and, among those, the nearest. The search runs over decimal grids `10 ^ k` from coarse to
fine: if any point of a grid rounds to the double, then one of the two points next to the double
does, so two candidates a grid are enough.

`DecimalLayout` holds the decisions of a number format (which magnitudes are written positionally),
and `Binary64.text` lays the digits out by them.
-/

namespace RouteContract

namespace Binary64

/-! ## The interval of decimals that round to a double

Everything is counted in quarters of a unit, `2 ^ -1076`, so that the half-way points to both
neighbours are whole numbers. -/

/-- The magnitude in quarter units. -/
def quarters (x : Binary64) : Nat := 4 * x.units

/-- Distance from the double to the half-way point below it; it is smaller at a power of two, where
the neighbour below is only half as far. -/
def gapBelow (x : Binary64) : Nat :=
  if x.mantissa = fullMantissa ∧ x.shift ≠ 0 then Nat.pow 2 x.shift
  else 2 * Nat.pow 2 x.shift

/-- Distance from the double to the half-way point above it. -/
def gapAbove (x : Binary64) : Nat := 2 * Nat.pow 2 x.shift

/-- Whether `num / den` quarter units round to the magnitude of `x`. The half-way points themselves
do when the mantissa is even. -/
def admits (x : Binary64) (num den : Nat) : Bool :=
  if x.mantissa % 2 = 0 then
    decide ((x.quarters - x.gapBelow) * den ≤ num) && decide (num ≤ (x.quarters + x.gapAbove) * den)
  else
    decide ((x.quarters - x.gapBelow) * den < num) && decide (num < (x.quarters + x.gapAbove) * den)

/-! ## The search -/

/-- The point of the grid `10 ^ k` that stands for `x`: of the two points next to `x` one that
rounds to `x`, the nearer if both do, and the even one on a tie. -/
def gridPoint? (x : Binary64) (k : Int) : Option Nat :=
  let step := Nat.pow 10 k.toNat * Nat.pow 2 1076
  let den := Nat.pow 10 (-k).toNat
  let value := x.quarters * den
  let low := value / step
  let lowFits := x.admits (low * step) den
  let highFits := x.admits ((low + 1) * step) den
  if lowFits && highFits then
    some (if Binary64.roundHalfEven value step = low then low else low + 1)
  else if lowFits then some low
  else if highFits then some (low + 1)
  else none

/-- First grid with a point for `x`, from `10 ^ k` down over at most `tries` grids. -/
def searchGrid (x : Binary64) : Nat → Int → Nat × Int
  | 0, k => (x.quarters * Nat.pow 10 (-k).toNat / (Nat.pow 10 k.toNat * Nat.pow 2 1076), k)
  | tries + 1, k =>
    match x.gridPoint? k with
    | some digits => (digits, k)
    | none => searchGrid x tries (k - 1)

/-- Removes the trailing zeros of `digits * 10 ^ k`, at most `limit` of them. -/
def stripZeros : Nat → Nat × Int → Nat × Int
  | 0, d => d
  | limit + 1, (digits, k) =>
    if digits % 10 = 0 then stripZeros limit (digits / 10, k + 1) else (digits, k)

/-- A grid coarser than the leading digit of `x`, by at most two places: with `x < 2 ^ (b + 1)` the
leading digit stands at or below `(b + 1) * log10 2`. -/
def coarseGrid (x : Binary64) : Int :=
  let bits : Int := x.quarters.log2 + 1 - 1076
  bits * 30103 / 100000 + 1

/-- The shortest decimal `digits * 10 ^ k` of a non-zero double; 17 digits always suffice, and the
search starts at most two places too coarse. -/
def shortest (x : Binary64) : Nat × Int :=
  stripZeros 20 (x.searchGrid 20 x.coarseGrid)

end Binary64

/-! ## Layout -/

/-- Which magnitudes are written positionally. The bounds count the decimal exponent of the leading
digit; outside them the text is `d[.ddd]e±N`. -/
structure DecimalLayout where
  /-- Least exponent written positionally. -/
  least : Int
  /-- Greatest exponent written positionally. -/
  greatest : Int

namespace DecimalLayout

/-- The decimal `digits * 10 ^ k` in this layout. A positional text always has a point, and an
exponent always has a sign. -/
def text (layout : DecimalLayout) (digits : Nat) (k : Int) : String :=
  let ds := Nat.toDigits 10 digits
  let point : Int := ds.length + k
  let leading := point - 1
  if layout.least ≤ leading ∧ leading ≤ layout.greatest then
    if 0 ≤ k then String.ofList (ds ++ List.replicate k.toNat '0') ++ ".0"
    else if 0 < point then
      String.ofList (ds.take point.toNat) ++ "." ++ String.ofList (ds.drop point.toNat)
    else "0." ++ String.ofList (List.replicate (-point).toNat '0' ++ ds)
  else
    let fraction := match ds.drop 1 with
      | [] => ""
      | rest => "." ++ String.ofList rest
    let sign := if leading < 0 then "-" else "+"
    String.ofList (ds.take 1) ++ fraction ++ "e" ++ sign ++ toString leading.natAbs

end DecimalLayout

/-- Text of a double: sign, then the shortest digits in the given layout; zero is `0.0`. -/
def Binary64.text (layout : DecimalLayout) (x : Binary64) : String :=
  let magnitude := if x.isZero then "0.0" else layout.text x.shortest.1 x.shortest.2
  if x.negative then "-" ++ magnitude else magnitude

end RouteContract
