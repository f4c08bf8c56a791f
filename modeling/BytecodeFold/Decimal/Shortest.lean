import BytecodeFold.Binary.Round

/-!
# Shortest decimal digits

A binary number is written with the fewest decimal digits that still read back as it. The
reals that round to `m * 2 ^ q` form an interval around it, which has its ends exactly
when `m` is even. Decimal grids are tried from the coarsest on; a grid has a point in the
interval only if one of the two neighbours of the number on it is such a point. Of two
such neighbours the nearer is taken, and the greater at equal distance.
-/

namespace BytecodeFold

/-- The positive decimal `digits * 10 ^ exponent`. -/
structure Decimal where
  digits : Nat
  exponent : Int
  deriving DecidableEq

/-- The interval of reals that round to a number, in units of `1 / scale`. -/
structure RoundingInterval where
  low : Nat
  value : Nat
  high : Nat
  scale : Nat
  /-- Whether the ends round to the number too. -/
  closed : Bool

namespace RoundingInterval

/-- The interval around the positive number `significand * 2 ^ exponent` of format `f`. The
gap below a power of two is half the gap above it, unless that is the smallest gap. -/
def around (f : Format) (significand : Nat) (exponent : Int) : RoundingInterval :=
  let narrow := significand = Nat.pow 2 (f.precision - 1) ∧ f.minExponent < exponent
  let (factor, scale) := scaleRatio 1 1 (exponent - 2)
  { low := (4 * significand - if narrow then 1 else 2) * factor
    value := 4 * significand * factor
    high := (4 * significand + 2) * factor
    scale := scale
    closed := significand % 2 = 0 }

/-- Whether `n / d` lies in the interval. -/
def contains (interval : RoundingInterval) (n d : Nat) : Bool :=
  if interval.closed then
    interval.low * d ≤ n * interval.scale ∧ n * interval.scale ≤ interval.high * d
  else
    interval.low * d < n * interval.scale ∧ n * interval.scale < interval.high * d

/-- The point of the grid of multiples of `10 ^ exponent` that stands for the interval's
number, if the grid has one. -/
def gridPoint? (interval : RoundingInterval) (exponent : Int) : Option Nat :=
  let step := if 0 ≤ exponent then Nat.pow 10 exponent.toNat else 1
  let unit := if 0 ≤ exponent then 1 else Nat.pow 10 (-exponent).toNat
  let below := interval.value * unit / (step * interval.scale)
  let hasBelow := interval.contains (below * step) unit
  let hasAbove := interval.contains ((below + 1) * step) unit
  let toBelow := interval.value * unit - below * step * interval.scale
  let toAbove := (below + 1) * step * interval.scale - interval.value * unit
  if hasBelow && (!hasAbove || toBelow < toAbove) then some below
  else if hasAbove then some (below + 1)
  else none

/-- The point on the coarsest grid, from `10 ^ exponent` down through `grids` finer ones. -/
def coarsest (interval : RoundingInterval) : Nat → Int → Decimal
  | 0, exponent => ⟨(interval.gridPoint? exponent).getD 0, exponent⟩
  | grids + 1, exponent =>
    match interval.gridPoint? exponent with
    | some digits => ⟨digits, exponent⟩
    | none => coarsest interval grids (exponent - 1)

end RoundingInterval

/-- An exponent such that `10 ^ exponent` is not below `2 ^ bits`. -/
def decimalExponentAbove (bits : Int) : Int := bits * 30103 / 100000 + 1

/-- The shortest decimal that reads back as the positive number `significand * 2 ^ exponent`
of format `f`. A format of `p` bits never needs more than `p` digits. -/
def Decimal.shortest (f : Format) (significand : Nat) (exponent : Int) : Decimal :=
  (RoundingInterval.around f significand exponent).coarsest f.precision
    (decimalExponentAbove ((Nat.log2 significand : Int) + 1 + exponent))

/-- The decimal written out in full, without an exponent. -/
def Decimal.positional (decimal : Decimal) : String :=
  let digits := toString decimal.digits
  if 0 ≤ decimal.exponent then digits ++ "".pushn '0' decimal.exponent.toNat
  else
    let places := (-decimal.exponent).toNat
    let padded := ("".pushn '0' (places + 1 - digits.length)) ++ digits
    let whole := padded.length - places
    String.ofList (padded.toList.take whole) ++ "." ++ String.ofList (padded.toList.drop whole)

/-- The text of a number: shortest digits, written out in full. -/
def Binary.text {f : Format} (x : Binary f) : String :=
  match x.datum with
  | .nan => "NaN"
  | .infinity negative => if negative then "-inf" else "inf"
  | .finite negative significand exponent =>
    (if negative then "-" else "") ++
      if significand = 0 then "0" else (Decimal.shortest f significand exponent).positional

end BytecodeFold
