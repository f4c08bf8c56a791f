import BytecodeFold.Binary.Format

/-!
# Rounding to nearest, ties to even

`Binary.round` gives the number of a format that is nearest to a positive rational times
a power of two. It keeps `precision` bits, fewer below the smallest normal number, and
goes to infinity above the largest finite one.
-/

namespace BytecodeFold

/-- The integer nearest to `n / d`, the even one of two. -/
def divNearest (n d : Nat) : Nat :=
  let quotient := n / d
  let twice := 2 * (n % d)
  if twice < d then quotient
  else if d < twice then quotient + 1
  else quotient + quotient % 2

/-- `n * 2 ^ shift` over `d`, the power of two on whichever side keeps it whole. -/
def scaleRatio (n d : Nat) (shift : Int) : Nat × Nat :=
  if 0 ≤ shift then (n * Nat.pow 2 shift.toNat, d) else (n, d * Nat.pow 2 (-shift).toNat)

/-- The exponent of the leading bit of `n / d`, for positive `n` and `d`. -/
def leadingExponent (n d : Nat) : Int :=
  let guess : Int := (Nat.log2 n : Int) - (Nat.log2 d : Int)
  let (scaled, unit) := scaleRatio n d (-guess)
  if unit ≤ scaled then guess else guess - 1

namespace Binary

/-- The number of format `f` nearest to `n / d * 2 ^ exponent`. -/
def round (f : Format) (negative : Bool) (n d : Nat) (exponent : Int) : Binary f :=
  if n = 0 then zero f negative
  else
    let last := max f.minExponent (exponent + leadingExponent n d - ((f.precision : Int) - 1))
    let (scaled, unit) := scaleRatio n d (exponent - last)
    let magnitude :=
      (last - f.minExponent).toNat * Nat.pow 2 (f.precision - 1) + divNearest scaled unit
    ofMagnitude f negative (min magnitude f.infinityMagnitude)

/-- The number of format `f` nearest to an integer times a power of two. Zero is positive. -/
def ofScaledInt (f : Format) (value : Int) (exponent : Int) : Binary f :=
  round f (value < 0) value.natAbs 1 exponent

/-- The number of format `f` nearest to an integer. -/
def ofInt (f : Format) (value : Int) : Binary f := ofScaledInt f value 0

/-- The nearest number of another format. -/
def convert {f : Format} (g : Format) (x : Binary f) : Binary g :=
  match x.datum with
  | .nan => nan g
  | .infinity negative => infinity g negative
  | .finite negative significand exponent => round g negative significand 1 exponent

end Binary

end BytecodeFold
