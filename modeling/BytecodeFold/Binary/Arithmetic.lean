import BytecodeFold.Binary.Round

/-!
# Arithmetic of binary floating-point numbers

Every operation computes the exact result in integers and rounds once. The remainder is
the one of truncating division, which is always exact and takes the sign of the dividend.
-/

namespace BytecodeFold

/-- `±significand * 2 ^ exponent` as an integer number of units `2 ^ unit`, for a `unit`
not above `exponent`. -/
def signedUnits (negative : Bool) (significand : Nat) (exponent unit : Int) : Int :=
  let units : Int := (significand * Nat.pow 2 (exponent - unit).toNat : Nat)
  if negative then -units else units

namespace Datum

/-- The integer part, toward zero. Not-a-number counts as zero, and an infinity lies
beyond the bounds it is clamped to. -/
def truncateClamped (low high : Int) : Datum → Int
  | .nan => 0
  | .infinity true => low
  | .infinity false => high
  | .finite negative significand exponent =>
    let (scaled, unit) := scaleRatio significand 1 exponent
    let whole : Int := (scaled / unit : Nat)
    max low (min high (if negative then -whole else whole))

/-- The order of the numbers; not-a-number is not ordered, and the zeros are equal. -/
def compare : Datum → Datum → Option Ordering
  | .nan, _ | _, .nan => none
  | .infinity a, .infinity b => some (Ord.compare (!a) (!b))
  | .infinity negative, .finite .. => some (if negative then .lt else .gt)
  | .finite .., .infinity negative => some (if negative then .gt else .lt)
  | .finite a m p, .finite b n q =>
    let unit := min p q
    some (Ord.compare (signedUnits a m p unit) (signedUnits b n q unit))

end Datum

namespace Binary

variable {f : Format}

def add (x y : Binary f) : Binary f :=
  match x.datum, y.datum with
  | .nan, _ | _, .nan => nan f
  | .infinity a, .infinity b => if a = b then infinity f a else nan f
  | .infinity a, .finite .. => infinity f a
  | .finite .., .infinity b => infinity f b
  | .finite a m p, .finite b n q =>
    let unit := min p q
    let sum := signedUnits a m p unit + signedUnits b n q unit
    if sum = 0 then zero f (a && b) else ofScaledInt f sum unit

def sub (x y : Binary f) : Binary f := add x y.neg

def mul (x y : Binary f) : Binary f :=
  match x.datum, y.datum with
  | .nan, _ | _, .nan => nan f
  | .infinity a, .infinity b => infinity f (a != b)
  | .infinity a, .finite b n _ | .finite b n _, .infinity a =>
    if n = 0 then nan f else infinity f (a != b)
  | .finite a m p, .finite b n q => round f (a != b) (m * n) 1 (p + q)

def div (x y : Binary f) : Binary f :=
  match x.datum, y.datum with
  | .nan, _ | _, .nan | .infinity _, .infinity _ => nan f
  | .infinity a, .finite b _ _ => infinity f (a != b)
  | .finite a _ _, .infinity b => zero f (a != b)
  | .finite a m p, .finite b n q =>
    if n = 0 then if m = 0 then nan f else infinity f (a != b)
    else round f (a != b) m n (p - q)

/-- The remainder of truncating division, with the sign of the dividend. -/
def rem (x y : Binary f) : Binary f :=
  match x.datum, y.datum with
  | .nan, _ | _, .nan | .infinity _, _ => nan f
  | .finite .., .infinity _ => x
  | .finite a m p, .finite _ n q =>
    if n = 0 then nan f
    else
      let unit := min p q
      let dividend := m * Nat.pow 2 (p - unit).toNat
      let divisor := n * Nat.pow 2 (q - unit).toNat
      round f a (dividend % divisor) 1 unit

def compare (x y : Binary f) : Option Ordering := x.datum.compare y.datum

/-- Numerical equality: not-a-number differs from itself, and the zeros are equal. -/
def numericallyEqual (x y : Binary f) : Bool := compare x y == some .eq

/-- The integer part toward zero, clamped to `low` and `high`. -/
def truncateClamped (x : Binary f) (low high : Int) : Int := x.datum.truncateClamped low high

end Binary

end BytecodeFold
