/-!
# Binary floating-point formats

A number of a binary interchange format is its bit pattern. `Binary.datum` reads the
pattern as a sign, a significand and an exponent; `Binary.ofMagnitude` writes one.

The patterns of one sign are ordered like the numbers they stand for, and the pattern of
`m * 2 ^ q` is `(q - minExponent) * 2 ^ (precision - 1) + m`, for subnormal and normal
numbers alike. A significand that rounding carried up to `2 ^ precision` therefore moves
to the next exponent by itself.
-/

namespace BytecodeFold

/-- A format with `precision` significant bits, the leading one counted, and
`exponentBits` bits of exponent. -/
structure Format where
  precision : Nat
  exponentBits : Nat

namespace Format

def single : Format := ⟨24, 8⟩

def double : Format := ⟨53, 11⟩

def width (f : Format) : Nat := f.precision + f.exponentBits

def bias (f : Format) : Nat := Nat.pow 2 (f.exponentBits - 1) - 1

/-- The exponent of the last place of the smallest numbers. -/
def minExponent (f : Format) : Int := 2 - (f.bias : Int) - (f.precision : Int)

/-- The pattern of the sign bit alone. -/
def signBit (f : Format) : Nat := Nat.pow 2 (f.width - 1)

/-- The pattern of positive infinity: every exponent bit set, no other. -/
def infinityMagnitude (f : Format) : Nat :=
  (Nat.pow 2 f.exponentBits - 1) * Nat.pow 2 (f.precision - 1)

end Format

/-- A number of format `f`, given by its bits. -/
structure Binary (f : Format) where
  bits : BitVec f.width
  deriving DecidableEq

abbrev Binary32 := Binary Format.single

abbrev Binary64 := Binary Format.double

/-- What a bit pattern stands for. A finite datum is `±significand * 2 ^ exponent`. -/
inductive Datum where
  | nan
  | infinity (negative : Bool)
  | finite (negative : Bool) (significand : Nat) (exponent : Int)
  deriving DecidableEq

namespace Binary

variable {f : Format}

/-- The pattern with this sign and these remaining bits. -/
def ofMagnitude (f : Format) (negative : Bool) (magnitude : Nat) : Binary f :=
  ⟨BitVec.ofNat f.width (magnitude + if negative then f.signBit else 0)⟩

def zero (f : Format) (negative : Bool) : Binary f := ofMagnitude f negative 0

def infinity (f : Format) (negative : Bool) : Binary f :=
  ofMagnitude f negative f.infinityMagnitude

/-- The quiet NaN with no payload. The language leaves the sign and the payload of a computed NaN
open, and they may differ from one evaluation to the next. One choice is taken here, so that every
operation has a result. -/
def nan (f : Format) : Binary f :=
  ofMagnitude f false (f.infinityMagnitude + Nat.pow 2 (f.precision - 2))

def isNegative (x : Binary f) : Bool := f.signBit ≤ x.bits.toNat

/-- The bits below the sign. -/
def magnitude (x : Binary f) : Nat := x.bits.toNat % f.signBit

def datum (x : Binary f) : Datum :=
  let hidden := Nat.pow 2 (f.precision - 1)
  let field := x.magnitude / hidden
  let fraction := x.magnitude % hidden
  if f.infinityMagnitude < x.magnitude then .nan
  else if x.magnitude = f.infinityMagnitude then .infinity x.isNegative
  else if field = 0 then .finite x.isNegative fraction f.minExponent
  else .finite x.isNegative (hidden + fraction) (f.minExponent + ((field : Int) - 1))

def isNaN (x : Binary f) : Bool := f.infinityMagnitude < x.magnitude

/-- The number with the other sign. -/
def neg (x : Binary f) : Binary f := ofMagnitude f (!x.isNegative) x.magnitude

end Binary

end BytecodeFold
