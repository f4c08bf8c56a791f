import BytecodeFold.Binary.Arithmetic
import BytecodeFold.Number.Basic

/-!
# Conversions between kinds of numbers

Integers narrow by dropping high bits. A floating-point number becomes the integer part
toward zero, clamped to the range of the target; not-a-number becomes zero. Conversions to
a floating-point format round to nearest, ties to even.
-/

namespace BytecodeFold

/-- The `int` with the integer part of `x`, clamped. -/
def Binary.toInt32 {f : Format} (x : Binary f) : Int32 :=
  Int32.ofInt (x.truncateClamped (-0x80000000) 0x7FFFFFFF)

/-- The `long` with the integer part of `x`, clamped. -/
def Binary.toInt64 {f : Format} (x : Binary f) : Int64 :=
  Int64.ofInt (x.truncateClamped (-0x8000000000000000) 0x7FFFFFFFFFFFFFFF)

namespace Number

def toDouble : Number → Binary64
  | int value => .ofInt .double value.toInt
  | long value => .ofInt .double value.toInt
  | float value => value.convert .double
  | double value => value

def toFloat : Number → Binary32
  | int value => .ofInt .single value.toInt
  | long value => .ofInt .single value.toInt
  | float value => value
  | double value => value.convert .single

def toLong : Number → Int64
  | int value => value.toInt64
  | long value => value
  | float value => value.toInt64
  | double value => value.toInt64

def toInt : Number → Int32
  | int value => value
  | long value => value.toInt32
  | float value => value.toInt32
  | double value => value.toInt32

/-- Converts to a type. `byte`, `char` and `short` narrow the `int` value and extend it
back, with its sign except for `char`. No number is a reference, so a conversion to one
changes nothing. -/
def convert (number : Number) : TypeTag → Number
  | .int => .int number.toInt
  | .long => .long number.toLong
  | .float => .float number.toFloat
  | .double => .double number.toDouble
  | .byte => .int number.toInt.toInt8.toInt32
  | .char => .int (number.toInt &&& 0xFFFF)
  | .short => .int number.toInt.toInt16.toInt32
  | .reference => number

/-- The number of type `type` nearest to an intermediate result in `double`. -/
def ofDouble (value : Binary64) (type : TypeTag) : Number :=
  match type.promote with
  | .long => .long value.toInt64
  | .float => .float (value.convert .single)
  | .double => .double value
  | _ => .int value.toInt32

end Number

end BytecodeFold
