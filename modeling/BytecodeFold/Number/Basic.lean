import BytecodeFold.Decimal.Shortest
import BytecodeFold.TypeTag

/-!
# Numbers

The literals the machine computes with: two widths of wrapping integers and two binary
floating-point formats. Two numbers are equal when they have the same kind and the same
bits, so the zeros of one format differ and not-a-number equals itself.
-/

namespace BytecodeFold

inductive Number where
  | int (value : Int32)
  | long (value : Int64)
  | float (value : Binary32)
  | double (value : Binary64)
  deriving DecidableEq

namespace Number

/-- The type the number has by itself. -/
def naturalType : Number → TypeTag
  | int _ => .int
  | long _ => .long
  | float _ => .float
  | double _ => .double

/-- The number in decimal, with a letter for every kind but `int`. -/
def text : Number → String
  | int value => toString value.toInt
  | long value => toString value.toInt ++ "L"
  | float value => value.text ++ "F"
  | double value => value.text ++ "D"

end Number

end BytecodeFold
