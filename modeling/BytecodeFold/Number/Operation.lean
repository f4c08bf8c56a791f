import BytecodeFold.Error
import BytecodeFold.Number.Conversion

/-!
# Arithmetic and comparison of numbers

`evaluate` computes the result of an arithmetic instruction on literals. Sums, products,
quotients and remainders are computed in `double` and brought back to the result type, so
integer results that leave the type's range are clamped. Bitwise operations and shifts work
on the words themselves.
-/

namespace BytecodeFold

/-- The operators of arithmetic instructions. -/
inductive ArithmeticOp where
  | add
  | sub
  | mul
  | div
  | rem
  | shl
  | shr
  | ushr
  | and
  | or
  | xor
  deriving DecidableEq

namespace ArithmeticOp

def all : List ArithmeticOp := [add, sub, mul, div, rem, shl, shr, ushr, and, or, xor]

theorem mem_all (op : ArithmeticOp) : op ∈ all := by
  cases op <;> decide

def name : ArithmeticOp → String
  | add => "add"
  | sub => "sub"
  | mul => "mul"
  | div => "div"
  | rem => "rem"
  | shl => "shl"
  | shr => "shr"
  | ushr => "ushr"
  | and => "and"
  | or => "or"
  | xor => "xor"

def isShift : ArithmeticOp → Bool
  | shl | shr | ushr => true
  | _ => false

/-- The operators on words, which floating-point types do not have. -/
def isBitwise : ArithmeticOp → Bool
  | shl | shr | ushr | and | or | xor => true
  | _ => false

end ArithmeticOp

/-- The instructions that compare two numbers three ways. The last letter says which way an
unordered pair goes. -/
inductive CompareKind where
  | lcmp
  | fcmpl
  | fcmpg
  | dcmpl
  | dcmpg
  deriving DecidableEq

namespace CompareKind

def all : List CompareKind := [lcmp, fcmpl, fcmpg, dcmpl, dcmpg]

def operandType : CompareKind → TypeTag
  | lcmp => .long
  | fcmpl | fcmpg => .float
  | dcmpl | dcmpg => .double

/-- The result for an unordered pair. -/
def unorderedResult : CompareKind → Int
  | fcmpg | dcmpg => 1
  | _ => -1

def mnemonic : CompareKind → String
  | lcmp => "lcmp"
  | fcmpl => "fcmpl"
  | fcmpg => "fcmpg"
  | dcmpl => "dcmpl"
  | dcmpg => "dcmpg"

end CompareKind

/-- The six order relations. -/
inductive Relation where
  | eq
  | ne
  | lt
  | ge
  | gt
  | le
  deriving DecidableEq

namespace Relation

def all : List Relation := [eq, ne, lt, ge, gt, le]

theorem mem_all (relation : Relation) : relation ∈ all := by
  cases relation <;> decide

def suffix : Relation → String
  | eq => "eq"
  | ne => "ne"
  | lt => "lt"
  | ge => "ge"
  | gt => "gt"
  | le => "le"

/-- Whether the relation holds of two operands in this order. -/
def holds : Relation → Ordering → Bool
  | eq, order => order == .eq
  | ne, order => order != .eq
  | lt, order => order == .lt
  | ge, order => order != .lt
  | gt, order => order == .gt
  | le, order => order != .gt

end Relation

/-- The type in which two operands meet: the first of `double`, `float`, `long` that one of
them has, else `int`. -/
def TypeTag.join (left right : TypeTag) : TypeTag :=
  let either (tag : TypeTag) : Bool := left = tag || right = tag
  if either .double then .double
  else if either .float then .float
  else if either .long then .long
  else .int

namespace Number

/-- A shift or bitwise operation on 32-bit words. The distance of a shift is taken
modulo 32. -/
def bitwise32 (op : ArithmeticOp) (left right : Int32) : Int32 :=
  match op with
  | .and => left &&& right
  | .or => left ||| right
  | .xor => left ^^^ right
  | .shl => left <<< right
  | .shr => left >>> right
  | _ => (left.toUInt32 >>> right.toUInt32).toInt32

/-- A shift or bitwise operation on 64-bit words. The distance of a shift is taken
modulo 64. -/
def bitwise64 (op : ArithmeticOp) (left right : Int64) : Int64 :=
  match op with
  | .and => left &&& right
  | .or => left ||| right
  | .xor => left ^^^ right
  | .shl => left <<< right
  | .shr => left >>> right
  | _ => (left.toUInt64 >>> right.toUInt64).toInt64

def bitwise (op : ArithmeticOp) (left right : Number) (type : TypeTag) : Except Error Number :=
  match type.promote with
  | .int => .ok (.int (bitwise32 op left.toInt right.toInt))
  | .long => .ok (.long (bitwise64 op left.toLong right.toLong))
  | other => .error (.unsupportedOperation s!"{op.name} on {other.text} operands")

/-- The result of `left op right` in `type`. There is none for an integral division by
zero, which has to throw when the code runs. -/
def evaluate (op : ArithmeticOp) (left right : Number) (type : TypeTag) :
    Except Error (Option Number) :=
  let l := left.toDouble
  let r := right.toDouble
  let inDouble (value : Binary64) : Except Error (Option Number) := .ok (some (ofDouble value type))
  let divisorIsZero := type.isIntegral && r.numericallyEqual (.zero .double false)
  match op with
  | .add => inDouble (l.add r)
  | .sub => inDouble (l.sub r)
  | .mul => inDouble (l.mul r)
  | .div => if divisorIsZero then .ok none else inDouble (l.div r)
  | .rem => if divisorIsZero then .ok none else inDouble (l.rem r)
  | _ => (bitwise op left right type).map some

/-- The three-way comparison of two numbers: `1`, `0` or `-1`. -/
def compareThreeWay (kind : CompareKind) (left right : Number) : Int :=
  let order : Option Ordering :=
    match kind.operandType with
    | .long => some (compare left.toLong.toInt right.toLong.toInt)
    | .float => left.toFloat.compare right.toFloat
    | _ => left.toDouble.compare right.toDouble
  match order with
  | some .gt => 1
  | some .eq => 0
  | some .lt => -1
  | none => kind.unorderedResult

end Number

end BytecodeFold
