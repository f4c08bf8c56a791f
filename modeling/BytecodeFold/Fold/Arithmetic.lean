import BytecodeFold.Fold.Resolve
import BytecodeFold.Fold.Rule

/-!
# Folding arithmetic

Operands and operator become one load of the result from the constant pool. The load takes
the place of the left operand, so branches to it stay valid; what follows the operator is
left alone. A match at the end of a loop is only folded if the loop jumps back to one of
its operands.
-/

namespace BytecodeFold

namespace ArithmeticMatch

/-- The value of an operand after its conversion. -/
def operand (listing : Listing) (pool : ConstantPool) (operand : Handle)
    (conversion : Option Handle) : Except Error (Number × TypeTag) := do
  let (value, type) ← listing.operandValue pool operand
  match conversion.bind listing.get? with
  | some (.convert _ target) => return (value.convert target, target)
  | _ => return (value, type)

/-- Whether the match ends a loop that jumps to neither of its operands. -/
def endsForeignLoop (listing : Listing) (found : ArithmeticMatch) : Bool :=
  match found.loopTail with
  | some (_, jump) =>
    match listing.get? jump with
    | some (.jump target) => target != found.left && target != found.right
    | _ => false
  | none => false

/-- Tries to fold a match. -/
def fold (listing : Listing) (pool : ConstantPool) (found : ArithmeticMatch) :
    Except Error Attempt := do
  let (left, leftType) ← operand listing pool found.left found.leftConversion
  let (right, rightType) ← operand listing pool found.right found.rightConversion
  if found.endsForeignLoop listing then
    return .skipped "loop increment follows the operation"
  let some (.arithmetic op _) := listing.get? found.operator
    | throw (.invalidOperand s!"{found.operator.text} is not an arithmetic instruction")
  let type := leftType.join rightType
  let some result ← Number.evaluate op left right type
    | return .skipped "integer division by zero"
  replaceSegment listing found.left found.operator do
    let (added, pool) := pool.addNumber result
    return (.loadConstant (← added) type.isWide, pool,
      s!"{type.mnemonicLetter}{op.name} {left.text} {right.text} -> {result.text}")

end ArithmeticMatch

/-- The fold of arithmetic on literals. -/
def arithmeticFold : FoldRule ArithmeticMatch where
  name := "arithmetic"
  description :=
    "Replaces arithmetic on constant operands with a constant pool load of the result"
  shortest := 3
  event := .constantFolded
  matchAt? := ArithmeticMatch.at?
  attempt := ArithmeticMatch.fold

end BytecodeFold
