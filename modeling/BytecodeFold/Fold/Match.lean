import BytecodeFold.Listing.Basic

/-!
# Foldable shapes

The folds look for two shapes in the stream. Only the kinds of the instructions count;
whether the operands are literals is found out later.

* Arithmetic: operand, conversion?, operand, conversion?, operator, then any number of
  `invokevirtual`s, then any number of increment and jump pairs.
* Comparison: operand, operand, comparison?, branch, `int` push, jump, `int` push. The
  branch goes to the second push and the jump to the instruction after it. The branch
  takes one operand after a comparison and two without one.
-/

namespace BytecodeFold

/-- An occurrence of the arithmetic shape. -/
structure ArithmeticMatch where
  left : Handle
  leftConversion : Option Handle
  right : Handle
  rightConversion : Option Handle
  operator : Handle
  /-- The last increment and jump of the match. -/
  loopTail : Option (Handle × Handle)
  /-- The last instruction of the match. -/
  last : Handle
  deriving DecidableEq

/-- An occurrence of the comparison shape. -/
structure ComparisonMatch where
  left : Handle
  right : Handle
  comparison : Option Handle
  branch : Handle
  /-- The push that is reached when the branch is not taken. -/
  fallthroughPush : Handle
  jump : Handle
  /-- The push the branch goes to, which ends the match. -/
  targetPush : Handle
  deriving DecidableEq

namespace Instruction

variable {τ : Type}

def isConversion : Instruction τ → Bool
  | convert .. => true
  | _ => false

def isComparison : Instruction τ → Bool
  | compare _ => true
  | _ => false

def isArithmetic : Instruction τ → Bool
  | arithmetic .. => true
  | _ => false

def isInvokeVirtual : Instruction τ → Bool
  | invokeVirtual _ => true
  | _ => false

end Instruction

/-- Splits off the first line if its instruction passes a test. -/
def takeLine? (accept : Instruction Handle → Bool) : List Line → Option (Handle × List Line)
  | line :: rest => if accept line.instruction then some (line.handle, rest) else none
  | [] => none

/-- Splits off the first line if its instruction passes a test, and goes on without it if not. -/
def takeOptional (accept : Instruction Handle → Bool) (lines : List Line) :
    Option Handle × List Line :=
  match takeLine? accept lines with
  | some (handle, rest) => (some handle, rest)
  | none => (none, lines)

/-- The last increment and jump of the pairs that `lines` starts with. -/
def loopTail? : List Line → Option (Handle × Handle) → Option (Handle × Handle)
  | ⟨increment, .increment .., _⟩ :: ⟨jump, .jump _, _⟩ :: rest, _ =>
    loopTail? rest (some (increment, jump))
  | _, found => found

/-- The arithmetic shape at the start of `lines`. -/
def ArithmeticMatch.at? (lines : List Line) : Option ArithmeticMatch := do
  let (left, rest) ← takeLine? Instruction.isOperand lines
  let (leftConversion, rest) := takeOptional Instruction.isConversion rest
  let (right, rest) ← takeLine? Instruction.isOperand rest
  let (rightConversion, rest) := takeOptional Instruction.isConversion rest
  let (operator, rest) ← takeLine? Instruction.isArithmetic rest
  let invocations := rest.takeWhile (·.instruction.isInvokeVirtual)
  let loopTail := loopTail? (rest.dropWhile (·.instruction.isInvokeVirtual)) none
  let last := match loopTail, invocations.getLast? with
    | some (_, jump), _ => jump
    | none, some invocation => invocation.handle
    | none, none => operator
  return { left, leftConversion, right, rightConversion, operator, loopTail, last }

/-- The branch, the two pushes and the jump of a comparison, from the branch on. -/
def ComparisonMatch.selection? (operandCount : Nat) :
    List Line → Option (Handle × Handle × Handle × Handle)
  | ⟨branch, .branch condition target, _⟩ :: first :: ⟨jump, .jump past, _⟩ :: second ::
      after :: _ =>
    if condition.operandCount = operandCount && first.instruction.isIntPush &&
        second.instruction.isIntPush && target = second.handle && past = after.handle then
      some (branch, first.handle, jump, second.handle)
    else none
  | _ => none

/-- The comparison shape at the start of `lines`. -/
def ComparisonMatch.at? (lines : List Line) : Option ComparisonMatch := do
  let (left, rest) ← takeLine? Instruction.isOperand lines
  let (right, rest) ← takeLine? Instruction.isOperand rest
  let (comparison, rest) := takeOptional Instruction.isComparison rest
  let (branch, fallthroughPush, jump, targetPush) ←
    selection? (if comparison.isSome then 1 else 2) rest
  return { left, right, comparison, branch, fallthroughPush, jump, targetPush }

/-- The first match that starts at or after the head of `lines`. -/
def findMatch? {α : Type} (matchAt? : List Line → Option α) : List Line → Option α
  | [] => none
  | line :: rest => match matchAt? (line :: rest) with
    | some found => some found
    | none => findMatch? matchAt? rest

namespace Listing

def matchArithmetic? (listing : Listing) (start : Handle) : Option ArithmeticMatch :=
  ArithmeticMatch.at? (listing.linesFrom start)

def matchComparison? (listing : Listing) (start : Handle) : Option ComparisonMatch :=
  ComparisonMatch.at? (listing.linesFrom start)

/-- The first arithmetic match from a handle on. -/
def findArithmetic? (listing : Listing) (start : Handle) : Option ArithmeticMatch :=
  findMatch? ArithmeticMatch.at? (listing.linesFrom start)

/-- The first comparison match from a handle on. -/
def findComparison? (listing : Listing) (start : Handle) : Option ComparisonMatch :=
  findMatch? ComparisonMatch.at? (listing.linesFrom start)

end Listing

end BytecodeFold
