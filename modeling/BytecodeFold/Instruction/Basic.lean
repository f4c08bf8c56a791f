import BytecodeFold.Handle
import BytecodeFold.Number.Operation
import BytecodeFold.Opcode.Table

/-!
# Instructions

The instructions the folds look into are spelled out; all others are kept byte for byte.
`Instruction τ` names the targets of branches by values of `τ`: offsets while a code array
is read, handles in a listing.
-/

namespace BytecodeFold

/-- The condition of a branch. -/
inductive Condition where
  /-- One `int` against zero. -/
  | zero (relation : Relation)
  | intCompare (relation : Relation)
  | refEqual
  | refNotEqual
  | null
  | nonNull
  deriving DecidableEq

namespace Condition

def all : List Condition :=
  Relation.all.map zero ++ Relation.all.map intCompare ++ [refEqual, refNotEqual, null, nonNull]

theorem mem_all (condition : Condition) : condition ∈ all := by
  cases condition <;> simp [all, Relation.mem_all]

def operandCount : Condition → Nat
  | zero _ | null | nonNull => 1
  | intCompare _ | refEqual | refNotEqual => 2

def isReference : Condition → Bool
  | refEqual | refNotEqual | null | nonNull => true
  | zero _ | intCompare _ => false

end Condition

inductive SwitchKind where
  /-- Consecutive keys, given by the first and the last. -/
  | table
  /-- Sorted keys, each given with its target. -/
  | lookup
  deriving DecidableEq

/-- The slots an instruction takes from the operand stack and then puts on it. -/
structure StackEffect where
  pops : Nat
  pushes : Nat
  deriving DecidableEq

/-- By how much the depth changes. -/
def StackEffect.net (effect : StackEffect) : Int := (effect.pushes : Int) - (effect.pops : Int)

/-- An instruction that is kept byte for byte, with what is known of it. -/
structure Verbatim where
  opcode : UInt8
  wide : Bool
  operands : List UInt8
  stack : StackEffect
  flow : FlowType
  deriving DecidableEq

namespace Verbatim

/-- The instruction of an opcode without operands. -/
def simple? (opcode : UInt8) : Option Verbatim :=
  match Opcode.info? opcode with
  | some info =>
    if info.operands = .none then
      some ⟨opcode, false, [], ⟨info.pops, info.pushes⟩, info.flow⟩
    else none
  | none => none

/-- The local that a `ret` takes its return address from. -/
def retSlot? (code : Verbatim) : Option UInt16 :=
  if code.opcode = Opcode.ret then
    match code.operands with
    | [slot] => some slot.toUInt16
    | [high, low] => some (high.toUInt16 * 256 + low.toUInt16)
    | _ => none
  else none

end Verbatim

/-- An instruction whose targets are named by values of `τ`. -/
inductive Instruction (τ : Type) where
  | push (value : Number) (type : TypeTag)
  /-- A constant of the pool; `wide` ones take two slots. -/
  | loadConstant (index : UInt16) (wide : Bool)
  | load (slot : UInt16) (type : TypeTag)
  | store (slot : UInt16) (type : TypeTag)
  | convert (source target : TypeTag)
  | arithmetic (op : ArithmeticOp) (type : TypeTag)
  | compare (kind : CompareKind)
  | branch (condition : Condition) (target : τ)
  | jump (target : τ)
  | increment (slot : UInt16) (amount : Int16)
  | invokeVirtual (index : UInt16)
  | subroutine (target : τ)
  | switch (kind : SwitchKind) (default : τ) (cases : List (Int32 × τ))
  | other (code : Verbatim)
  deriving DecidableEq

namespace Instruction

variable {τ σ : Type}

/-- The push of an `int`. -/
def intPush (value : Int32) : Instruction τ := push (.int value) .int

def nop : Instruction τ := other ⟨Opcode.nop, false, [], ⟨0, 0⟩, .sequential⟩

/-- Where the instruction can branch to: a switch names its default first. -/
def targets : Instruction τ → List τ
  | branch _ target | jump target | subroutine target => [target]
  | switch _ default cases => default :: cases.map (·.2)
  | _ => []

/-- The instruction with every target replaced. -/
def mapTargets (f : τ → σ) : Instruction τ → Instruction σ
  | push value type => push value type
  | loadConstant index wide => loadConstant index wide
  | load slot type => load slot type
  | store slot type => store slot type
  | convert source target => convert source target
  | arithmetic op type => arithmetic op type
  | compare kind => compare kind
  | branch condition target => branch condition (f target)
  | jump target => jump (f target)
  | increment slot amount => increment slot amount
  | invokeVirtual index => invokeVirtual index
  | subroutine target => subroutine (f target)
  | switch kind default cases => switch kind (f default) (cases.map fun (key, t) => (key, f t))
  | other code => other code

/-- Replaces the targets in order by a computation that may fail. -/
def mapTargetsM (f : τ → Except Error σ) : Instruction τ → Except Error (Instruction σ)
  | push value type => return push value type
  | loadConstant index wide => return loadConstant index wide
  | load slot type => return load slot type
  | store slot type => return store slot type
  | convert source target => return convert source target
  | arithmetic op type => return arithmetic op type
  | compare kind => return compare kind
  | branch condition target => return branch condition (← f target)
  | jump target => return jump (← f target)
  | increment slot amount => return increment slot amount
  | invokeVirtual index => return invokeVirtual index
  | subroutine target => return subroutine (← f target)
  | switch kind default cases => do
    let default ← f default
    return switch kind default (← cases.mapM fun (key, t) => return (key, ← f t))
  | other code => return other code

theorem targets_mapTargets (f : τ → σ) (instruction : Instruction τ) :
    (instruction.mapTargets f).targets = instruction.targets.map f := by
  cases instruction <;> simp [mapTargets, targets]

/-- Whether the instruction can branch to a target. -/
def branchesTo [DecidableEq τ] (instruction : Instruction τ) (goal : τ) : Bool :=
  match instruction with
  | branch _ target | jump target | subroutine target => target == goal
  | switch _ default cases => default == goal || cases.any (·.2 == goal)
  | _ => false

@[simp]
theorem branchesTo_eq_true [DecidableEq τ] {instruction : Instruction τ} {goal : τ} :
    instruction.branchesTo goal = true ↔ goal ∈ instruction.targets := by
  cases instruction <;> simp [branchesTo, targets, @eq_comm _ goal]

def flow : Instruction τ → FlowType
  | branch .. => .conditionalBranch
  | jump _ => .unconditionalBranch
  | invokeVirtual _ => .call
  | subroutine _ => .subroutine
  | switch .. => .switch
  | other code => code.flow
  | _ => .sequential

/-- Whether control can go on to the next instruction of the stream. -/
def fallsThrough (instruction : Instruction τ) : Bool :=
  match instruction.flow with
  | .unconditionalBranch | .methodReturn | .switch | .throw | .subroutineReturn => false
  | _ => true

/-- The first local the instruction touches and how many slots it touches there. -/
def localSlot? : Instruction τ → Option (UInt16 × Nat)
  | load slot type | store slot type => some (slot, type.slots)
  | increment slot _ => some (slot, 1)
  | other code => code.retSlot?.map (·, 1)
  | _ => none

/-- The stack effect, for all instructions where it does not depend on the constant pool. -/
def stackEffect? : Instruction τ → Option StackEffect
  | push value _ => some ⟨0, value.naturalType.slots⟩
  | loadConstant _ wide => some ⟨0, if wide then 2 else 1⟩
  | load _ type => some ⟨0, type.slots⟩
  | store _ type => some ⟨type.slots, 0⟩
  | convert source target => some ⟨source.slots, target.slots⟩
  | arithmetic op type => some ⟨type.slots + if op.isShift then 1 else type.slots, type.slots⟩
  | compare kind => some ⟨kind.operandType.slots * 2, 1⟩
  | branch condition _ => some ⟨condition.operandCount, 0⟩
  | jump _ | increment .. => some ⟨0, 0⟩
  | subroutine _ => some ⟨0, 1⟩
  | switch .. => some ⟨1, 0⟩
  | invokeVirtual _ => none
  | other code => some code.stack

/-- Whether the instruction only puts a value on the stack: a literal, a constant of the
pool or a local. -/
def isOperand : Instruction τ → Bool
  | push .. | loadConstant .. | load .. => true
  | _ => false

/-- Whether the instruction pushes a literal tagged `int`. -/
def isIntPush : Instruction τ → Bool
  | push _ .int => true
  | _ => false

/-- Whether the instruction is a jump with a short and a long form. -/
def isJump : Instruction τ → Bool
  | jump _ | subroutine _ => true
  | _ => false

end Instruction

end BytecodeFold
