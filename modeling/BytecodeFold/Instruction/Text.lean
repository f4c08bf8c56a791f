import BytecodeFold.Instruction.Basic

/-!
# Opcodes and text of instructions

The opcode of an instruction is found from its family and the type it works on. The text
of an instruction is its mnemonic followed by its main operand.
-/

namespace BytecodeFold

def Relation.index : Relation → UInt8
  | eq => 0
  | ne => 1
  | lt => 2
  | ge => 3
  | gt => 4
  | le => 5

def Condition.opcode : Condition → UInt8
  | zero relation => Opcode.ifeq + relation.index
  | intCompare relation => Opcode.ifIcmpeq + relation.index
  | refEqual => Opcode.ifAcmpeq
  | refNotEqual => Opcode.ifAcmpne
  | null => Opcode.ifnull
  | nonNull => Opcode.ifnonnull

def Condition.mnemonic (condition : Condition) : String := Opcode.mnemonic condition.opcode

def CompareKind.opcode : CompareKind → UInt8
  | lcmp => Opcode.lcmp
  | fcmpl => Opcode.lcmp + 1
  | fcmpg => Opcode.lcmp + 2
  | dcmpl => Opcode.lcmp + 3
  | dcmpg => Opcode.lcmp + 4

/-- The place of an operator in its family. The arithmetic family and the family of shifts
and bitwise operators start at opcodes of their own. -/
def ArithmeticOp.index : ArithmeticOp → UInt8
  | add | shl => 0
  | sub | shr => 1
  | mul | ushr => 2
  | div | and => 3
  | rem | or => 4
  | xor => 5

/-- The opcode of an operator on a type. Shifts and bitwise operators exist for `int` and
`long` only; other types count as `long` there, and a reference counts as `int`. -/
def ArithmeticOp.opcode (op : ArithmeticOp) (type : TypeTag) : UInt8 :=
  let place : UInt8 := if type = .reference then 0 else type.familyIndex
  if op.isBitwise then Opcode.ishl + 2 * op.index + min place 1
  else Opcode.iadd + 4 * op.index + place

namespace TypeTag

/-- The conversions that are instructions, in the order of their opcodes. -/
def conversions : List (TypeTag × TypeTag) :=
  [(int, long), (int, float), (int, double), (long, int), (long, float), (long, double),
    (float, int), (float, long), (float, double), (double, int), (double, long), (double, float),
    (int, byte), (int, char), (int, short)]

/-- The opcode of a conversion, if there is such an instruction. -/
def conversionOpcode? (source target : TypeTag) : Option UInt8 :=
  (conversions.findIdx? (· == (source.promote, target))).map fun index =>
    Opcode.i2l + UInt8.ofNat index

end TypeTag

namespace Instruction

def mnemonic {τ : Type} : Instruction τ → String
  | push _ .byte => "bipush"
  | push _ .short => "sipush"
  | push (.int _) _ => "iconst"
  | push (.long _) _ => "lconst"
  | push (.float _) _ => "fconst"
  | push (.double _) _ => "dconst"
  | loadConstant index wide =>
    if wide then "ldc2_w" else if 0xFF < index then "ldc_w" else "ldc"
  | load _ type => Opcode.mnemonic (Opcode.iload + type.familyIndex)
  | store _ type => Opcode.mnemonic (Opcode.istore + type.familyIndex)
  | convert source target =>
    Opcode.mnemonic ((source.conversionOpcode? target).getD Opcode.nop)
  | arithmetic op type => Opcode.mnemonic (op.opcode type)
  | compare kind => kind.mnemonic
  | branch condition _ => Opcode.mnemonic condition.opcode
  | jump _ => "goto"
  | increment .. => "iinc"
  | invokeVirtual _ => "invokevirtual"
  | subroutine _ => "jsr"
  | switch .table .. => "tableswitch"
  | switch .lookup .. => "lookupswitch"
  | other code => Opcode.mnemonic code.opcode

def text (instruction : Instruction Handle) : String :=
  match instruction with
  | push value _ => s!"{instruction.mnemonic} {value.text}"
  | loadConstant index _ | invokeVirtual index => s!"{instruction.mnemonic} #{index}"
  | load slot _ | store slot _ => s!"{instruction.mnemonic} {slot}"
  | increment slot amount => s!"{instruction.mnemonic} {slot} {amount}"
  | branch _ target | jump target | subroutine target =>
    s!"{instruction.mnemonic} {target.text}"
  | switch _ default cases =>
    s!"{instruction.mnemonic} ({cases.length} cases) default {default.text}"
  | _ => instruction.mnemonic

end Instruction

end BytecodeFold
