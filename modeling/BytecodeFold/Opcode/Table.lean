/-!
# Opcodes

The opcodes of the machine with their mnemonics, the operands that follow them in the code
array, the slots they take from and put on the operand stack, and where control goes next.
Slots that depend on a descriptor are not counted here.
-/

namespace BytecodeFold

/-- Where control goes after an instruction. -/
inductive FlowType where
  | sequential
  | conditionalBranch
  | unconditionalBranch
  | call
  | methodReturn
  | switch
  | throw
  | subroutine
  | subroutineReturn
  deriving DecidableEq

/-- What follows an opcode in the code array. -/
inductive OperandKind where
  | none
  | int8
  | int16
  | localSlot
  | poolIndex8
  | poolIndex16
  | fieldRef
  | methodRef
  | invokeInterface
  | invokeDynamic
  | multiANewArray
  | arrayType
  | increment
  | branch16
  | branch32
  | tableSwitch
  | lookupSwitch
  | wide
  deriving DecidableEq

/-- The number of operand bytes, for opcodes where it is fixed. -/
def OperandKind.length? : OperandKind → Option Nat
  | none => some 0
  | int8 | localSlot | poolIndex8 | arrayType => some 1
  | int16 | poolIndex16 | fieldRef | methodRef | increment | branch16 => some 2
  | multiANewArray => some 3
  | invokeInterface | invokeDynamic | branch32 => some 4
  | tableSwitch | lookupSwitch | wide => .none

/-- What is known of an opcode. -/
structure OpcodeInfo where
  mnemonic : String
  operands : OperandKind
  pops : Nat
  pushes : Nat
  flow : FlowType
  deriving DecidableEq

namespace Opcode

/-- The opcodes in order, from 0 on. -/
def table : Array OpcodeInfo :=
  #[⟨"nop", .none, 0, 0, .sequential⟩,
    ⟨"aconst_null", .none, 0, 1, .sequential⟩,
    ⟨"iconst_m1", .none, 0, 1, .sequential⟩,
    ⟨"iconst_0", .none, 0, 1, .sequential⟩,
    ⟨"iconst_1", .none, 0, 1, .sequential⟩,
    ⟨"iconst_2", .none, 0, 1, .sequential⟩,
    ⟨"iconst_3", .none, 0, 1, .sequential⟩,
    ⟨"iconst_4", .none, 0, 1, .sequential⟩,
    ⟨"iconst_5", .none, 0, 1, .sequential⟩,
    ⟨"lconst_0", .none, 0, 2, .sequential⟩,
    ⟨"lconst_1", .none, 0, 2, .sequential⟩,
    ⟨"fconst_0", .none, 0, 1, .sequential⟩,
    ⟨"fconst_1", .none, 0, 1, .sequential⟩,
    ⟨"fconst_2", .none, 0, 1, .sequential⟩,
    ⟨"dconst_0", .none, 0, 2, .sequential⟩,
    ⟨"dconst_1", .none, 0, 2, .sequential⟩,
    ⟨"bipush", .int8, 0, 1, .sequential⟩,
    ⟨"sipush", .int16, 0, 1, .sequential⟩,
    ⟨"ldc", .poolIndex8, 0, 1, .sequential⟩,
    ⟨"ldc_w", .poolIndex16, 0, 1, .sequential⟩,
    ⟨"ldc2_w", .poolIndex16, 0, 2, .sequential⟩,
    ⟨"iload", .localSlot, 0, 1, .sequential⟩,
    ⟨"lload", .localSlot, 0, 2, .sequential⟩,
    ⟨"fload", .localSlot, 0, 1, .sequential⟩,
    ⟨"dload", .localSlot, 0, 2, .sequential⟩,
    ⟨"aload", .localSlot, 0, 1, .sequential⟩,
    ⟨"iload_0", .none, 0, 1, .sequential⟩,
    ⟨"iload_1", .none, 0, 1, .sequential⟩,
    ⟨"iload_2", .none, 0, 1, .sequential⟩,
    ⟨"iload_3", .none, 0, 1, .sequential⟩,
    ⟨"lload_0", .none, 0, 2, .sequential⟩,
    ⟨"lload_1", .none, 0, 2, .sequential⟩,
    ⟨"lload_2", .none, 0, 2, .sequential⟩,
    ⟨"lload_3", .none, 0, 2, .sequential⟩,
    ⟨"fload_0", .none, 0, 1, .sequential⟩,
    ⟨"fload_1", .none, 0, 1, .sequential⟩,
    ⟨"fload_2", .none, 0, 1, .sequential⟩,
    ⟨"fload_3", .none, 0, 1, .sequential⟩,
    ⟨"dload_0", .none, 0, 2, .sequential⟩,
    ⟨"dload_1", .none, 0, 2, .sequential⟩,
    ⟨"dload_2", .none, 0, 2, .sequential⟩,
    ⟨"dload_3", .none, 0, 2, .sequential⟩,
    ⟨"aload_0", .none, 0, 1, .sequential⟩,
    ⟨"aload_1", .none, 0, 1, .sequential⟩,
    ⟨"aload_2", .none, 0, 1, .sequential⟩,
    ⟨"aload_3", .none, 0, 1, .sequential⟩,
    ⟨"iaload", .none, 2, 1, .sequential⟩,
    ⟨"laload", .none, 2, 2, .sequential⟩,
    ⟨"faload", .none, 2, 1, .sequential⟩,
    ⟨"daload", .none, 2, 2, .sequential⟩,
    ⟨"aaload", .none, 2, 1, .sequential⟩,
    ⟨"baload", .none, 2, 1, .sequential⟩,
    ⟨"caload", .none, 2, 1, .sequential⟩,
    ⟨"saload", .none, 2, 1, .sequential⟩,
    ⟨"istore", .localSlot, 1, 0, .sequential⟩,
    ⟨"lstore", .localSlot, 2, 0, .sequential⟩,
    ⟨"fstore", .localSlot, 1, 0, .sequential⟩,
    ⟨"dstore", .localSlot, 2, 0, .sequential⟩,
    ⟨"astore", .localSlot, 1, 0, .sequential⟩,
    ⟨"istore_0", .none, 1, 0, .sequential⟩,
    ⟨"istore_1", .none, 1, 0, .sequential⟩,
    ⟨"istore_2", .none, 1, 0, .sequential⟩,
    ⟨"istore_3", .none, 1, 0, .sequential⟩,
    ⟨"lstore_0", .none, 2, 0, .sequential⟩,
    ⟨"lstore_1", .none, 2, 0, .sequential⟩,
    ⟨"lstore_2", .none, 2, 0, .sequential⟩,
    ⟨"lstore_3", .none, 2, 0, .sequential⟩,
    ⟨"fstore_0", .none, 1, 0, .sequential⟩,
    ⟨"fstore_1", .none, 1, 0, .sequential⟩,
    ⟨"fstore_2", .none, 1, 0, .sequential⟩,
    ⟨"fstore_3", .none, 1, 0, .sequential⟩,
    ⟨"dstore_0", .none, 2, 0, .sequential⟩,
    ⟨"dstore_1", .none, 2, 0, .sequential⟩,
    ⟨"dstore_2", .none, 2, 0, .sequential⟩,
    ⟨"dstore_3", .none, 2, 0, .sequential⟩,
    ⟨"astore_0", .none, 1, 0, .sequential⟩,
    ⟨"astore_1", .none, 1, 0, .sequential⟩,
    ⟨"astore_2", .none, 1, 0, .sequential⟩,
    ⟨"astore_3", .none, 1, 0, .sequential⟩,
    ⟨"iastore", .none, 3, 0, .sequential⟩,
    ⟨"lastore", .none, 4, 0, .sequential⟩,
    ⟨"fastore", .none, 3, 0, .sequential⟩,
    ⟨"dastore", .none, 4, 0, .sequential⟩,
    ⟨"aastore", .none, 3, 0, .sequential⟩,
    ⟨"bastore", .none, 3, 0, .sequential⟩,
    ⟨"castore", .none, 3, 0, .sequential⟩,
    ⟨"sastore", .none, 3, 0, .sequential⟩,
    ⟨"pop", .none, 1, 0, .sequential⟩,
    ⟨"pop2", .none, 2, 0, .sequential⟩,
    ⟨"dup", .none, 1, 2, .sequential⟩,
    ⟨"dup_x1", .none, 2, 3, .sequential⟩,
    ⟨"dup_x2", .none, 3, 4, .sequential⟩,
    ⟨"dup2", .none, 2, 4, .sequential⟩,
    ⟨"dup2_x1", .none, 3, 5, .sequential⟩,
    ⟨"dup2_x2", .none, 4, 6, .sequential⟩,
    ⟨"swap", .none, 2, 2, .sequential⟩,
    ⟨"iadd", .none, 2, 1, .sequential⟩,
    ⟨"ladd", .none, 4, 2, .sequential⟩,
    ⟨"fadd", .none, 2, 1, .sequential⟩,
    ⟨"dadd", .none, 4, 2, .sequential⟩,
    ⟨"isub", .none, 2, 1, .sequential⟩,
    ⟨"lsub", .none, 4, 2, .sequential⟩,
    ⟨"fsub", .none, 2, 1, .sequential⟩,
    ⟨"dsub", .none, 4, 2, .sequential⟩,
    ⟨"imul", .none, 2, 1, .sequential⟩,
    ⟨"lmul", .none, 4, 2, .sequential⟩,
    ⟨"fmul", .none, 2, 1, .sequential⟩,
    ⟨"dmul", .none, 4, 2, .sequential⟩,
    ⟨"idiv", .none, 2, 1, .sequential⟩,
    ⟨"ldiv", .none, 4, 2, .sequential⟩,
    ⟨"fdiv", .none, 2, 1, .sequential⟩,
    ⟨"ddiv", .none, 4, 2, .sequential⟩,
    ⟨"irem", .none, 2, 1, .sequential⟩,
    ⟨"lrem", .none, 4, 2, .sequential⟩,
    ⟨"frem", .none, 2, 1, .sequential⟩,
    ⟨"drem", .none, 4, 2, .sequential⟩,
    ⟨"ineg", .none, 1, 1, .sequential⟩,
    ⟨"lneg", .none, 2, 2, .sequential⟩,
    ⟨"fneg", .none, 1, 1, .sequential⟩,
    ⟨"dneg", .none, 2, 2, .sequential⟩,
    ⟨"ishl", .none, 2, 1, .sequential⟩,
    ⟨"lshl", .none, 3, 2, .sequential⟩,
    ⟨"ishr", .none, 2, 1, .sequential⟩,
    ⟨"lshr", .none, 3, 2, .sequential⟩,
    ⟨"iushr", .none, 2, 1, .sequential⟩,
    ⟨"lushr", .none, 3, 2, .sequential⟩,
    ⟨"iand", .none, 2, 1, .sequential⟩,
    ⟨"land", .none, 4, 2, .sequential⟩,
    ⟨"ior", .none, 2, 1, .sequential⟩,
    ⟨"lor", .none, 4, 2, .sequential⟩,
    ⟨"ixor", .none, 2, 1, .sequential⟩,
    ⟨"lxor", .none, 4, 2, .sequential⟩,
    ⟨"iinc", .increment, 0, 0, .sequential⟩,
    ⟨"i2l", .none, 1, 2, .sequential⟩,
    ⟨"i2f", .none, 1, 1, .sequential⟩,
    ⟨"i2d", .none, 1, 2, .sequential⟩,
    ⟨"l2i", .none, 2, 1, .sequential⟩,
    ⟨"l2f", .none, 2, 1, .sequential⟩,
    ⟨"l2d", .none, 2, 2, .sequential⟩,
    ⟨"f2i", .none, 1, 1, .sequential⟩,
    ⟨"f2l", .none, 1, 2, .sequential⟩,
    ⟨"f2d", .none, 1, 2, .sequential⟩,
    ⟨"d2i", .none, 2, 1, .sequential⟩,
    ⟨"d2l", .none, 2, 2, .sequential⟩,
    ⟨"d2f", .none, 2, 1, .sequential⟩,
    ⟨"i2b", .none, 1, 1, .sequential⟩,
    ⟨"i2c", .none, 1, 1, .sequential⟩,
    ⟨"i2s", .none, 1, 1, .sequential⟩,
    ⟨"lcmp", .none, 4, 1, .sequential⟩,
    ⟨"fcmpl", .none, 2, 1, .sequential⟩,
    ⟨"fcmpg", .none, 2, 1, .sequential⟩,
    ⟨"dcmpl", .none, 4, 1, .sequential⟩,
    ⟨"dcmpg", .none, 4, 1, .sequential⟩,
    ⟨"ifeq", .branch16, 1, 0, .conditionalBranch⟩,
    ⟨"ifne", .branch16, 1, 0, .conditionalBranch⟩,
    ⟨"iflt", .branch16, 1, 0, .conditionalBranch⟩,
    ⟨"ifge", .branch16, 1, 0, .conditionalBranch⟩,
    ⟨"ifgt", .branch16, 1, 0, .conditionalBranch⟩,
    ⟨"ifle", .branch16, 1, 0, .conditionalBranch⟩,
    ⟨"if_icmpeq", .branch16, 2, 0, .conditionalBranch⟩,
    ⟨"if_icmpne", .branch16, 2, 0, .conditionalBranch⟩,
    ⟨"if_icmplt", .branch16, 2, 0, .conditionalBranch⟩,
    ⟨"if_icmpge", .branch16, 2, 0, .conditionalBranch⟩,
    ⟨"if_icmpgt", .branch16, 2, 0, .conditionalBranch⟩,
    ⟨"if_icmple", .branch16, 2, 0, .conditionalBranch⟩,
    ⟨"if_acmpeq", .branch16, 2, 0, .conditionalBranch⟩,
    ⟨"if_acmpne", .branch16, 2, 0, .conditionalBranch⟩,
    ⟨"goto", .branch16, 0, 0, .unconditionalBranch⟩,
    ⟨"jsr", .branch16, 0, 1, .subroutine⟩,
    ⟨"ret", .localSlot, 0, 0, .subroutineReturn⟩,
    ⟨"tableswitch", .tableSwitch, 1, 0, .switch⟩,
    ⟨"lookupswitch", .lookupSwitch, 1, 0, .switch⟩,
    ⟨"ireturn", .none, 1, 0, .methodReturn⟩,
    ⟨"lreturn", .none, 2, 0, .methodReturn⟩,
    ⟨"freturn", .none, 1, 0, .methodReturn⟩,
    ⟨"dreturn", .none, 2, 0, .methodReturn⟩,
    ⟨"areturn", .none, 1, 0, .methodReturn⟩,
    ⟨"return", .none, 0, 0, .methodReturn⟩,
    ⟨"getstatic", .fieldRef, 0, 0, .sequential⟩,
    ⟨"putstatic", .fieldRef, 0, 0, .sequential⟩,
    ⟨"getfield", .fieldRef, 1, 0, .sequential⟩,
    ⟨"putfield", .fieldRef, 1, 0, .sequential⟩,
    ⟨"invokevirtual", .methodRef, 1, 0, .call⟩,
    ⟨"invokespecial", .methodRef, 1, 0, .call⟩,
    ⟨"invokestatic", .methodRef, 0, 0, .call⟩,
    ⟨"invokeinterface", .invokeInterface, 1, 0, .call⟩,
    ⟨"invokedynamic", .invokeDynamic, 0, 0, .call⟩,
    ⟨"new", .poolIndex16, 0, 1, .sequential⟩,
    ⟨"newarray", .arrayType, 1, 1, .sequential⟩,
    ⟨"anewarray", .poolIndex16, 1, 1, .sequential⟩,
    ⟨"arraylength", .none, 1, 1, .sequential⟩,
    ⟨"athrow", .none, 1, 0, .throw⟩,
    ⟨"checkcast", .poolIndex16, 1, 1, .sequential⟩,
    ⟨"instanceof", .poolIndex16, 1, 1, .sequential⟩,
    ⟨"monitorenter", .none, 1, 0, .sequential⟩,
    ⟨"monitorexit", .none, 1, 0, .sequential⟩,
    ⟨"wide", .wide, 0, 0, .sequential⟩,
    ⟨"multianewarray", .multiANewArray, 0, 1, .sequential⟩,
    ⟨"ifnull", .branch16, 1, 0, .conditionalBranch⟩,
    ⟨"ifnonnull", .branch16, 1, 0, .conditionalBranch⟩,
    ⟨"goto_w", .branch32, 0, 0, .unconditionalBranch⟩,
    ⟨"jsr_w", .branch32, 0, 1, .subroutine⟩]

/-- What is known of an opcode, if it is one. -/
def info? (opcode : UInt8) : Option OpcodeInfo := table[opcode.toNat]?

def mnemonic (opcode : UInt8) : String :=
  match info? opcode with
  | some info => info.mnemonic
  | none => "<unknown>"

def nop : UInt8 := 0x00
def iconst0 : UInt8 := 0x03
def lconst0 : UInt8 := 0x09
def fconst0 : UInt8 := 0x0B
def dconst0 : UInt8 := 0x0E
def bipush : UInt8 := 0x10
def sipush : UInt8 := 0x11
def ldc : UInt8 := 0x12
def ldcW : UInt8 := 0x13
def ldc2W : UInt8 := 0x14
def iload : UInt8 := 0x15
def iload0 : UInt8 := 0x1A
def istore : UInt8 := 0x36
def istore0 : UInt8 := 0x3B
def iadd : UInt8 := 0x60
def ishl : UInt8 := 0x78
def iinc : UInt8 := 0x84
def i2l : UInt8 := 0x85
def lcmp : UInt8 := 0x94
def ifeq : UInt8 := 0x99
def ifIcmpeq : UInt8 := 0x9F
def ifAcmpeq : UInt8 := 0xA5
def ifAcmpne : UInt8 := 0xA6
def goto : UInt8 := 0xA7
def jsr : UInt8 := 0xA8
def ret : UInt8 := 0xA9
def tableswitch : UInt8 := 0xAA
def lookupswitch : UInt8 := 0xAB
def getstatic : UInt8 := 0xB2
def getfield : UInt8 := 0xB4
def invokevirtual : UInt8 := 0xB6
def wide : UInt8 := 0xC4
def ifnull : UInt8 := 0xC6
def ifnonnull : UInt8 := 0xC7
def gotoW : UInt8 := 0xC8
def jsrW : UInt8 := 0xC9

end Opcode

end BytecodeFold
