import BytecodeFold.Instruction.Text

/-!
# Shapes of opcodes

What an opcode says about the instruction it starts, before its operands are read.
-/

namespace BytecodeFold

/-- The instruction an opcode starts. -/
inductive Shape where
  /-- A literal that the opcode names itself. -/
  | literal (value : Number) (type : TypeTag)
  | pushByte
  | pushShort
  /-- A constant of the pool under a one-byte index. -/
  | loadConstant
  /-- A constant of the pool under a two-byte index. -/
  | loadConstantIndexed (wide : Bool)
  | load (type : TypeTag)
  | loadSlot (slot : UInt16) (type : TypeTag)
  | store (type : TypeTag)
  | storeSlot (slot : UInt16) (type : TypeTag)
  | arithmetic (op : ArithmeticOp) (type : TypeTag)
  | increment
  | convert (source target : TypeTag)
  | compare (kind : CompareKind)
  | branch (condition : Condition)
  | jump (long : Bool)
  | subroutine (long : Bool)
  | switch (kind : SwitchKind)
  | invokeVirtual
  /-- The opcode that widens the operands of the next one. -/
  | widePrefix
  /-- An instruction that is kept byte for byte. -/
  | verbatim (info : OpcodeInfo)
  | invalid
  deriving DecidableEq

namespace Shape

/-- The types of the families of loads, stores and arithmetic, in order. -/
def familyType : Nat → TypeTag
  | 0 => .int
  | 1 => .long
  | 2 => .float
  | 3 => .double
  | _ => .reference

def arithmeticFamily : Nat → ArithmeticOp
  | 0 => .add
  | 1 => .sub
  | 2 => .mul
  | 3 => .div
  | _ => .rem

def bitwiseFamily : Nat → ArithmeticOp
  | 0 => .shl
  | 1 => .shr
  | 2 => .ushr
  | 3 => .and
  | 4 => .or
  | _ => .xor

def relationFamily : Nat → Relation
  | 0 => .eq
  | 1 => .ne
  | 2 => .lt
  | 3 => .ge
  | 4 => .gt
  | _ => .le

def compareFamily : Nat → CompareKind
  | 0 => .lcmp
  | 1 => .fcmpl
  | 2 => .fcmpg
  | 3 => .dcmpl
  | _ => .dcmpg

/-- The shape of the opcodes that belong to no other family. -/
def ofTable (opcode : UInt8) : Shape :=
  match Opcode.info? opcode with
  | some info => verbatim info
  | none => invalid

/-- The shape of an opcode. -/
def ofOpcode (opcode : UInt8) : Shape :=
  let n := opcode.toNat
  let within (low high : Nat) : Bool := low ≤ n && n ≤ high
  if within 0x02 0x08 then literal (.int (Int32.ofInt ((n : Int) - 0x03))) .int
  else if within 0x09 0x0A then literal (.long (Int64.ofNat (n - 0x09))) .long
  else if within 0x0B 0x0D then literal (.float (.ofInt .single ((n : Int) - 0x0B))) .float
  else if within 0x0E 0x0F then literal (.double (.ofInt .double ((n : Int) - 0x0E))) .double
  else if n = 0x10 then pushByte
  else if n = 0x11 then pushShort
  else if n = 0x12 then loadConstant
  else if n = 0x13 then loadConstantIndexed false
  else if n = 0x14 then loadConstantIndexed true
  else if within 0x15 0x19 then load (familyType (n - 0x15))
  else if within 0x1A 0x2D then
    loadSlot (UInt16.ofNat ((n - 0x1A) % 4)) (familyType ((n - 0x1A) / 4))
  else if within 0x36 0x3A then store (familyType (n - 0x36))
  else if within 0x3B 0x4E then
    storeSlot (UInt16.ofNat ((n - 0x3B) % 4)) (familyType ((n - 0x3B) / 4))
  else if within 0x60 0x73 then
    arithmetic (arithmeticFamily ((n - 0x60) / 4)) (familyType ((n - 0x60) % 4))
  else if within 0x78 0x83 then
    arithmetic (bitwiseFamily ((n - 0x78) / 2)) (familyType ((n - 0x78) % 2))
  else if n = 0x84 then increment
  else if within 0x85 0x93 then
    match TypeTag.conversions[n - 0x85]? with
    | some (source, target) => convert source target
    | none => ofTable opcode
  else if within 0x94 0x98 then compare (compareFamily (n - 0x94))
  else if within 0x99 0x9E then branch (.zero (relationFamily (n - 0x99)))
  else if within 0x9F 0xA4 then branch (.intCompare (relationFamily (n - 0x9F)))
  else if n = 0xA5 then branch .refEqual
  else if n = 0xA6 then branch .refNotEqual
  else if n = 0xA7 then jump false
  else if n = 0xA8 then subroutine false
  else if n = 0xAA then switch .table
  else if n = 0xAB then switch .lookup
  else if n = 0xB6 then invokeVirtual
  else if n = 0xC4 then widePrefix
  else if n = 0xC6 then branch .null
  else if n = 0xC7 then branch .nonNull
  else if n = 0xC8 then jump true
  else if n = 0xC9 then subroutine true
  else ofTable opcode

end Shape

end BytecodeFold
