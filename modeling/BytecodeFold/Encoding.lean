import BytecodeFold.Bytes.BigEndian
import BytecodeFold.Code
import BytecodeFold.Listing.Layout

/-!
# Encoding

Turns a listing into a code array and an exception table. Instructions get their shortest
form, and branches hold the distance from their own offset to that of their target.
-/

namespace BytecodeFold

open BigEndian (encode)

namespace Encoding

/-- The bytes that push a literal. -/
def push (value : Number) (type : TypeTag) : Except Error (List UInt8) :=
  match value.pushForm? type with
  | some (.opcode opcode) => .ok [opcode]
  | some (.byte v) => .ok (Opcode.bipush :: encode v)
  | some (.short v) => .ok (Opcode.sipush :: encode v)
  | none =>
    .error (.invalidOperand s!"no constant push encodes {value.text} as {type.text}")

/-- The bytes that load a constant of the pool. -/
def loadConstant (index : UInt16) (wide : Bool) : List UInt8 :=
  if wide then Opcode.ldc2W :: encode index
  else if index ≤ 0xFF then [Opcode.ldc, index.toUInt8]
  else Opcode.ldcW :: encode index

/-- The bytes of a load or store. `base` is the opcode of the family for `int`, and
`shortBase` the first of the opcodes that name one of the slots 0 to 3 themselves. -/
def localAccess (base shortBase : UInt8) (slot : UInt16) (type : TypeTag) : List UInt8 :=
  let family := type.familyIndex
  if slot ≤ 3 then [shortBase + 4 * family + slot.toUInt8]
  else if slot ≤ 0xFF then [base + family, slot.toUInt8]
  else Opcode.wide :: (base + family) :: encode slot

def load (slot : UInt16) (type : TypeTag) : List UInt8 :=
  localAccess Opcode.iload Opcode.iload0 slot type

def store (slot : UInt16) (type : TypeTag) : List UInt8 :=
  localAccess Opcode.istore Opcode.istore0 slot type

def increment (slot : UInt16) (amount : Int16) : List UInt8 :=
  if slot ≤ 0xFF && fitsSigned 8 amount.toInt then
    Opcode.iinc :: slot.toUInt8 :: encode amount.toInt8
  else Opcode.wide :: Opcode.iinc :: (encode slot ++ encode amount)

/-- The distance between two handles. -/
def displacement (offsets : Handle → Option Nat) (source target : Handle) :
    Except Error Int := do
  let some start := offsets source | throw (.invalidHandle source)
  let some stop := offsets target | throw (.invalidHandle target)
  return (stop : Int) - (start : Int)

/-- A distance as the two bytes of a short branch. -/
def shortDisplacement (offsets : Handle → Option Nat) (source target : Handle) :
    Except Error (List UInt8) := do
  let distance ← displacement offsets source target
  if fitsSigned 16 distance then return encode (Int16.ofInt distance)
  else throw (.branchOutOfRange ((offsets source).getD 0))

/-- A distance as four bytes. -/
def longDisplacement (offsets : Handle → Option Nat) (source target : Handle) :
    Except Error (List UInt8) :=
  return encode (Int32.ofInt (← displacement offsets source target))

/-- Whether every key is one more than the key before it. -/
def keysConsecutive : List Int → Bool
  | a :: b :: rest => a + 1 == b && keysConsecutive (b :: rest)
  | _ => true

/-- Whether every key is above the key before it. -/
def keysSorted : List Int → Bool
  | a :: b :: rest => a < b && keysSorted (b :: rest)
  | _ => true

def switchOpcode : SwitchKind → UInt8
  | .table => Opcode.tableswitch
  | .lookup => Opcode.lookupswitch

/-- The bytes of the cases of a switch. -/
def switchCases (offsets : Handle → Option Nat) (handle : Handle) (kind : SwitchKind)
    (cases : List (Int32 × Handle)) : Except Error (List UInt8) :=
  let keys := cases.map (·.1.toInt)
  match kind with
  | .table => do
    let (some low, some high) := (cases.head?, cases.getLast?)
      | throw (.invalidOperand "tableswitch needs at least one case")
    if keysConsecutive keys then
      let targets ← cases.mapM fun case => longDisplacement offsets handle case.2
      return encode low.1 ++ encode high.1 ++ targets.flatten
    else throw (.invalidOperand "tableswitch keys are not contiguous")
  | .lookup => do
    if keysSorted keys then
      let pairs ← cases.mapM fun case =>
        return encode case.1 ++ (← longDisplacement offsets handle case.2)
      return encode (Int32.ofNat cases.length) ++ pairs.flatten
    else throw (.invalidOperand "lookupswitch keys are not sorted")

/-- The bytes of a switch: opcode, padding, default, then the cases of its kind. -/
def switch (offsets : Handle → Option Nat) (handle : Handle) (kind : SwitchKind)
    (default : Handle) (cases : List (Int32 × Handle)) : Except Error (List UInt8) := do
  let some offset := offsets handle | throw (.invalidHandle handle)
  let padding := List.replicate (switchPadding offset) (0 : UInt8)
  let defaultBytes ← longDisplacement offsets handle default
  let caseBytes ← switchCases offsets handle kind cases
  return switchOpcode kind :: (padding ++ defaultBytes ++ caseBytes)

/-- The bytes of an instruction that stands at a handle. -/
def instruction (offsets : Handle → Option Nat) (handle : Handle) (long : Bool)
    (code : Instruction Handle) : Except Error (List UInt8) :=
  match code with
  | .push value type => push value type
  | .loadConstant index wide => .ok (loadConstant index wide)
  | .load slot type => .ok (load slot type)
  | .store slot type => .ok (store slot type)
  | .convert source target =>
    match source.conversionOpcode? target with
    | some opcode => .ok [opcode]
    | none =>
      .error (.invalidOperand s!"no conversion from {source.text} to {target.text}")
  | .arithmetic op type =>
    if (op.isBitwise && type.isFloating) || type = .reference then
      .error (.invalidOperand s!"{op.name} has no {type.text} variant")
    else .ok [op.opcode type]
  | .compare kind => .ok [kind.opcode]
  | .branch condition target =>
    return condition.opcode :: (← shortDisplacement offsets handle target)
  | .jump target =>
    if long then return Opcode.gotoW :: (← longDisplacement offsets handle target)
    else return Opcode.goto :: (← shortDisplacement offsets handle target)
  | .subroutine target =>
    if long then return Opcode.jsrW :: (← longDisplacement offsets handle target)
    else return Opcode.jsr :: (← shortDisplacement offsets handle target)
  | .increment slot amount => .ok (increment slot amount)
  | .invokeVirtual index => .ok (Opcode.invokevirtual :: encode index)
  | .switch kind default cases => switch offsets handle kind default cases
  | .other code =>
    .ok ((if code.wide then [Opcode.wide] else []) ++ code.opcode :: code.operands)

/-- An exception handler in offsets, in code of a given length. -/
def exceptionEntry (offsets : Handle → Option Nat) (length : Nat) (entry : ExceptionHandler) :
    Except Error ExceptionEntry := do
  let offsetOf (handle : Handle) : Except Error UInt16 :=
    match offsets handle with
    | some offset => .ok (UInt16.ofNat offset)
    | none => .error (.invalidHandle handle)
  let start ← offsetOf entry.start
  let stop ← match entry.stop with
    | some stop => offsetOf stop
    | none => .ok (UInt16.ofNat length)
  return ⟨start, stop, ← offsetOf entry.handler, entry.catchType⟩

end Encoding

namespace Listing

/-- The code array and the exception table of a listing that is laid out at this length. -/
def emit (listing : Listing) (length : Nat) :
    Except Error (Array UInt8 × Array ExceptionEntry) := do
  let table := listing.offsets
  let bytes ← listing.lines.foldlM
    (fun (bytes : Array UInt8) line =>
      return bytes ++ (← Encoding.instruction table line.handle line.long line.instruction))
    #[]
  if bytes.size ≠ length then throw (.malformed (.lengthMismatch bytes.size length))
  return (bytes, ← listing.handlers.mapM (Encoding.exceptionEntry table length))

/-- Lays the listing out and encodes it. -/
def encode (listing : Listing) : Except Error (Array UInt8 × Array ExceptionEntry) × Listing :=
  match listing.layout with
  | (.ok length, listing) => (listing.emit length, listing)
  | (.error e, listing) => (.error e, listing)

end Listing

end BytecodeFold
