import BytecodeFold.Bytes.Cursor
import BytecodeFold.Code
import BytecodeFold.ConstantPool.Lookup
import BytecodeFold.Descriptor
import BytecodeFold.Listing.Basic
import BytecodeFold.Opcode.Shape

/-!
# Decoding

Turns a code array into a listing. The instructions are read one after another with their
targets as offsets; afterwards every offset is resolved to the instruction that starts
there. An instruction takes at least its opcode, so reading ends with the code array.
-/

namespace BytecodeFold

namespace Decoding

/-- The offset a branch goes to, which must not lie before the code. -/
def branchTarget (offset : Nat) (displacement : Int) : Reader Nat :=
  if 0 ≤ offset + displacement then return (offset + displacement).toNat
  else throw (.malformed (.branchBeforeCode offset (offset + displacement)))

def shortTarget (offset : Nat) : Reader Nat := do
  branchTarget offset (← Reader.word Int16).toInt

def longTarget (offset : Nat) : Reader Nat := do
  branchTarget offset (← Reader.word Int32).toInt

/-- The targets of consecutive keys from `key` on; `seen` holds the cases already read,
latest first. -/
def tableCases (offset : Nat) :
    Nat → Int → List (Int32 × Nat) → Reader (List (Int32 × Nat))
  | 0, _, seen => return seen.reverse
  | count + 1, key, seen => do
    let target ← longTarget offset
    tableCases offset count (key + 1) ((Int32.ofInt key, target) :: seen)

/-- Whether a key may follow the cases already read. -/
def mayFollow (key : Int32) : List (Int32 × Nat) → Bool
  | [] => true
  | (previous, _) :: _ => previous.toInt < key.toInt

/-- Sorted keys with their targets; `seen` holds the cases already read, latest first. -/
def lookupCases (offset : Nat) : Nat → List (Int32 × Nat) → Reader (List (Int32 × Nat))
  | 0, seen => return seen.reverse
  | count + 1, seen => do
    let key ← Reader.word Int32
    if mayFollow key seen then
      let target ← longTarget offset
      lookupCases offset count ((key, target) :: seen)
    else throw (.malformed (.unsortedKey offset key.toInt))

/-- Fails unless this many bytes are left. -/
def require (count : Nat) : Reader Unit := do
  if (← Reader.remaining) < count then throw .outOfBounds

/-- The cases of a switch. -/
def switchCases (offset : Nat) : SwitchKind → Reader (List (Int32 × Nat))
  | .table => do
    let low := (← Reader.word Int32).toInt
    let high := (← Reader.word Int32).toInt
    if high < low then throw (.malformed (.emptyTable offset low high))
    else
      let count := (high - low + 1).toNat
      require (4 * count)
      tableCases offset count low []
  | .lookup => do
    let count := (← Reader.word Int32).toInt
    if count < 0 then throw (.malformed (.negativePairCount offset count))
    else
      require (8 * count.toNat)
      lookupCases offset count.toNat []

def switch (offset : Nat) (kind : SwitchKind) : Reader (Instruction Nat) := do
  Reader.align 4
  let default ← longTarget offset
  return .switch kind default (← switchCases offset kind)

/-- Reads the wide operands of an instruction of this shape. -/
def wideOperands (offset : Nat) (opcode : UInt8) : Shape → Reader (Instruction Nat)
  | .load type => return .load (← Reader.word UInt16) type
  | .store type => return .store (← Reader.word UInt16) type
  | .increment => return .increment (← Reader.word UInt16) (← Reader.word Int16)
  | _ =>
    if opcode = Opcode.ret then
      return .other ⟨opcode, true, ← Reader.bytes 2, ⟨0, 0⟩, .subroutineReturn⟩
    else throw (.malformed (.notWidenable offset opcode))

/-- The instruction after the opcode that widens operands. -/
def widened (offset : Nat) : Reader (Instruction Nat) := do
  let opcode ← Reader.word UInt8
  wideOperands offset opcode (Shape.ofOpcode opcode)

/-- The slots an instruction that is kept byte for byte takes and puts besides those of
its opcode. -/
def operandEffect (pool : ConstantPool) (offset : Nat) (opcode : UInt8) (kind : OperandKind)
    (operands : List UInt8) : Except Error StackEffect :=
  let member := BigEndian.decode UInt16 (operands.take 2)
  match kind with
  | .fieldRef => do
    let slots := (← FieldType.parse (← pool.memberDescriptor member)).slots
    return if opcode = Opcode.getstatic || opcode = Opcode.getfield then ⟨0, slots⟩
      else ⟨slots, 0⟩
  | .methodRef | .invokeInterface | .invokeDynamic => do
    let descriptor ← MethodDescriptor.parse (← pool.memberDescriptor member)
    return ⟨← descriptor.parameterSlots, descriptor.resultSlots⟩
  | .multiANewArray =>
    let dimensions := natOfBytes (operands.drop 2)
    if dimensions = 0 then .error (.malformed (.noDimensions offset))
    else .ok ⟨dimensions, 0⟩
  | _ => .ok ⟨0, 0⟩

/-- The stack effect of an instruction that is kept byte for byte. -/
def verbatimEffect (pool : ConstantPool) (offset : Nat) (opcode : UInt8) (info : OpcodeInfo)
    (operands : List UInt8) : Except Error StackEffect := do
  let extra ← operandEffect pool offset opcode info.operands operands
  let pops ← checkedSlots (info.pops + extra.pops)
  let pushes ← checkedSlots (info.pushes + extra.pushes)
  return ⟨pops, pushes⟩

/-- An instruction that is kept byte for byte. -/
def verbatim (pool : ConstantPool) (offset : Nat) (opcode : UInt8) (info : OpcodeInfo) :
    Reader (Instruction Nat) := do
  match info.operands.length? with
  | none => throw (.malformed (.variableLength offset info.mnemonic))
  | some length =>
    let operands ← Reader.bytes length
    let stack ← verbatimEffect pool offset opcode info operands
    return .other ⟨opcode, false, operands, stack, info.flow⟩

/-- Reads the operands of an instruction of this shape. -/
def operands (pool : ConstantPool) (offset : Nat) (opcode : UInt8) :
    Shape → Reader (Instruction Nat)
  | .literal value type => return .push value type
  | .pushByte => return .push (.int (← Reader.word Int8).toInt32) .byte
  | .pushShort => return .push (.int (← Reader.word Int16).toInt32) .short
  | .loadConstant => return .loadConstant (← Reader.word UInt8).toUInt16 false
  | .loadConstantIndexed wide => return .loadConstant (← Reader.word UInt16) wide
  | .load type => return .load (← Reader.word UInt8).toUInt16 type
  | .loadSlot slot type => return .load slot type
  | .store type => return .store (← Reader.word UInt8).toUInt16 type
  | .storeSlot slot type => return .store slot type
  | .arithmetic op type => return .arithmetic op type
  | .increment => do
    let slot ← Reader.word UInt8
    return .increment slot.toUInt16 (← Reader.word Int8).toInt16
  | .convert source target => return .convert source target
  | .compare kind => return .compare kind
  | .branch condition => return .branch condition (← shortTarget offset)
  | .jump long => return .jump (← if long then longTarget offset else shortTarget offset)
  | .subroutine long =>
    return .subroutine (← if long then longTarget offset else shortTarget offset)
  | .switch kind => switch offset kind
  | .invokeVirtual => return .invokeVirtual (← Reader.word UInt16)
  | .widePrefix => widened offset
  | .verbatim info => verbatim pool offset opcode info
  | .invalid => throw (.malformed (.invalidOpcode offset opcode))

/-- Reads the instruction at the cursor. -/
def instruction (pool : ConstantPool) : Reader (Instruction Nat) := do
  let offset ← Reader.position
  let opcode ← Reader.word UInt8
  operands pool offset opcode (Shape.ofOpcode opcode)

/-! ## Reading moves forward -/

namespace Advances

open Reader

theorem branchTarget (offset : Nat) (displacement : Int) :
    Advances (Decoding.branchTarget offset displacement) := by
  unfold Decoding.branchTarget
  split
  · exact .pure _
  · exact .throw _

theorem shortTarget (offset : Nat) : Advances (Decoding.shortTarget offset) :=
  .bind (.word _) fun _ => branchTarget _ _

theorem longTarget (offset : Nat) : Advances (Decoding.longTarget offset) :=
  .bind (.word _) fun _ => branchTarget _ _

theorem tableCases (offset count : Nat) (key : Int) (seen : List (Int32 × Nat)) :
    Advances (Decoding.tableCases offset count key seen) := by
  induction count generalizing key seen with
  | zero => exact .pure _
  | succ count ih => exact .bind (longTarget offset) fun _ => ih _ _

theorem lookupCases (offset count : Nat) (seen : List (Int32 × Nat)) :
    Advances (Decoding.lookupCases offset count seen) := by
  induction count generalizing seen with
  | zero => exact .pure _
  | succ count ih =>
    refine .bind (.word _) fun key => ?_
    split
    · exact .bind (longTarget offset) fun _ => ih _
    · exact .throw _

theorem require (count : Nat) : Advances (Decoding.require count) := by
  refine .bind .remaining fun left => ?_
  split
  · exact .throw _
  · exact .pure _

theorem switchCases (offset : Nat) (kind : SwitchKind) :
    Advances (Decoding.switchCases offset kind) := by
  cases kind with
  | table =>
    refine .bind (.word _) fun low => .bind (.word _) fun high => ?_
    dsimp only
    split
    · exact .throw _
    · exact .bind (require _) fun _ => tableCases _ _ _ _
  | lookup =>
    refine .bind (.word _) fun count => ?_
    dsimp only
    split
    · exact .throw _
    · exact .bind (require _) fun _ => lookupCases _ _ _

theorem switch (offset : Nat) (kind : SwitchKind) : Advances (Decoding.switch offset kind) :=
  .bind (.align 4) fun _ => .bind (longTarget offset) fun _ =>
    .bind (switchCases offset kind) fun _ => .pure _

theorem wideOperands (offset : Nat) (opcode : UInt8) (shape : Shape) :
    Advances (Decoding.wideOperands offset opcode shape) := by
  unfold Decoding.wideOperands
  split
  · exact .bind (.word _) fun _ => .pure _
  · exact .bind (.word _) fun _ => .pure _
  · exact .bind (.word _) fun _ => .bind (.word _) fun _ => .pure _
  · split
    · exact .bind (.bytes _) fun _ => .pure _
    · exact .throw _

theorem widened (offset : Nat) : Advances (Decoding.widened offset) :=
  .bind (.word _) fun _ => wideOperands _ _ _

theorem verbatim (pool : ConstantPool) (offset : Nat) (opcode : UInt8) (info : OpcodeInfo) :
    Advances (Decoding.verbatim pool offset opcode info) := by
  unfold Decoding.verbatim
  split
  · exact .throw _
  · exact .bind (.bytes _) fun _ => .bind (.lift _) fun _ => .pure _

theorem operands (pool : ConstantPool) (offset : Nat) (opcode : UInt8) (shape : Shape) :
    Advances (Decoding.operands pool offset opcode shape) := by
  cases shape with
  | literal | loadSlot | storeSlot | arithmetic | convert | compare => exact .pure _
  | pushByte | pushShort | loadConstant | loadConstantIndexed | load | store | invokeVirtual =>
    exact .bind (.word _) fun _ => .pure _
  | increment => exact .bind (.word _) fun _ => .bind (.word _) fun _ => .pure _
  | branch => exact .bind (shortTarget _) fun _ => .pure _
  | jump long | subroutine long =>
    cases long
    · exact .bind (shortTarget _) fun _ => .pure _
    · exact .bind (longTarget _) fun _ => .pure _
  | switch kind => exact switch offset kind
  | widePrefix => exact widened offset
  | verbatim info => exact verbatim pool offset opcode info
  | invalid => exact .throw _

end Advances

/-- An instruction takes at least its opcode. -/
theorem position_instruction_lt {pool : ConstantPool} {start stop : Cursor}
    {decoded : Instruction Nat} (h : instruction pool start = .ok (decoded, stop)) :
    stop.data = start.data ∧ start.position < stop.position := by
  change (Reader.word UInt8 start >>= fun result =>
    operands pool start.position result.1 (Shape.ofOpcode result.1) result.2) = _ at h
  cases read : Reader.word UInt8 start with
  | error e => rw [read] at h; cases h
  | ok result =>
    rw [read] at h
    obtain ⟨data, position⟩ := Reader.position_word read
    obtain ⟨data', position'⟩ := Advances.operands _ _ _ _ _ _ _ h
    have size : BigEndian.size UInt8 = 1 := rfl
    exact ⟨data'.trans data, by omega⟩

/-- Reads instructions until the data ends; `seen` holds those already read, each with its
offset. -/
def stream (pool : ConstantPool) (cursor : Cursor) (seen : Array (Nat × Instruction Nat)) :
    Except Error (Array (Nat × Instruction Nat)) :=
  if cursor.position < cursor.data.size then
    match _read : instruction pool cursor with
    | .error e => .error e
    | .ok (decoded, rest) => stream pool rest (seen.push (cursor.position, decoded))
  else .ok seen
  termination_by cursor.data.size - cursor.position
  decreasing_by
    obtain ⟨data, position⟩ := position_instruction_lt _read
    rw [data]
    omega

/-- The place in the stream of the instruction that starts at an offset. -/
def boundaries (stream : Array (Nat × Instruction Nat)) : Std.HashMap Nat Nat :=
  stream.zipIdx.foldl (fun table ((offset, _), index) => table.insert offset index) ∅

/-- The handle of the instruction that starts at an offset. -/
def resolveOffset (boundaries : Std.HashMap Nat Nat) (codeLength offset : Nat) :
    Except Error Handle :=
  match boundaries[offset]? with
  | some index => .ok ⟨index⟩
  | none => .error (.malformed (.notABoundary offset codeLength))

/-- An exception entry with its offsets resolved. One that ends with the code has no `stop`. -/
def exceptionHandler (resolve : Nat → Except Error Handle) (codeLength : Nat)
    (entry : ExceptionEntry) : Except Error ExceptionHandler := do
  let start ← resolve entry.start.toNat
  let stop ←
    if entry.stop.toNat = codeLength then pure none
    else some <$> resolve entry.stop.toNat
  return ⟨start, stop, ← resolve entry.handler.toNat, entry.catchType⟩

end Decoding

/-- The listing of a code array. The handle of an instruction is its place in the code. -/
def Code.decode (code : Code) (pool : ConstantPool) : Except Error Listing := do
  let stream ← Decoding.stream pool (.ofBytes code.bytes) #[]
  let resolve := Decoding.resolveOffset (Decoding.boundaries stream) code.bytes.size
  let instructions ← stream.mapM fun (_, decoded) => decoded.mapTargetsM resolve
  let handlers ← code.exceptionTable.mapM (Decoding.exceptionHandler resolve code.bytes.size)
  return { Listing.ofInstructions instructions with handlers }

end BytecodeFold
