import BytecodeFold.ConstantPool.Lookup
import BytecodeFold.Instruction.Text
import BytecodeFold.Listing.Basic

/-!
# Values of operands

A literal carries its value, and a constant of the pool is looked up. The value of a local
is known only if it was stored as a literal on the straight line of code in front of the
load: going back from the load, the search gives up at the start of the code, at an
instruction that control can reach in another way, and at anything else that writes the
local.
-/

namespace BytecodeFold

namespace Listing

/-- The instructions control can reach other than from the line before: targets of
branches, exception handlers, and the instruction after a subroutine call. -/
def mergePoints (listing : Listing) : Std.HashSet Handle :=
  let targets := listing.lines.foldl
    (fun points line => line.instruction.targets.foldl (·.insert ·) points) ∅
  let entries := listing.handlers.foldl (fun points entry => points.insert entry.handler) targets
  let returns (points : Std.HashSet Handle) (line : Line) (index : Nat) : Std.HashSet Handle :=
    match line.instruction, listing.lines[index + 1]? with
    | .subroutine _, some next => points.insert next.handle
    | _, _ => points
  listing.lines.zipIdx.foldl (fun points (line, index) => returns points line index) entries

/-- The lines before a handle, nearest first. -/
def linesBefore (listing : Listing) (handle : Handle) : List Line :=
  (listing.lines.toList.takeWhile (·.handle != handle)).reverse

/-- The number and type of a literal or a constant of the pool; `none` for other
instructions. -/
def literal? (pool : ConstantPool) : Instruction Handle → Except Error (Option (Number × TypeTag))
  | .push value type => .ok (some (value, type))
  | .loadConstant index _ => do
    let value ← pool.number index
    return some (value, value.naturalType)
  | _ => .ok none

/-- Whether a line changes a local: a store to it or across it, or an increment of it. -/
def writesAcross (slot : UInt16) : Instruction Handle → Bool
  | .store stored type => stored < slot && slot.toNat < stored.toNat + type.slots
  | .increment incremented _ => incremented == slot
  | _ => false

/-- The line before the store that defines a local, and the lines before it: `none` when
the search has to give up. `lines` are the lines in front, nearest first. -/
def definition? (points : Std.HashSet Handle) (slot : UInt16) : List Line → Option (List Line)
  | [] => none
  | line :: before =>
    match line.instruction with
    | .store stored _ =>
      if stored = slot then if points.contains line.handle then none else some before
      else if writesAcross slot line.instruction || points.contains line.handle then none
      else definition? points slot before
    | _ =>
      if writesAcross slot line.instruction || points.contains line.handle then none
      else definition? points slot before

/-- The value of the local that the load at a handle reads. -/
def loadValue (listing : Listing) (pool : ConstantPool) (handle : Handle) (slot : UInt16) :
    Except Error (Number × TypeTag) :=
  let points := listing.mergePoints
  if points.contains handle then .error (.unresolvedLoad slot)
  else
    match definition? points slot (listing.linesBefore handle) with
    | some (source :: _) => do
      match ← literal? pool source.instruction with
      | some value => return value
      | none => throw (.unresolvedLoad slot)
    | _ => .error (.unresolvedLoad slot)

/-- The value the load at a handle reads. -/
def resolveLoad (listing : Listing) (pool : ConstantPool) (handle : Handle) :
    Except Error (Number × TypeTag) :=
  match listing.get? handle with
  | some (.load slot _) => listing.loadValue pool handle slot
  | some code =>
    .error (.invalidOperand s!"{code.text} at {handle.text} is not a local variable load")
  | none => .error (.invalidHandle handle)

/-- The value the operand at a handle puts on the stack. -/
def operandValue (listing : Listing) (pool : ConstantPool) (handle : Handle) :
    Except Error (Number × TypeTag) :=
  match listing.get? handle with
  | some (.load slot _) => listing.loadValue pool handle slot
  | some code => do
    match ← literal? pool code with
    | some value => return value
    | none => throw (.invalidOperand s!"{code.text} at {handle.text} is not an operand")
  | none => .error (.invalidHandle handle)

end Listing

end BytecodeFold
