import BytecodeFold.Arena.Layout
import BytecodeFold.Encoding

/-!
# Encoding of an arena

Writes the instructions of an arena one after another, as the positions in its nodes say.
-/

namespace BytecodeFold

namespace Arena

/-- The offsets that instructions are written with. -/
def offsets (arena : Arena) (handle : Handle) : Option Nat :=
  (arena.position? handle).map (·.toNat)

/-- Whether the jump at a handle has been laid out in its long form. -/
def isLong (arena : Arena) (handle : Handle) : Bool := (arena.node? handle).any (·.long)

/-- The bytes of an instruction as if it stood at a handle of the arena. -/
def encodeAt (arena : Arena) (handle : Handle) (code : Instruction Handle) :
    Except Error (List UInt8) :=
  Encoding.instruction arena.offsets handle (arena.isLong handle) code

/-- The code array and the exception table of an arena that is laid out at this length. -/
def emit (arena : Arena) (length : Nat) : Except Error (Array UInt8 × Array ExceptionEntry) := do
  let bytes ← arena.entries.foldlM
    (fun (bytes : Array UInt8) (handle, node) =>
      return bytes ++ (← arena.encodeAt handle node.instruction))
    #[]
  if bytes.size ≠ length then throw (.malformed (.lengthMismatch bytes.size length))
  return (bytes, ← arena.handlers.mapM (Encoding.exceptionEntry arena.offsets length))

/-- Lays the arena out and encodes it. -/
def encode (arena : Arena) : Except Error (Array UInt8 × Array ExceptionEntry) × Arena :=
  match arena.layout with
  | (.ok length, laid) => (laid.emit length.toNat, laid)
  | (.error e, laid) => (.error e, laid)

end Arena

end BytecodeFold
