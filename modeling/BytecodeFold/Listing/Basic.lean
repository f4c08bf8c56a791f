import Std.Data.HashMap
import Std.Data.HashSet
import BytecodeFold.Instruction.Basic

/-!
# Listings

A listing is the instructions of a method body in stream order, each under its handle,
together with the exception handlers. Edits give out fresh handles and never reuse one.
An edit makes the layout stale; adding an exception handler does not, since it moves no
instruction.
-/

namespace BytecodeFold

/-- One instruction of a listing. -/
structure Line where
  handle : Handle
  instruction : Instruction Handle
  /-- Whether a jump has been laid out in its long form. -/
  long : Bool := false
  deriving DecidableEq

/-- Whether a line is a jump in its short form. -/
def Line.isShortJump (line : Line) : Bool := line.instruction.isJump && !line.long

/-- A handler for the exceptions thrown from `start` up to `stop`, or up to the end of the
code when there is no `stop`. -/
structure ExceptionHandler where
  start : Handle
  stop : Option Handle
  handler : Handle
  catchType : UInt16
  deriving DecidableEq

namespace ExceptionHandler

/-- The handles of an exception handler, in the order in which they are checked. -/
def handles (entry : ExceptionHandler) : List Handle :=
  entry.start :: entry.stop.toList ++ [entry.handler]

def refersTo (entry : ExceptionHandler) (handle : Handle) : Bool :=
  entry.start == handle || entry.stop == some handle || entry.handler == handle

@[simp]
theorem refersTo_eq_true {entry : ExceptionHandler} {handle : Handle} :
    entry.refersTo handle = true ↔ handle ∈ entry.handles := by
  simp [refersTo, handles, @eq_comm _ handle, or_assoc]

end ExceptionHandler

/-- The instructions of a method body. -/
structure Listing where
  lines : Array Line
  /-- The index of the next handle to give out. -/
  fresh : Nat
  handlers : Array ExceptionHandler
  /-- Whether the lines are laid out as they stand. -/
  laidOut : Bool
  deriving DecidableEq

namespace Listing

def empty : Listing := ⟨#[], 0, #[], false⟩

def size (listing : Listing) : Nat := listing.lines.size

/-- The handles in stream order. -/
def handles (listing : Listing) : List Handle := listing.lines.toList.map (·.handle)

def head? (listing : Listing) : Option Handle := listing.lines[0]?.map (·.handle)

/-- The place of a handle in the stream. -/
def indexOf? (listing : Listing) (handle : Handle) : Option Nat :=
  listing.lines.findIdx? (·.handle == handle)

def line? (listing : Listing) (handle : Handle) : Option Line :=
  listing.lines.find? (·.handle == handle)

def contains (listing : Listing) (handle : Handle) : Bool :=
  listing.lines.any (·.handle == handle)

def get? (listing : Listing) (handle : Handle) : Option (Instruction Handle) :=
  (listing.line? handle).map (·.instruction)

/-- The handle after this one in the stream. -/
def next? (listing : Listing) (handle : Handle) : Option Handle := do
  let index ← listing.indexOf? handle
  let line ← listing.lines[index + 1]?
  return line.handle

/-- The handle before this one in the stream. -/
def prev? (listing : Listing) (handle : Handle) : Option Handle := do
  let index ← listing.indexOf? handle
  if index = 0 then none
  else
    let line ← listing.lines[index - 1]?
    return line.handle

/-- The lines from a handle on, none if it is not in the stream. -/
def linesFrom (listing : Listing) (handle : Handle) : List Line :=
  listing.lines.toList.dropWhile (·.handle != handle)

/-! ## Edits -/

/-- Puts a new instruction in front of the line with this index. -/
def insertAt (listing : Listing) (index : Nat) (instruction : Instruction Handle) :
    Handle × Listing :=
  let handle : Handle := ⟨listing.fresh⟩
  let line : Line := { handle, instruction }
  (handle, { listing with
    lines := listing.lines.extract 0 index ++ #[line] ++ listing.lines.extract index
    fresh := listing.fresh + 1
    laidOut := false })

def append (listing : Listing) (instruction : Instruction Handle) : Handle × Listing :=
  let handle : Handle := ⟨listing.fresh⟩
  (handle, { listing with
    lines := listing.lines.push { handle, instruction }
    fresh := listing.fresh + 1
    laidOut := false })

/-- The listing of these instructions under the handles `0`, `1`, and so on. -/
def ofInstructions (instructions : Array (Instruction Handle)) : Listing :=
  instructions.foldl (fun listing instruction => (listing.append instruction).2) empty

def insertBefore (listing : Listing) (handle : Handle) (instruction : Instruction Handle) :
    Except Error (Handle × Listing) :=
  match listing.indexOf? handle with
  | some index => .ok (listing.insertAt index instruction)
  | none => .error (.invalidHandle handle)

def insertAfter (listing : Listing) (handle : Handle) (instruction : Instruction Handle) :
    Except Error (Handle × Listing) :=
  match listing.indexOf? handle with
  | some index => .ok (listing.insertAt (index + 1) instruction)
  | none => .error (.invalidHandle handle)

/-- Replaces the instruction under a handle and gives back the one that stood there. -/
def set (listing : Listing) (handle : Handle) (instruction : Instruction Handle) :
    Except Error (Instruction Handle × Listing) :=
  match listing.get? handle with
  | some old => .ok (old, { listing with
      lines := listing.lines.map fun line =>
        if line.handle = handle then { handle, instruction } else line
      laidOut := false })
  | none => .error (.invalidHandle handle)

/-- The first of these handles that is not in the stream. -/
def firstMissing? (listing : Listing) (handles : List Handle) : Option Handle :=
  handles.find? (!listing.contains ·)

/-- Appends an exception handler whose handles are all in the stream. -/
def addHandler (listing : Listing) (entry : ExceptionHandler) : Except Error Listing :=
  match listing.firstMissing? entry.handles with
  | some missing => .error (.invalidHandle missing)
  | none => .ok { listing with handlers := listing.handlers.push entry }

/-! ## Segments -/

/-- The handles from `start` through `stop` in stream order. -/
def range (listing : Listing) (start stop : Handle) : Except Error (List Handle) :=
  match listing.firstMissing? [start, stop] with
  | some missing => .error (.invalidHandle missing)
  | none =>
    let tail := (listing.linesFrom start).map (·.handle)
    let inner := tail.takeWhile (· != stop)
    if inner.length < tail.length then .ok (inner ++ [stop])
    else .error (.invalidOperand
      s!"{stop.text} does not follow {start.text} in the instruction stream")

/-- Everything that refers to a handle: instructions in stream order, then exception
handlers. -/
def referrers (listing : Listing) (handle : Handle) : List Referrer :=
  let sources := listing.lines.toList.filter (·.instruction.branchesTo handle)
  let entries := listing.handlers.toList.zipIdx.filter (·.1.refersTo handle)
  sources.map (.instruction ·.handle) ++ entries.map (.exceptionHandler ·.2)

def isReferredTo (listing : Listing) (handle : Handle) : Bool :=
  listing.handlers.any (·.refersTo handle) ||
    listing.lines.any (·.instruction.branchesTo handle)

/-- A handle of a segment with something outside the segment that refers to it: the first
exception handler that does, else the first instruction. -/
def externalReferrer? (listing : Listing) (segment : List Handle) : Option (Handle × Referrer) :=
  let inside : Std.HashSet Handle := .ofList segment
  let fromHandler := listing.handlers.toList.zipIdx.findSome? fun (entry, index) =>
    (segment.find? entry.refersTo).map (·, .exceptionHandler index)
  let fromLine (line : Line) : Option (Handle × Referrer) :=
    if inside.contains line.handle then none
    else (line.instruction.targets.find? inside.contains).map (·, .instruction line.handle)
  fromHandler <|> listing.lines.findSome? fromLine

/-- Deletes the lines from `start` through `stop`, unless something outside refers to one
of them. -/
def deleteRange (listing : Listing) (start stop : Handle) : Except Error Listing := do
  let segment ← listing.range start stop
  if let some (target, referrer) := listing.externalReferrer? segment then
    throw (.danglingTarget target referrer)
  let doomed : Std.HashSet Handle := .ofList segment
  return { listing with
    lines := listing.lines.filter (!doomed.contains ·.handle)
    laidOut := false }

def delete (listing : Listing) (handle : Handle) : Except Error Listing :=
  listing.deleteRange handle handle

end Listing

end BytecodeFold
