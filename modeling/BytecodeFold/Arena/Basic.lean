import BytecodeFold.Listing.Basic

/-!
# Arenas

An arena keeps the instructions of a method body in nodes that are linked to their neighbours in
stream order. A handle is the place of a node. A deleted instruction leaves its node behind, dead
and without links, so that its handle names nothing from then on.

Every call gives back its answer and the arena as the call has left it, also when it fails. Handles
are 32-bit words; an arena that has given out all of them gives out the last one again.

`Arena.listing` is the listing that the links of an arena spell out.
-/

namespace BytecodeFold

/-- One place of an arena. -/
structure Node where
  instruction : Instruction Handle
  prev : Option Handle
  next : Option Handle
  live : Bool := true
  /-- The offset that the last layout has written. -/
  position : UInt32 := 0
  /-- Whether a jump has been laid out in its long form. -/
  long : Bool := false
  deriving DecidableEq

namespace Node

/-- The line of a node that stands in the stream under this handle. -/
def line (node : Node) (handle : Handle) : Line := ⟨handle, node.instruction, node.long⟩

/-- A node that has been taken out of the stream. -/
def retired (node : Node) : Node := { node with prev := none, next := none, live := false }

end Node

structure Arena where
  nodes : Array Node
  head : Option Handle
  tail : Option Handle
  /-- How many nodes are live. -/
  size : Nat
  handlers : Array ExceptionHandler
  /-- Whether the positions in the nodes are those of the stream as it stands. -/
  positionsValid : Bool
  deriving DecidableEq

namespace Arena

def empty : Arena := ⟨#[], none, none, 0, #[], false⟩

def isEmpty (arena : Arena) : Bool := arena.size == 0

/-- The node of a live handle. -/
def node? (arena : Arena) (handle : Handle) : Option Node :=
  arena.nodes[handle.index]?.filter (·.live)

def contains (arena : Arena) (handle : Handle) : Bool := (arena.node? handle).isSome

def get? (arena : Arena) (handle : Handle) : Option (Instruction Handle) :=
  (arena.node? handle).map (·.instruction)

def next? (arena : Arena) (handle : Handle) : Option Handle := (arena.node? handle).bind (·.next)

def prev? (arena : Arena) (handle : Handle) : Option Handle := (arena.node? handle).bind (·.prev)

/-- The live nodes on the way along the links, for at most so many steps. -/
def walk (arena : Arena) : Nat → Option Handle → List (Handle × Node)
  | 0, _ | _, none => []
  | steps + 1, some handle =>
    match arena.node? handle with
    | some node => (handle, node) :: arena.walk steps node.next
    | none => []

/-- The nodes in stream order. A stream visits no node twice, so it takes no more steps than there
are nodes. -/
def entries (arena : Arena) : List (Handle × Node) := arena.walk arena.nodes.size arena.head

/-- The listing that an arena holds. -/
def listing (arena : Arena) : Listing where
  lines := (arena.entries.map fun (handle, node) => node.line handle).toArray
  fresh := arena.nodes.size
  handlers := arena.handlers
  laidOut := arena.positionsValid

/-! ## Edits -/

def modify (arena : Arena) (handle : Handle) (change : Node → Node) : Arena :=
  { arena with nodes := arena.nodes.modify handle.index change }

/-- Changes the nodes of these handles. -/
def modifyAll (arena : Arena) (handles : List Handle) (change : Node → Node) : Arena :=
  handles.foldl (·.modify · change) arena

/-- Makes `next` the successor of `prev`, or the head if there is no `prev`. -/
def linkNext (arena : Arena) (prev next : Option Handle) : Arena :=
  match prev with
  | some handle => arena.modify handle ({ · with next })
  | none => { arena with head := next }

/-- Makes `prev` the predecessor of `next`, or the tail if there is no `next`. -/
def linkPrev (arena : Arena) (next prev : Option Handle) : Arena :=
  match next with
  | some handle => arena.modify handle ({ · with prev })
  | none => { arena with tail := prev }

/-- Adds a node with these links, which nothing links to yet. -/
def allocate (arena : Arena) (instruction : Instruction Handle) (prev next : Option Handle) :
    Handle × Arena :=
  (⟨min arena.nodes.size 4294967295⟩, { arena with
    nodes := arena.nodes.push { instruction, prev, next }
    size := arena.size + 1
    positionsValid := false })

/-- Puts a new instruction between two neighbours. -/
def insertBetween (arena : Arena) (prev next : Option Handle) (instruction : Instruction Handle) :
    Handle × Arena :=
  let (handle, arena) := arena.allocate instruction prev next
  (handle, (arena.linkNext prev (some handle)).linkPrev next (some handle))

def append (arena : Arena) (instruction : Instruction Handle) : Handle × Arena :=
  arena.insertBetween arena.tail none instruction

/-- The arena of these instructions under the handles `0`, `1`, and so on. -/
def ofInstructions (instructions : Array (Instruction Handle)) : Arena :=
  instructions.foldl (fun arena instruction => (arena.append instruction).2) empty

def insertBefore (arena : Arena) (handle : Handle) (instruction : Instruction Handle) :
    Except Error Handle × Arena :=
  match arena.node? handle with
  | some node => (arena.insertBetween node.prev (some handle) instruction).map .ok id
  | none => (.error (.invalidHandle handle), arena)

def insertAfter (arena : Arena) (handle : Handle) (instruction : Instruction Handle) :
    Except Error Handle × Arena :=
  match arena.node? handle with
  | some node => (arena.insertBetween (some handle) node.next instruction).map .ok id
  | none => (.error (.invalidHandle handle), arena)

/-- Replaces the instruction under a handle and gives back the one that stood there. -/
def set (arena : Arena) (handle : Handle) (instruction : Instruction Handle) :
    Except Error (Instruction Handle) × Arena :=
  match arena.node? handle with
  | some node =>
    let changed := arena.modify handle ({ · with instruction, long := false })
    (.ok node.instruction, { changed with positionsValid := false })
  | none => (.error (.invalidHandle handle), arena)

/-- The first of these handles that is not live. -/
def firstMissing? (arena : Arena) (handles : List Handle) : Option Handle :=
  handles.find? (!arena.contains ·)

/-- Appends an exception handler whose handles are all live. -/
def addHandler (arena : Arena) (entry : ExceptionHandler) : Except Error Unit × Arena :=
  match arena.firstMissing? entry.handles with
  | some missing => (.error (.invalidHandle missing), arena)
  | none => (.ok (), { arena with handlers := arena.handlers.push entry })

/-! ## Segments -/

/-- The handles on the way along the links through `stop`, if it is reached in so many steps. -/
def through? (arena : Arena) (stop : Handle) : Nat → Option Handle → Option (List Handle)
  | 0, _ | _, none => none
  | steps + 1, some handle =>
    if handle = stop then some [handle]
    else (arena.through? stop steps (arena.next? handle)).map (handle :: ·)

/-- The handles from `start` through `stop` in stream order. -/
def range (arena : Arena) (start stop : Handle) : Except Error (List Handle) :=
  match arena.firstMissing? [start, stop] with
  | some missing => .error (.invalidHandle missing)
  | none =>
    match arena.through? stop arena.nodes.size (some start) with
    | some segment => .ok segment
    | none => .error (.invalidOperand
      s!"{stop.text} does not follow {start.text} in the instruction stream")

/-- Takes the nodes from `start` through `stop` out of the stream. -/
def unlink (arena : Arena) (start stop : Handle) (segment : List Handle) : Arena :=
  let before := arena.prev? start
  let after := arena.next? stop
  let joined := (arena.linkNext before after).linkPrev after before
  let cleared := joined.modifyAll segment Node.retired
  { cleared with size := cleared.size - segment.length, positionsValid := false }

/-- Deletes the instructions from `start` through `stop`, unless something outside refers to one
of them. -/
def deleteRange (arena : Arena) (start stop : Handle) : Except Error Unit × Arena :=
  match arena.range start stop with
  | .error e => (.error e, arena)
  | .ok segment =>
    match arena.listing.externalReferrer? segment with
    | some (target, referrer) => (.error (.danglingTarget target referrer), arena)
    | none => (.ok (), arena.unlink start stop segment)

def delete (arena : Arena) (handle : Handle) : Except Error Unit × Arena :=
  arena.deleteRange handle handle

end Arena

end BytecodeFold
