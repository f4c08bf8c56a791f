/-!
# Events

Every fold, every match that was passed over and every outcome of a method is recorded as
an event. A log only grows.
-/

namespace BytecodeFold

inductive EventKind where
  | constantFolded
  | comparisonFolded
  | foldSkipped
  | methodOptimized
  | methodAborted
  | methodUnchanged
  | warning
  deriving DecidableEq

namespace EventKind

def description : EventKind → String
  | constantFolded => "constant folded"
  | comparisonFolded => "comparison folded"
  | foldSkipped => "fold skipped"
  | methodOptimized => "method optimized"
  | methodAborted => "method aborted"
  | methodUnchanged => "method unchanged"
  | warning => "warning"

/-- Whether an event of this kind changed code. -/
def isTransformation : EventKind → Bool
  | constantFolded | comparisonFolded => true
  | _ => false

end EventKind

/-- Something that happened while a class was optimized. -/
structure Event where
  kind : EventKind
  /-- The signature of the method it happened in. -/
  method : Option String := none
  /-- The offset in the code array before any fold. -/
  location : Option Nat := none
  /-- The fold it belongs to. -/
  pass : Option String := none
  /-- What happened, if there is more to say than the kind does. -/
  note : Option String := none
  deriving DecidableEq

namespace Event

def message (event : Event) : String := event.note.getD event.kind.description

def text (event : Event) : String :=
  let method := match event.method with
    | some method => s!" {method}"
    | none => ""
  let location := match event.location with
    | some location => s!"@{location}"
    | none => ""
  s!"[{event.kind.description}]{method}{location} {event.message}"

end Event

/-- Events in the order in which they were recorded. -/
structure EventLog where
  events : Array Event := #[]
  deriving DecidableEq

namespace EventLog

def size (log : EventLog) : Nat := log.events.size

def isEmpty (log : EventLog) : Bool := log.events.isEmpty

def record (log : EventLog) (event : Event) : EventLog := ⟨log.events.push event⟩

def ofKind (log : EventLog) (kind : EventKind) : Array Event :=
  log.events.filter (·.kind == kind)

def has (log : EventLog) (kind : EventKind) : Bool := log.events.any (·.kind == kind)

def count (log : EventLog) (kind : EventKind) : Nat := log.events.countP (·.kind == kind)

/-- How many events changed code. -/
def transformations (log : EventLog) : Nat := log.events.countP (·.kind.isTransformation)

/-- The log without its first `count` events. -/
def drop (log : EventLog) (count : Nat) : EventLog := ⟨log.events.extract count⟩

end EventLog

end BytecodeFold
