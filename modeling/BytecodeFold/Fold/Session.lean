import BytecodeFold.ConstantPool.Basic
import BytecodeFold.Event.Log
import BytecodeFold.Listing.Layout

/-!
# Fold sessions

The state of one method while it is folded: its listing, a working copy of the constant
pool, the event log, and where every instruction stood before the first fold.
-/

namespace BytecodeFold

structure Session where
  listing : Listing
  /-- The constant pool, extended by the folds. -/
  pool : ConstantPool
  log : EventLog
  /-- The signature of the method. -/
  method : String
  /-- The offsets of the instructions when the session began. -/
  origins : Std.HashMap Handle Nat
  /-- The instructions where a match has been reported as skipped. -/
  reported : Std.HashSet Handle
  /-- The number of folds so far. -/
  folds : Nat

namespace Session

/-- A session on a listing. Offsets are known for a listing that is laid out. -/
def start (listing : Listing) (pool : ConstantPool) (log : EventLog) (method : String) :
    Session where
  listing := listing
  pool := pool
  log := log
  method := method
  origins := listing.offsets
  reported := ∅
  folds := 0

/-- The offset of an instruction when the session began. -/
def origin? (session : Session) (handle : Handle) : Option Nat := session.origins[handle]?

/-- Records an event of this method at an instruction. -/
def record (session : Session) (kind : EventKind) (handle : Handle)
    (pass : Option String := none) (note : Option String := none) : Session :=
  let event : Event :=
    { kind, method := some session.method, location := session.origin? handle, pass, note }
  { session with log := session.log.record event }

/-- Records that the match at an instruction was skipped, the first time only. -/
def skip (session : Session) (pass : String) (handle : Handle) (reason : String) : Session :=
  if session.reported.contains handle then session
  else
    { session.record .foldSkipped handle (some pass) (some reason) with
      reported := session.reported.insert handle }

/-- Counts a fold. -/
def countFold (session : Session) : Session := { session with folds := session.folds + 1 }

end Session

end BytecodeFold
