import BytecodeFold.Fold.Match
import BytecodeFold.Fold.Session

/-!
# Fold rules and passes

A rule finds a shape in the stream and tries to replace it. Its pass goes through the
stream from the front and applies the first fold that works; a match that cannot be folded
is recorded and passed over.
-/

namespace BytecodeFold

/-- What became of one match. -/
inductive Attempt where
  /-- The listing and pool after the fold, with a note on what was folded. -/
  | folded (listing : Listing) (pool : ConstantPool) (note : String)
  | skipped (reason : String)

/-- How one kind of fold is found and applied. -/
structure FoldRule (α : Type) where
  name : String
  description : String
  /-- The fewest instructions that can hold the shape. -/
  shortest : Nat
  event : EventKind
  /-- The shape at the start of these lines. -/
  matchAt? : List Line → Option α
  attempt : Listing → ConstantPool → α → Except Error Attempt

/-- One fold attempt on a session: whether a fold was applied, and the session after it. The
session is given back also after an error. -/
structure FoldPass where
  name : String
  description : String := "No description available"
  /-- Whether the pass can find anything in a listing. -/
  shouldRun : Listing → Bool := fun _ => true
  run : Session → Except Error Bool × Session

namespace FoldRule

variable {α : Type}

/-- Tries the matches in `lines` from the front until a fold is applied. -/
def scan (rule : FoldRule α) : List Line → Session → Except Error Bool × Session
  | [], session => (.ok false, session)
  | line :: rest, session =>
    match rule.matchAt? (line :: rest) with
    | none => rule.scan rest session
    | some found =>
      match rule.attempt session.listing session.pool found with
      | .ok (.folded listing pool note) =>
        (.ok true, ({ session with listing, pool }.record rule.event line.handle
          (some rule.name) (some note)).countFold)
      | .ok (.skipped reason) => rule.scan rest (session.skip rule.name line.handle reason)
      | .error e =>
        if e.isRecoverable then rule.scan rest (session.skip rule.name line.handle e.message)
        else (.error e, session)

/-- The pass of a rule. -/
def pass (rule : FoldRule α) : FoldPass where
  name := rule.name
  description := rule.description
  shouldRun listing := rule.shortest ≤ listing.size
  run session := rule.scan session.listing.lines.toList session

end FoldRule

/-- Puts an instruction in the place of the lines from `first` through `last`, under the
handle of `first`. Gives up with a reason if one of the lines after `first` is referred to
from outside them. `replacement` is only computed if not. -/
def replaceSegment (listing : Listing) (first last : Handle)
    (replacement : Except Error (Instruction Handle × ConstantPool × String)) :
    Except Error Attempt := do
  let some start := listing.next? first | throw (.invalidHandle first)
  let segment ← listing.range start last
  match listing.externalReferrer? segment with
  | some (target, referrer) =>
    return .skipped s!"{target.text} is targeted by {referrer.text}"
  | none =>
    let (instruction, pool, note) ← replacement
    let (_, listing) ← listing.set first instruction
    return .folded (← listing.deleteRange start last) pool note

end BytecodeFold
