import BytecodeFold.Fold.Rule

/-!
# Schedules

A schedule gives each of its passes one attempt per iteration, in order, and is done after
an iteration that applied no fold. A bound on the iterations stops it in any case.
-/

namespace BytecodeFold

/-- Passes in the order in which they run. -/
structure Schedule where
  maxIterations : Nat := 10000
  passes : List FoldPass := []

namespace Schedule

def isEmpty (schedule : Schedule) : Bool := schedule.passes.isEmpty

def passNames (schedule : Schedule) : List String := schedule.passes.map (·.name)

/-- Gives every pass one attempt and says whether one of them folded. -/
def runOnce : List FoldPass → Bool → Session → Except Error Bool × Session
  | [], changed, session => (.ok changed, session)
  | pass :: passes, changed, session =>
    if pass.shouldRun session.listing then
      match pass.run session with
      | (.ok folded, session) => runOnce passes (changed || folded) session
      | (.error e, session) => (.error e, session)
    else runOnce passes changed session

/-- Up to `remaining` more iterations after the first `done`. -/
def iterate (schedule : Schedule) : Nat → Nat → Session → Except Error Nat × Session
  | 0, _, session =>
    let note := s!"iteration bound of {schedule.maxIterations} reached after {session.folds} folds"
    let event : Event := { kind := .warning, method := some session.method, note := some note }
    (.ok schedule.maxIterations, { session with log := session.log.record event })
  | remaining + 1, done, session =>
    match runOnce schedule.passes false session with
    | (.ok true, session) => schedule.iterate remaining (done + 1) session
    | (.ok false, session) => (.ok (done + 1), session)
    | (.error e, session) => (.error e, session)

/-- Runs the passes until an iteration applies no fold. Gives the number of iterations, that
one included. -/
def run (schedule : Schedule) (session : Session) : Except Error Nat × Session :=
  schedule.iterate schedule.maxIterations 0 session

end Schedule

end BytecodeFold
