import BytecodeFold.ClassModel
import BytecodeFold.Decoding
import BytecodeFold.Encoding
import BytecodeFold.Event.Stats
import BytecodeFold.Fold.Arithmetic
import BytecodeFold.Fold.Comparison
import BytecodeFold.Fold.Schedule
import BytecodeFold.StackDepth

/-!
# The optimizer

Decodes the methods of a class, folds them and encodes them again. The methods share the
constant pool, which only grows; a method that fails leaves it as it was. An error that is
local to one method is recorded and the method kept as it was, any other fails the class.
-/

namespace BytecodeFold

/-- Which folds run and how the result is produced. -/
structure Config where
  foldArithmetic : Bool := true
  foldComparisons : Bool := true
  /-- The most iterations spent on one method. -/
  maxIterations : Nat := 10000
  /-- Whether a method without folds keeps its bytes. If not, every method is encoded
  anew. -/
  keepUnmodifiedBytes : Bool := true
  deriving DecidableEq

namespace Config

/-- The configuration without any fold. -/
def disabled : Config := { foldArithmetic := false, foldComparisons := false }

def anyEnabled (config : Config) : Bool := config.foldArithmetic || config.foldComparisons

/-- The enabled folds, arithmetic first. -/
def schedule (config : Config) : Schedule where
  maxIterations := config.maxIterations
  passes :=
    (if config.foldArithmetic then [arithmeticFold.pass] else []) ++
    (if config.foldComparisons then [comparisonFold.pass] else [])

end Config

/-- The code of a session's listing, with its stack depth and locals. -/
def Session.finish (session : Session) (method : Method) : Except Error Code := do
  let (encoded, listing) := session.listing.encode
  let (bytes, exceptionTable) ← encoded
  let maxStack ← listing.maxStack session.pool
  let maxLocals ← listing.maxLocals (← method.argumentSlots)
  return { maxStack, maxLocals, bytes, exceptionTable }

/-- A listing of a method's code that is laid out. -/
def Code.load (code : Code) (pool : ConstantPool) : Except Error Listing := do
  match (← code.decode pool).layout with
  | (.ok _, listing) => return listing
  | (.error e, _) => throw e

namespace Schedule

/-- Optimizes code that belongs to a method. Gives the method and the pool after it; the log
grows also when this fails. -/
def optimizeCode (schedule : Schedule) (keep : Bool) (method : Method) (code : Code)
    (pool : ConstantPool) (log : EventLog) : Except Error (Method × ConstantPool) × EventLog :=
  match code.load pool with
  | .error e => (.error e, log)
  | .ok listing =>
    let signature := method.signature
    match schedule.run (.start listing pool log signature) with
    | (.error e, session) => (.error e, session.log)
    | (.ok _, session) =>
      if session.folds = 0 && keep then
        let event : Event :=
          { kind := .methodUnchanged, method := some signature,
            note := some "no foldable sequence" }
        (.ok (method, pool), session.log.record event)
      else
        match session.finish method with
        | .error e => (.error e, session.log)
        | .ok optimized =>
          let note :=
            s!"{session.folds} folds, {code.bytes.size} -> {optimized.bytes.size} bytes"
          let event : Event :=
            { kind := .methodOptimized, method := some signature, note := some note }
          (.ok ({ method with code := some optimized }, session.pool), session.log.record event)

/-- Optimizes a method. One without code stays as it is. -/
def optimizeMethod (schedule : Schedule) (keep : Bool) (method : Method) (pool : ConstantPool)
    (log : EventLog) : Except Error (Method × ConstantPool) × EventLog :=
  match method.code with
  | none => (.ok (method, pool), log)
  | some code => schedule.optimizeCode keep method code pool log

end Schedule

/-- A configuration with the log of everything done under it. -/
structure Optimizer where
  config : Config := {}
  log : EventLog := {}

namespace Optimizer

/-- The names of the enabled folds. -/
def passNames (optimizer : Optimizer) : List String := optimizer.config.schedule.passNames

def stats (optimizer : Optimizer) : Stats := .ofLog optimizer.log

def clear (optimizer : Optimizer) : Optimizer := { optimizer with log := {} }

/-- Optimizes a method against a pool. Errors that are local to the method are errors
here too. -/
def optimizeMethod (optimizer : Optimizer) (method : Method) (pool : ConstantPool) :
    Except Error (Method × ConstantPool) × Optimizer :=
  let config := optimizer.config
  let (result, log) :=
    config.schedule.optimizeMethod config.keepUnmodifiedBytes method pool optimizer.log
  (result, { optimizer with log })

/-- Optimizes a method, or keeps it after an error that is local to it. -/
def optimizeOrKeep (optimizer : Optimizer) (method : Method) (pool : ConstantPool) :
    Except Error (Method × ConstantPool) × Optimizer :=
  match optimizer.optimizeMethod method pool with
  | (.ok result, optimizer) => (.ok result, optimizer)
  | (.error e, optimizer) =>
    if e.isMethodLocal then
      let event : Event :=
        { kind := .methodAborted, method := some method.signature, note := some e.message }
      (.ok (method, pool), { optimizer with log := optimizer.log.record event })
    else (.error e, optimizer)

/-- Optimizes methods one after another; `done` holds those already optimized. -/
def optimizeMethods (optimizer : Optimizer) :
    List Method → ConstantPool → Array Method →
      Except Error (Array Method × ConstantPool) × Optimizer
  | [], pool, done => (.ok (done, pool), optimizer)
  | method :: rest, pool, done =>
    match optimizer.optimizeOrKeep method pool with
    | (.ok (optimized, pool), optimizer) =>
      optimizer.optimizeMethods rest pool (done.push optimized)
    | (.error e, optimizer) => (.error e, optimizer)

/-- Optimizes every method of a class. -/
def optimizeClass (optimizer : Optimizer) (model : ClassModel) :
    Except Error ClassModel × Optimizer :=
  match optimizer.optimizeMethods model.methods.toList model.pool #[] with
  | (.ok (methods, pool), optimizer) => (.ok { model with methods, pool }, optimizer)
  | (.error e, optimizer) => (.error e, optimizer)

end Optimizer

/-- The class with every method optimized under the default configuration. -/
def ClassModel.optimize (model : ClassModel) : Except Error ClassModel :=
  (({} : Optimizer).optimizeClass model).1

end BytecodeFold
