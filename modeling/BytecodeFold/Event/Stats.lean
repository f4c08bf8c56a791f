import BytecodeFold.Event.Log

/-!
# Statistics

Counters over an event log and their one-line summary.
-/

namespace BytecodeFold

/-- A span of time in nanoseconds. -/
structure Duration where
  nanoseconds : Nat
  deriving DecidableEq

namespace Duration

/-- `whole` and then `fraction` as `places` decimal places, without trailing zeros. -/
def decimal (whole fraction places : Nat) : String :=
  let digits := toString (Nat.pow 10 places + fraction) |>.toList.drop 1
  let kept := (digits.reverse.dropWhile (· == '0')).reverse
  if kept.isEmpty then toString whole else s!"{whole}.{String.ofList kept}"

/-- The span in the greatest of seconds, milli-, micro- and nanoseconds of which it has at
least one. -/
def text (span : Duration) : String :=
  let n := span.nanoseconds
  if 1000000000 ≤ n then decimal (n / 1000000000) (n % 1000000000) 9 ++ "s"
  else if 1000000 ≤ n then decimal (n / 1000000) (n % 1000000) 6 ++ "ms"
  else if 1000 ≤ n then decimal (n / 1000) (n % 1000) 3 ++ "µs"
  else toString n ++ "ns"

end Duration

/-- How often what happened. -/
structure Stats where
  methodsOptimized : Nat
  methodsUnchanged : Nat
  methodsAborted : Nat
  constantsFolded : Nat
  comparisonsFolded : Nat
  foldsSkipped : Nat
  warnings : Nat
  deriving DecidableEq

namespace Stats

def ofLog (log : EventLog) : Stats where
  methodsOptimized := log.count .methodOptimized
  methodsUnchanged := log.count .methodUnchanged
  methodsAborted := log.count .methodAborted
  constantsFolded := log.count .constantFolded
  comparisonsFolded := log.count .comparisonFolded
  foldsSkipped := log.count .foldSkipped
  warnings := log.count .warning

/-- Folds of either kind. -/
def folds (stats : Stats) : Nat := stats.constantsFolded + stats.comparisonsFolded

/-- The counters that are not zero, in words. -/
def summary (stats : Stats) : String :=
  let part (count : Nat) (noun : String) : List String :=
    if count = 0 then [] else [s!"{count} {noun}"]
  let parts :=
    part stats.methodsOptimized "methods" ++
    part stats.constantsFolded "constants folded" ++
    part stats.comparisonsFolded "comparisons folded" ++
    part stats.foldsSkipped "skipped" ++
    part stats.methodsAborted "aborted" ++
    part stats.warnings "warnings"
  if parts.isEmpty then "no transformations" else String.intercalate ", " parts

/-- The summary with the time a run took, if that is at least a millisecond. -/
def summaryIn (stats : Stats) (time : Duration) : String :=
  if time.nanoseconds < 1000000 then stats.summary
  else s!"{stats.summary} in {time.text}"

end Stats

end BytecodeFold
