import BytecodeFold.Proofs.Fold.Ledger
import BytecodeFold.Proofs.Optimizer.Frame
import BytecodeFold.Proofs.Optimizer.Locations

/-!
# The log accounts for every method

What the optimization of a class records falls into one stretch of events for each method that has
code: the events about its matches, a warning if its run was cut short, and one verdict. The verdict
agrees with the events before it, and so the verdicts count the methods.
-/

namespace BytecodeFold

/-! ## Verdicts -/

/-- Whether an event of this kind says what became of a method. -/
def EventKind.isVerdict : EventKind → Bool
  | methodOptimized | methodUnchanged | methodAborted => true
  | _ => false

theorem EventKind.isTransformation_iff {kind : EventKind} :
    kind.isTransformation = true ↔ kind = .constantFolded ∨ kind = .comparisonFolded := by
  cases kind <;> decide

/-- Every verdict is counted under its kind. -/
theorem EventLog.count_verdicts (log : EventLog) :
    log.count .methodOptimized + log.count .methodUnchanged + log.count .methodAborted =
      log.events.toList.countP (·.kind.isVerdict) := by
  have hone : ∀ kind : EventKind, (if kind == .methodOptimized then 1 else 0) +
      (if kind == .methodUnchanged then 1 else 0) + (if kind == .methodAborted then 1 else 0) =
        if kind.isVerdict then 1 else 0 := by
    intro kind
    cases kind <;> rfl
  simp only [count, ← Array.countP_toList]
  induction log.events.toList with
  | nil => rfl
  | cons event events ih =>
    have hkind := hone event.kind
    simp only [List.countP_cons]
    omega

namespace EventKind

/-- The kind of a verdict on a method whose code was folded this often. -/
inductive Concludes : EventKind → Nat → Prop where
  | optimized {folds : Nat} (changed : folds ≠ 0) : Concludes .methodOptimized folds
  | unchanged : Concludes .methodUnchanged 0
  | aborted {folds : Nat} : Concludes .methodAborted folds

namespace Concludes

variable {kind : EventKind} {folds : Nat}

theorem cases_kind (h : kind.Concludes folds) :
    kind = .methodOptimized ∨ kind = .methodUnchanged ∨ kind = .methodAborted := by
  cases h <;> simp

theorem eq_zero (h : Concludes .methodUnchanged folds) : folds = 0 := by
  cases h
  rfl

theorem ne_zero (h : Concludes .methodOptimized folds) : folds ≠ 0 := by
  cases h with
  | optimized changed => exact changed

end Concludes

end EventKind

/-! ## One method -/

namespace MethodRun

/-- How a method got to this many folds with these events: its code could not be read, or the
schedule ran on it. -/
inductive Folded (run : MethodRun) (schedule : Schedule) (notes : List Event)
    (warning : Option Event) (folds : Nat) : Prop where
  | unreadable {code : Code} {e : Error} (code_eq : run.method.code = some code)
      (load : code.load run.before = .error e) (notes_eq : notes = []) (warning_eq : warning = none)
      (folds_eq : folds = 0) : Folded run schedule notes warning folds
  | ran {code : Code} {listing : Listing} {log : EventLog} {outcome : Except Error Nat}
      {session : Session} (code_eq : run.method.code = some code)
      (load : code.load run.before = .ok listing)
      (ran : schedule.run (Schedule.opening run.method run.before log listing) = (outcome, session))
      (recorded : (Schedule.opening run.method run.before log listing).Recorded schedule.passes
        session notes warning folds) : Folded run schedule notes warning folds

/-- The events of a run account for a method: events about matches, at most one warning, and a
verdict that agrees with them. -/
structure Accounted (run : MethodRun) (schedule : Schedule) (notes : List Event)
    (warning : Option Event) (verdict : Event) (folds : Nat) : Prop where
  events_eq : run.events = notes ++ warning.toList ++ [verdict]
  named : ∀ event ∈ run.events, event.method = some run.method.signature
  kinds : ∀ event ∈ notes, event.kind = .constantFolded ∨ event.kind = .comparisonFolded ∨
    event.kind = .foldSkipped
  warning_kind : ∀ event ∈ warning, event.kind = .warning
  verdict_kind : verdict.kind = .methodOptimized ∨ verdict.kind = .methodUnchanged ∨
    verdict.kind = .methodAborted
  unchanged : verdict.kind = .methodUnchanged →
    ∀ event ∈ notes, event.kind.isTransformation = false
  optimized : verdict.kind = .methodOptimized → ∃ event ∈ notes, event.kind.isTransformation = true
  folded : run.Folded schedule notes warning folds
  count_eq : notes.countP (·.kind.isTransformation) = folds
  skips_once : ((notes.filter (·.kind == .foldSkipped)).map (·.location)).Nodup

theorem Accounted.count_verdicts {run : MethodRun} {schedule : Schedule} {notes : List Event}
    {warning : Option Event} {verdict : Event} {folds : Nat}
    (h : run.Accounted schedule notes warning verdict folds) :
    run.events.countP (·.kind.isVerdict) = 1 := by
  have hnotes : notes.countP (·.kind.isVerdict) = 0 := by
    rw [List.countP_eq_zero]
    intro event hm
    rcases h.kinds event hm with hkind | hkind | hkind <;> simp [hkind, EventKind.isVerdict]
  have hwarning : warning.toList.countP (·.kind.isVerdict) = 0 := by
    rw [List.countP_eq_zero]
    intro event hm
    simp [h.warning_kind event (Option.mem_toList.mp hm), EventKind.isVerdict]
  have hverdict : verdict.kind.isVerdict = true := by
    rcases h.verdict_kind with hkind | hkind | hkind <;> rw [hkind] <;> rfl
  rw [h.events_eq, List.countP_append, List.countP_append, hnotes, hwarning]
  simp [hverdict]

/-- A run of the schedule and a verdict that agrees with its number of folds account for a
method. -/
theorem accounted_of_run {run : MethodRun} {schedule : Schedule} {code : Code} {listing : Listing}
    {log : EventLog} {outcome : Except Error Nat} {session : Session} {verdict : Event}
    (folding : ∀ pass ∈ schedule.passes, pass ∈ foldPasses) (hcode : run.method.code = some code)
    (load : code.load run.before = .ok listing)
    (ran : schedule.run (Schedule.opening run.method run.before log listing) = (outcome, session))
    (hevents : log.events.toList ++ run.events = session.log.events.toList ++ [verdict])
    (hnamed : verdict.method = some run.method.signature)
    (concludes : verdict.kind.Concludes session.folds) :
    ∃ notes warning verdict folds, run.Accounted schedule notes warning verdict folds := by
  obtain ⟨notes, warning, folds, recorded⟩ := Schedule.recorded_of_run folding
    (Code.regular_of_load load) (Code.laidOut_of_load load) rfl ran
  have hcount : notes.countP (·.kind.isTransformation) = session.folds := by
    rw [recorded.count_eq, recorded.folds_eq]
    exact (Nat.zero_add folds).symm
  have hsplit : run.events = notes ++ warning.toList ++ [verdict] := by
    rw [recorded.log_eq, List.append_assoc] at hevents
    exact List.append_cancel_left hevents
  rw [← hcount] at concludes
  refine ⟨notes, warning, verdict, folds, hsplit, ?_, ?_, recorded.warning_kind, ?_, ?_, ?_,
    .ran hcode load ran recorded, recorded.count_eq, recorded.skips_once⟩
  · intro event hm
    rw [hsplit] at hm
    rcases List.mem_append.mp hm with hm | hm
    · exact (recorded.about event hm).method
    · rw [List.mem_singleton.mp hm]
      exact hnamed
  · intro event hm
    rcases recorded.kinds event hm with hskip | htransforms
    · exact .inr (.inr hskip)
    · rcases EventKind.isTransformation_iff.mp htransforms with hkind | hkind
      · exact .inl hkind
      · exact .inr (.inl hkind)
  · exact concludes.cases_kind
  · intro hunchanged event hm
    rw [hunchanged] at concludes
    exact Bool.eq_false_iff.mpr (List.countP_eq_zero.mp concludes.eq_zero event hm)
  · intro hoptimized
    rw [hoptimized] at concludes
    exact List.countP_pos_iff.mp (Nat.pos_of_ne_zero concludes.ne_zero)

/-- A method that cannot be read is given up, and that is all that is recorded. -/
theorem accounted_of_unreadable {run : MethodRun} {schedule : Schedule} {code : Code} {e : Error}
    {verdict : Event} (hcode : run.method.code = some code) (load : code.load run.before = .error e)
    (hevents : run.events = [verdict]) (hnamed : verdict.method = some run.method.signature)
    (hkind : verdict.kind = .methodAborted) : run.Accounted schedule [] none verdict 0 where
  events_eq := hevents
  named event hm := by
    rw [hevents, List.mem_singleton] at hm
    rw [hm, hnamed]
  kinds := by simp
  warning_kind := by simp
  verdict_kind := .inr (.inr hkind)
  unchanged := by simp
  optimized hoptimized := by
    rw [hkind] at hoptimized
    cases hoptimized
  folded := .unreadable hcode load rfl rfl rfl
  count_eq := rfl
  skips_once := List.nodup_nil

end MethodRun

/-! ## The methods of a class -/

namespace Optimizer

variable {optimizer optimizer' : Optimizer} {pool pool' : ConstantPool} {runs : List MethodRun}

theorem events_of_no_code {run : MethodRun} (hcode : run.method.code = none)
    (optimized : optimizer.optimizeOrKeep run.method run.before =
      (.ok (run.result, run.after), optimizer'))
    (log_eq : optimizer'.log.events.toList = optimizer.log.events.toList ++ run.events) :
    run.events = [] := by
  have hkept : optimizer.optimizeOrKeep run.method run.before =
      (.ok (run.method, run.before), optimizer) :=
    optimizeOrKeep_of_ok (by rw [Schedule.optimizeMethod, hcode])
  have hsame : optimizer' = optimizer := (Prod.mk.inj (optimized.symm.trans hkept)).2
  rw [hsame] at log_eq
  exact List.self_eq_append_right.mp log_eq

/-- A method with code is accounted for, whichever way its optimization ended. -/
theorem accounted_of_optimizeOrKeep (keeps : optimizer.config.keepUnmodifiedBytes = true)
    {run : MethodRun} (hcode : run.method.code.isSome = true)
    (optimized : optimizer.optimizeOrKeep run.method run.before =
      (.ok (run.result, run.after), optimizer'))
    (log_eq : optimizer'.log.events.toList = optimizer.log.events.toList ++ run.events) :
    ∃ notes warning verdict folds,
      run.Accounted optimizer.config.schedule notes warning verdict folds := by
  obtain ⟨code, hcode⟩ := Option.isSome_iff_exists.mp hcode
  obtain ⟨inner, log, hinner, -, hcases⟩ := optimizeOrKeep_cases optimized
  have folding := optimizer.config.foldPasses_of_schedule
  have hstages := Schedule.stages_of_optimizeMethod hcode hinner
  have hrecord : ∀ {log : EventLog} {event : Event}, optimizer'.log = log.record event →
      optimizer.log.events.toList ++ run.events = log.events.toList ++ [event] := by
    intro log event h
    rw [← log_eq, h]
    exact Array.toList_push
  rcases hcases with ⟨hok, hlog⟩ | ⟨⟨e, herror⟩, -, event, hkind, hnamed, hlog⟩
  · cases hstages with
    | unreadable load | failed load ran | unfinished load ran finish => cases hok
    | unchanged load ran folds kept kind named =>
      refine MethodRun.accounted_of_run folding hcode load ran (hrecord hlog) named ?_
      rw [kind, folds]
      exact .unchanged
    | optimized load ran changed finish kind named =>
      refine MethodRun.accounted_of_run folding hcode load ran (hrecord hlog) named ?_
      rw [kind]
      exact .optimized fun folds => changed ⟨folds, keeps⟩
  · cases hstages with
    | unreadable load =>
      have hevents : run.events = [event] := List.append_cancel_left (hrecord hlog)
      exact ⟨[], none, event, 0,
        MethodRun.accounted_of_unreadable hcode load hevents hnamed hkind⟩
    | failed load ran | unfinished load ran finish =>
      refine MethodRun.accounted_of_run folding hcode load ran (hrecord hlog) hnamed ?_
      rw [hkind]
      exact .aborted
    | unchanged load ran folds kept kind named | optimized load ran changed finish kind named =>
      cases herror

namespace Runs

theorem accounted (keeps : optimizer.config.keepUnmodifiedBytes = true)
    (h : Runs optimizer pool runs pool' optimizer') :
    ∀ run ∈ runs.filter (·.method.code.isSome), ∃ notes warning verdict folds,
      run.Accounted optimizer.config.schedule notes warning verdict folds := by
  induction h with
  | done => simp
  | @next optimizer mid optimizer' run runs pool optimized log_eq _ ih =>
    rw [(optimizeOrKeep_records optimized).1] at ih
    intro other hm
    obtain ⟨hm, hcode⟩ := List.mem_filter.mp hm
    rcases List.mem_cons.mp hm with rfl | hm
    · exact accounted_of_optimizeOrKeep keeps hcode optimized log_eq
    · exact ih keeps other (List.mem_filter.mpr ⟨hm, hcode⟩)

theorem log_eq_of_code (h : Runs optimizer pool runs pool' optimizer') :
    optimizer'.log.events.toList = optimizer.log.events.toList ++
      (runs.filter (·.method.code.isSome)).flatMap (·.events) := by
  induction h with
  | done => simp
  | @next optimizer mid optimizer' run runs pool optimized log_eq _ ih =>
    cases hcode : run.method.code with
    | none =>
      rw [ih, log_eq, events_of_no_code hcode optimized log_eq, List.append_nil,
        List.filter_cons_of_neg (by simp [hcode])]
    | some code =>
      rw [ih, log_eq, List.filter_cons_of_pos (by simp [hcode]), List.flatMap_cons,
        List.append_assoc]

end Runs

end Optimizer

/-- The log of a class consists of one stretch of events for each method with code, in the order of
the methods, and each stretch accounts for its method. So there are as many verdicts as methods with
code. -/
theorem optimizeClass_accounts {optimizer optimizer' : Optimizer} {model result : ClassModel}
    (keeps : optimizer.config.keepUnmodifiedBytes = true) (empty : optimizer.log.isEmpty = true)
    (h : optimizer.optimizeClass model = (.ok result, optimizer')) :
    ∃ runs, optimizer.Runs model.pool runs result.pool optimizer' ∧
      runs.map (·.method) = model.methods.toList ∧
      optimizer'.log.events.toList =
        (runs.filter (·.method.code.isSome)).flatMap (·.events) ∧
      (∀ run ∈ runs.filter (·.method.code.isSome), ∃ notes warning verdict folds,
        run.Accounted optimizer.config.schedule notes warning verdict folds) ∧
      optimizer'.stats.methodsOptimized + optimizer'.stats.methodsUnchanged +
        optimizer'.stats.methodsAborted = model.methods.toList.countP (·.code.isSome) := by
  unfold Optimizer.optimizeClass at h
  split at h
  case h_2 => cases h
  case h_1 methods pool _ hmethods =>
    cases h
    obtain ⟨runs, hruns, hmethod, -⟩ := Optimizer.runs_of_optimizeMethods hmethods
    have haccounted := hruns.accounted keeps
    have hlog := hruns.log_eq_of_code
    rw [Array.toList_eq_nil_iff.mpr (Array.isEmpty_iff.mp empty), List.nil_append] at hlog
    refine ⟨runs, hruns, hmethod, hlog, haccounted, ?_⟩
    -- there is one verdict in each stretch
    have hones : (runs.filter (·.method.code.isSome)).map
        (fun run => run.events.countP (·.kind.isVerdict)) =
          (runs.filter (·.method.code.isSome)).map fun _ => 1 := by
      refine List.map_congr_left fun run hm => ?_
      obtain ⟨notes, warning, verdict, folds, h⟩ := haccounted run hm
      exact h.count_verdicts
    calc
      _ = optimizer'.log.events.toList.countP (·.kind.isVerdict) := EventLog.count_verdicts _
      _ = ((runs.filter (·.method.code.isSome)).map fun _ => 1).sum := by
        rw [hlog, List.countP_flatMap, ← hones]
        rfl
      _ = runs.countP (·.method.code.isSome) := by
        rw [List.map_const', List.sum_replicate_nat, Nat.mul_one,
          List.countP_eq_length_filter]
      _ = model.methods.toList.countP (·.code.isSome) := by
        rw [← hmethod, List.countP_map]
        rfl

/-! ## A class with three methods -/

def abstractMethod : Method := ⟨"length", "()I", 0x401, none⟩

def quotientMethod : Method := ⟨"quotient", "(I)I", 8, some quotient⟩

/-- An abstract method, one without a fold and one with folds. -/
def assortedClass : ClassModel where
  name := "Assorted"
  methods := #[abstractMethod, quotientMethod, conjunctionMethod "()I"]

/-- The division is skipped, and the method left unchanged. -/
theorem optimizeMethod_quotient (log : EventLog) : ∃ log',
    ({} : Config).schedule.optimizeMethod true quotientMethod .empty log =
      (.ok (quotientMethod, .empty), log') := by
  have hrun : ({} : Config).schedule.run
      (.start quotientListing .empty log quotientMethod.signature) = (.ok 1,
        (Schedule.opening quotientMethod .empty log quotientListing).skip "arithmetic" ⟨1⟩
          "integer division by zero") := run_quotient quotientMethod log
  have hfolds : ((Schedule.opening quotientMethod .empty log quotientListing).skip "arithmetic" ⟨1⟩
      "integer division by zero").folds = 0 := (Session.PassesOver.skip _ _ _ _).folds_eq
  rw [Schedule.optimizeMethod, show quotientMethod.code = some quotient from rfl]
  simp only [Schedule.optimizeCode, load_quotient, hrun, hfolds]
  exact ⟨_, rfl⟩

theorem optimizeClass_accounts_assorted : ∃ result optimizer' runs,
    ({} : Optimizer).optimizeClass assortedClass = (.ok result, optimizer') ∧
    ({} : Optimizer).Runs assortedClass.pool runs result.pool optimizer' ∧
    runs.map (·.method) = assortedClass.methods.toList ∧
    optimizer'.log.events.toList = (runs.filter (·.method.code.isSome)).flatMap (·.events) ∧
    (∀ run ∈ runs.filter (·.method.code.isSome), ∃ notes warning verdict folds,
      run.Accounted ({} : Config).schedule notes warning verdict folds) ∧
    optimizer'.stats.methodsOptimized + optimizer'.stats.methodsUnchanged +
      optimizer'.stats.methodsAborted = 2 := by
  obtain ⟨log, hquotient⟩ := optimizeMethod_quotient {}
  obtain ⟨log', hconjunction, -⟩ := optimizeMethod_conjunction log
  have habstract : ({} : Optimizer).optimizeOrKeep abstractMethod .empty =
      (.ok (abstractMethod, .empty), {}) := Optimizer.optimizeOrKeep_of_ok rfl
  have hkept : ({} : Optimizer).optimizeOrKeep quotientMethod .empty =
      (.ok (quotientMethod, .empty), ⟨{}, log⟩) := Optimizer.optimizeOrKeep_of_ok hquotient
  have hfolded : (⟨{}, log⟩ : Optimizer).optimizeOrKeep (conjunctionMethod "()I") .empty =
      (.ok ({ conjunctionMethod "()I" with code := some conjunctionResult },
        ⟨#[none, some (.integer 2)]⟩), ⟨{}, log'⟩) := Optimizer.optimizeOrKeep_of_ok hconjunction
  have hclass : ∃ result,
      ({} : Optimizer).optimizeClass assortedClass = (.ok result, ⟨{}, log'⟩) := by
    simp only [Optimizer.optimizeClass, assortedClass, Optimizer.optimizeMethods, habstract, hkept,
      hfolded]
    exact ⟨_, rfl⟩
  obtain ⟨result, hclass⟩ := hclass
  obtain ⟨runs, hruns, hmethods, hlog, haccounted, hcount⟩ := optimizeClass_accounts rfl rfl hclass
  exact ⟨result, _, runs, hclass, hruns, hmethods, hlog, haccounted, hcount⟩

end BytecodeFold
