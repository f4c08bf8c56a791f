import BytecodeFold.Proofs.Fold.Reach
import BytecodeFold.Proofs.Optimizer.Idempotence

/-!
# What the optimization of a class may change

The methods of a class are optimized one after another, each against the pool that the one before it
left. A method changes in nothing but the contents of its code, and the pool gains nothing but
numbers that are missing. A method that was given up or left unchanged is the one that was there,
and the pool has gained nothing from it, whatever was folded before that was decided.
-/

namespace BytecodeFold

/-- The methods differ in nothing but the contents of their code. -/
structure Method.SameHeader (first second : Method) : Prop where
  name_eq : second.name = first.name
  descriptor_eq : second.descriptor = first.descriptor
  access_eq : second.access = first.access
  code_isSome_eq : second.code.isSome = first.code.isSome

theorem Method.SameHeader.refl (method : Method) : method.SameHeader method := ⟨rfl, rfl, rfl, rfl⟩

/-! ## One method -/

/-- The events of a run are no verdicts on the method. -/
theorem Session.RunEvent.kind_ne {passes : List FoldPass} {first : Session} {event : Event}
    (h : first.RunEvent passes event) : event.kind ≠ .methodAborted ∧
      event.kind ≠ .methodUnchanged := by
  rcases h.about with hkind | ⟨session, left, -, reports, -⟩
  · rw [hkind]
    decide
  · rcases reports.kind_cases with hkind | hkind | hkind <;> rw [hkind] <;> decide

namespace Schedule

variable {schedule : Schedule} {keep : Bool} {method method' : Method} {pool pool' : ConstantPool}
  {log log' : EventLog}

theorem run_adds (folding : ∀ pass ∈ schedule.passes, pass ∈ foldPasses) {listing : Listing}
    {outcome : Except Error Nat} {session : Session}
    (run : schedule.run (opening method pool log listing) = (outcome, session)) :
    log.Adds (fun event => event.method = some method.signature ∧ event.kind ≠ .methodAborted ∧
      event.kind ≠ .methodUnchanged) session.log :=
  ((reaches_of_run run).events folding).2.2.mono fun _ h => ⟨h.method, h.kind_ne⟩

/-- Every event names the method. None says that it was given up, and one that says that it was left
unchanged is followed by the method and the pool that were there. -/
theorem optimizeMethod_adds (folding : ∀ pass ∈ schedule.passes, pass ∈ foldPasses)
    {outcome : Except Error (Method × ConstantPool)}
    (h : schedule.optimizeMethod keep method pool log = (outcome, log')) :
    log.Adds (fun event => event.method = some method.signature ∧ event.kind ≠ .methodAborted ∧
      (event.kind = .methodUnchanged → outcome = .ok (method, pool))) log' := by
  cases hcode : method.code with
  | none =>
    rw [optimizeMethod, hcode] at h
    cases h
    exact .refl _
  | some code =>
    have hrun : ∀ {listing : Listing} {count : Except Error Nat} {session : Session},
        schedule.run (opening method pool log listing) = (count, session) →
        log.Adds (fun event => event.method = some method.signature ∧ event.kind ≠ .methodAborted ∧
          (event.kind = .methodUnchanged → outcome = .ok (method, pool))) session.log :=
      fun run => (run_adds folding run).mono
        fun _ h => ⟨h.1, h.2.1, fun hkind => absurd hkind h.2.2⟩
    cases stages_of_optimizeMethod hcode h with
    | unreadable load => exact .refl _
    | failed load run => exact hrun run
    | unchanged load run folds kept kind named =>
      refine (hrun run).trans (.record _ ⟨named, ?_, fun _ => rfl⟩)
      rw [kind]
      decide
    | unfinished load run finish => exact hrun run
    | optimized load run changed finish kind named =>
      refine (hrun run).trans (.record _ ⟨named, ?_, fun hkind => ?_⟩)
      · rw [kind]
        decide
      · rw [kind] at hkind
        cases hkind

/-- A method that is optimized keeps its header, and the pool gains numbers. -/
theorem optimizeMethod_gains (folding : ∀ pass ∈ schedule.passes, pass ∈ foldPasses)
    (h : schedule.optimizeMethod keep method pool log = (.ok (method', pool'), log')) :
    method.SameHeader method' ∧ pool.Gains pool' := by
  cases hcode : method.code with
  | none =>
    rw [optimizeMethod, hcode] at h
    cases h
    exact ⟨.refl _, .refl⟩
  | some code =>
    cases stages_of_optimizeMethod hcode h with
    | unchanged load run folds kept kind named => exact ⟨.refl _, .refl⟩
    | optimized load run changed finish kind named =>
      refine ⟨⟨rfl, rfl, rfl, by simp [hcode]⟩, ?_⟩
      exact (reaches_of_run run).gains folding (Code.regular_of_load load)

end Schedule

/-! ## The methods of a class -/

/-- What became of one method of a class. -/
structure MethodRun where
  method : Method
  result : Method
  before : ConstantPool
  after : ConstantPool
  /-- What was recorded about it. -/
  events : List Event

/-- What the optimization of a method may change, given the events about it. -/
structure MethodRun.Framed (run : MethodRun) : Prop where
  header : run.method.SameHeader run.result
  gains : run.before.Gains run.after
  named : ∀ event ∈ run.events, event.method = some run.method.signature
  kept : ∀ event ∈ run.events, event.kind = .methodAborted ∨ event.kind = .methodUnchanged →
    run.result = run.method ∧ run.after = run.before

namespace Optimizer

variable {optimizer optimizer' : Optimizer} {pool pool' : ConstantPool} {runs : List MethodRun}

/-- The methods are optimized or kept one after another, each against the pool that the one before
it left and with its events added to the log. -/
inductive Runs : Optimizer → ConstantPool → List MethodRun → ConstantPool → Optimizer → Prop where
  | done {optimizer : Optimizer} {pool : ConstantPool} : Runs optimizer pool [] pool optimizer
  | next {optimizer mid optimizer' : Optimizer} {run : MethodRun} {runs : List MethodRun}
      {pool : ConstantPool}
      (optimized : optimizer.optimizeOrKeep run.method run.before =
        (.ok (run.result, run.after), mid))
      (log_eq : mid.log.events.toList = optimizer.log.events.toList ++ run.events)
      (rest : Runs mid run.after runs pool optimizer') :
      Runs optimizer run.before (run :: runs) pool optimizer'

theorem framed_of_optimizeOrKeep {run : MethodRun}
    (optimized : optimizer.optimizeOrKeep run.method run.before =
      (.ok (run.result, run.after), optimizer'))
    (log_eq : optimizer'.log.events.toList = optimizer.log.events.toList ++ run.events) :
    run.Framed := by
  obtain ⟨inner, log, hinner, -, hcases⟩ := optimizeOrKeep_cases optimized
  have hadds := Schedule.optimizeMethod_adds optimizer.config.foldPasses_of_schedule hinner
  -- the events on record are those of the run, whichever way it ended
  have hframed : run.method.SameHeader run.result ∧ run.before.Gains run.after ∧
      optimizer.log.Adds (fun event => event.method = some run.method.signature ∧
        (event.kind = .methodAborted ∨ event.kind = .methodUnchanged →
          run.result = run.method ∧ run.after = run.before)) optimizer'.log := by
    rcases hcases with ⟨rfl, rfl⟩ | ⟨-, houtcome, event, -, hnamed, hlog⟩
    · obtain ⟨hheader, hgains⟩ :=
        Schedule.optimizeMethod_gains optimizer.config.foldPasses_of_schedule hinner
      refine ⟨hheader, hgains, hadds.mono ?_⟩
      rintro event ⟨hnamed, haborted, hunchanged⟩
      exact ⟨hnamed, fun hkind => Prod.mk.inj
        (Except.ok.inj (hunchanged (hkind.resolve_left haborted)))⟩
    · obtain ⟨hresult, hafter⟩ := Prod.mk.inj (Except.ok.inj houtcome)
      rw [hresult, hafter, hlog]
      exact ⟨.refl _, .refl, (hadds.mono fun _ h => ⟨h.1, fun _ => ⟨rfl, rfl⟩⟩).trans
        (.record _ ⟨hnamed, fun _ => ⟨rfl, rfl⟩⟩)⟩
  obtain ⟨hheader, hgains, events, he, hevents⟩ := hframed
  have hsame : run.events = events := List.append_cancel_left (log_eq.symm.trans he)
  rw [← hsame] at hevents
  exact ⟨hheader, hgains, fun event hm => (hevents event hm).1,
    fun event hm => (hevents event hm).2⟩

theorem runs_of_optimizeMethods {methods : List Method} {done result : Array Method}
    (h : optimizer.optimizeMethods methods pool done = (.ok (result, pool'), optimizer')) :
    ∃ runs, Runs optimizer pool runs pool' optimizer' ∧ runs.map (·.method) = methods ∧
      result.toList = done.toList ++ runs.map (·.result) := by
  induction methods generalizing optimizer pool done with
  | nil =>
    cases h
    exact ⟨[], .done, rfl, by simp⟩
  | cons method methods ih =>
    rw [optimizeMethods] at h
    split at h
    case h_2 => cases h
    case h_1 optimized after mid hmid =>
      obtain ⟨runs, hruns, hmethods, hresult⟩ := ih h
      obtain ⟨-, events, he, -⟩ := optimizeOrKeep_records hmid
      let run : MethodRun := ⟨method, optimized, pool, after, events⟩
      have hnext : Runs optimizer run.before (run :: runs) pool' optimizer' := .next hmid he hruns
      refine ⟨run :: runs, hnext, ?_, ?_⟩
      · rw [List.map_cons, hmethods]
      · rw [hresult]
        simp [run]

namespace Runs

theorem framed (h : Runs optimizer pool runs pool' optimizer') : ∀ run ∈ runs, run.Framed := by
  induction h with
  | done => simp
  | next optimized log_eq _ ih =>
    exact List.forall_mem_cons.mpr ⟨framed_of_optimizeOrKeep optimized log_eq, ih⟩

theorem gains (h : Runs optimizer pool runs pool' optimizer') : pool.Gains pool' := by
  induction h with
  | done => exact .refl
  | next optimized log_eq _ ih => exact (framed_of_optimizeOrKeep optimized log_eq).gains.trans ih

theorem log_eq (h : Runs optimizer pool runs pool' optimizer') :
    optimizer'.log.events.toList = optimizer.log.events.toList ++ runs.flatMap (·.events) := by
  induction h with
  | done => simp
  | next _ log_eq _ ih => rw [ih, log_eq, List.flatMap_cons, List.append_assoc]

end Runs

end Optimizer

/-- What the optimization of a class keeps, given what became of each of its methods. -/
structure ClassModel.Framed (model result : ClassModel) (runs : List MethodRun) : Prop where
  name_eq : result.name = model.name
  version_eq : result.version = model.version
  access_eq : result.access = model.access
  methods_eq : runs.map (·.method) = model.methods.toList
  results_eq : runs.map (·.result) = result.methods.toList
  headers : List.Forall₂ Method.SameHeader model.methods.toList result.methods.toList
  slots_eq : ∃ more, result.pool.slots.toList = model.pool.slots.toList ++ more
  /-- Whatever was added is a number, and no index below it holds the same one. -/
  added : ∀ (i : Nat) (entry : Entry), model.pool.count ≤ i →
    result.pool.slots.toList[i]? = some (some entry) → entry.number?.isSome = true ∧
      ∀ j < i, result.pool.slots.toList[j]? ≠ some (some entry)
  count_le : result.pool.count ≤ 65535
  named : ∀ run ∈ runs, ∀ event ∈ run.events, event.method = some run.method.signature
  /-- A method that was given up or left unchanged is as it was, and so is the pool after it. -/
  kept : ∀ run ∈ runs, ∀ event ∈ run.events,
    event.kind = .methodAborted ∨ event.kind = .methodUnchanged →
      run.result = run.method ∧ run.after = run.before

/-- The optimization of a class changes nothing but code, and adds nothing to the pool but numbers
that are missing. There is one run for each method, and the log is extended by their events; a
method whose run says that it was given up or left unchanged is as it was and has added nothing. -/
theorem optimizeClass_framed {optimizer optimizer' : Optimizer} {model result : ClassModel}
    (built : model.pool.Built) (h : optimizer.optimizeClass model = (.ok result, optimizer')) :
    ∃ runs, optimizer.Runs model.pool runs result.pool optimizer' ∧ model.Framed result runs ∧
      optimizer'.log.events.toList = optimizer.log.events.toList ++ runs.flatMap (·.events) := by
  unfold Optimizer.optimizeClass at h
  split at h
  case h_2 => cases h
  case h_1 methods pool _ hmethods =>
    cases h
    obtain ⟨runs, hruns, hmethod, hresult⟩ := Optimizer.runs_of_optimizeMethods hmethods
    have hresult : runs.map (·.result) = methods.toList := hresult.symm
    have hframed := hruns.framed
    refine ⟨runs, hruns, ⟨rfl, rfl, rfl, hmethod, hresult, ?_, hruns.gains.slots_eq,
      fun i entry => hruns.gains.added, (hruns.gains.built built).count_le,
      fun run hm => (hframed run hm).named, fun run hm => (hframed run hm).kept⟩, hruns.log_eq⟩
    rw [← hmethod, ← hresult, List.forall₂_map_left_iff, List.forall₂_map_right_iff,
      List.forall₂_same]
    exact fun run hm => (hframed run hm).header

theorem optimizeClass_framed_conjunction : ∃ optimizer' runs,
    ({} : Optimizer).optimizeClass conjunctionClass = (.ok conjunctionOptimized, optimizer') ∧
      conjunctionClass.pool.Built ∧
      ({} : Optimizer).Runs conjunctionClass.pool runs conjunctionOptimized.pool optimizer' ∧
      conjunctionClass.Framed conjunctionOptimized runs ∧
      optimizer'.log.events.toList = runs.flatMap (·.events) := by
  obtain ⟨log, hmethod, -⟩ := optimizeMethod_conjunction {}
  have hclass : ({} : Optimizer).optimizeClass conjunctionClass =
      (.ok conjunctionOptimized, ⟨{}, log⟩) :=
    optimizeClass_of_single {} conjunctionClass rfl hmethod
  obtain ⟨runs, hruns, hframed, hlog⟩ := optimizeClass_framed .empty hclass
  exact ⟨_, runs, hclass, .empty, hruns, hframed, hlog⟩

end BytecodeFold
