import BytecodeFold.Proofs.Fold.Transport
import BytecodeFold.Proofs.Optimizer.WellFormed

/-!
# Optimizing twice

A method that was optimized without a warning is settled: whatever else is added to the pool, no
pass finds anything in the listing that its code is loaded as. So a second optimization finds every
method of the class settled and leaves the class as it is.
-/

namespace BytecodeFold

/-! ## Events of a run -/

namespace EventLog

variable {log log' : EventLog} {kinds : EventKind → Prop}

theorem records_iff_drop (h : log.Records (fun _ => True) log') :
    log.Records kinds log' ↔ ∀ event ∈ (log'.drop log.size).events.toList, kinds event.kind := by
  obtain ⟨events, he, -⟩ := h
  have hdrop : (log'.drop log.size).events.toList = events := by
    rw [drop, Array.toList_extract, List.extract_eq_take_drop, List.take_of_length_le (by simp), he,
      size, ← Array.length_toList, List.drop_left]
  rw [hdrop]
  constructor
  · rintro ⟨events', he', hkinds⟩
    rw [List.append_cancel_left (he.symm.trans he')]
    exact hkinds
  · exact fun hkinds => ⟨events, he, hkinds⟩

theorem has_drop_eq_false (h : log.Records (fun _ => True) log') {kind : EventKind} :
    (log'.drop log.size).has kind = false ↔ log.Records (· ≠ kind) log' := by
  rw [records_iff_drop h, has, ← Array.any_toList, List.any_eq_false]
  simp

end EventLog

/-! ## Settled methods -/

namespace Schedule

variable {schedule : Schedule} {keep : Bool} {method method' : Method}
  {pool pool' grown : ConstantPool} {log log' : EventLog}

/-- No pass finds anything in the code of a method, under a pool and under all that grow from it. -/
def Settled (schedule : Schedule) (method : Method) (pool : ConstantPool) : Prop :=
  ∀ code, method.code = some code → 0 < schedule.maxIterations ∧
    ∀ grown listing, pool.Extends grown → code.load grown = .ok listing →
      ∀ pass ∈ schedule.passes, pass.Idle listing grown

theorem Settled.mono (h : schedule.Settled method pool) (extended : pool.Extends grown) :
    schedule.Settled method grown := by
  intro code hcode
  obtain ⟨hpositive, hidle⟩ := h code hcode
  exact ⟨hpositive, fun grown' listing extended' => hidle grown' listing (extended.trans extended')⟩

theorem optimizeMethod_records (folding : ∀ pass ∈ schedule.passes, pass ∈ foldPasses)
    {outcome : Except Error (Method × ConstantPool)}
    (h : schedule.optimizeMethod keep method pool log = (outcome, log')) :
    log.Records (fun _ => True) log' := by
  cases hcode : method.code with
  | none =>
    rw [optimizeMethod, hcode] at h
    cases h
    exact .refl _
  | some code =>
    cases stages_of_optimizeMethod hcode h with
    | unreadable load => exact .refl _
    | failed load run => exact (run_evolves folding load run).records
    | unchanged load run => exact (run_evolves folding load run).records.trans (.record _ trivial)
    | unfinished load run => exact (run_evolves folding load run).records
    | optimized load run => exact (run_evolves folding load run).records.trans (.record _ trivial)

/-- A method that was optimized without a warning is settled. -/
theorem settled_of_optimizeMethod (folding : ∀ pass ∈ schedule.passes, pass ∈ foldPasses)
    (h : schedule.optimizeMethod keep method pool log = (.ok (method', pool'), log'))
    (quiet : log.Records (· ≠ .warning) log') :
    schedule.Settled method' pool' ∧ pool.Extends pool' := by
  cases hcode : method.code with
  | none =>
    rw [optimizeMethod, hcode] at h
    cases h
    refine ⟨fun code hc => ?_, .refl _⟩
    rw [hcode] at hc
    cases hc
  | some code =>
    cases stages_of_optimizeMethod hcode h with
    | @unchanged listing count session event load run folds kept kind =>
      have hevolves := run_evolves folding load run
      have hquiet := (quiet.split hevolves.records (.record _ trivial)).1
      obtain ⟨hpositive, hidle⟩ := idle_of_iterate folding run hquiet
      obtain ⟨hlisting, hpool⟩ := hevolves.unchanged folds
      rw [hlisting, hpool] at hidle
      refine ⟨fun code' hc => ⟨hpositive, fun grown listing' extended load' pass hpass => ?_⟩,
        .refl _⟩
      cases hcode.symm.trans hc
      -- the same bytes are the same listing under the pool that has grown
      obtain ⟨decoded, length, hdecode, hlayout⟩ := Code.load_eq_ok.mp load
      obtain ⟨decoded', length', hdecode', hlayout'⟩ := Code.load_eq_ok.mp load'
      cases (Code.decode_extends extended hdecode).symm.trans hdecode'
      cases hlayout.symm.trans hlayout'
      exact (hidle pass hpass).renames (folding pass hpass) ((Listing.SameLines.refl _).renames rfl)
        (Code.regular_of_load load).distinct extended
    | @optimized listing count session result event load run changed finish kind =>
      have hevolves := run_evolves folding load run
      have hquiet := (quiet.split hevolves.records (.record _ trivial)).1
      obtain ⟨hpositive, hidle⟩ := idle_of_iterate folding run hquiet
      refine ⟨fun code' hc => ⟨hpositive, fun grown listing' extended load' pass hpass => ?_⟩,
        hevolves.pool_extends⟩
      cases hc
      obtain ⟨laid, slots, hfinishes⟩ := Session.finish_eq_ok finish
      have hrepresents := hfinishes.represents hevolves.regular extended
      -- the bytes decode to the folded listing under new handles, and the layout keeps those
      obtain ⟨decoded, length, hdecode, hlayout⟩ := Code.load_eq_ok.mp load'
      cases hrepresents.decodes.symm.trans hdecode
      obtain ⟨-, hhandlers, hsame⟩ := Listing.layout_eq_ok hlayout
      have hcanonical := (hidle pass hpass).renames (folding pass hpass) hrepresents.renames
        hevolves.regular.distinct extended
      exact hcanonical.renames (folding pass hpass) (hsame.renames hhandlers)
        (hrepresents.renames.distinct hevolves.regular.distinct) (.refl _)

/-- Optimizing a settled method keeps it as it is, or fails, and folds nothing. -/
theorem optimizeMethod_of_settled (settled : schedule.Settled method pool)
    {outcome : Except Error (Method × ConstantPool)}
    (h : schedule.optimizeMethod true method pool log = (outcome, log')) :
    (∀ result, outcome = .ok result → result = (method, pool)) ∧
      log.Records (·.isTransformation = false) log' := by
  cases hcode : method.code with
  | none =>
    rw [optimizeMethod, hcode] at h
    cases h
    exact ⟨fun result hr => (Except.ok.inj hr).symm, .refl _⟩
  | some code =>
    obtain ⟨hpositive, hidle⟩ := settled code hcode
    -- the passes are idle, so the run ends after one iteration
    have hrun : ∀ {listing : Listing} {outcome : Except Error Nat} {session : Session},
        code.load pool = .ok listing →
        schedule.run (opening method pool log listing) = (outcome, session) →
        (opening method pool log listing).PassesOver session ∧ outcome = .ok 1 := by
      intro listing outcome session load run
      obtain ⟨session', hrun, hover⟩ := run_of_idle hpositive
        (show ∀ pass ∈ schedule.passes, pass.Idle (opening method pool log listing).listing
          (opening method pool log listing).pool from hidle pool listing (.refl _) load)
      cases hrun.symm.trans run
      exact ⟨hover, rfl⟩
    have hrecords : ∀ {listing : Listing} {session : Session},
        (opening method pool log listing).PassesOver session →
        log.Records (·.isTransformation = false) session.log := by
      intro listing session hover
      refine hover.records.mono fun kind hkind => ?_
      rw [hkind]
      rfl
    cases stages_of_optimizeMethod hcode h with
    | unreadable load => exact ⟨fun result hr => (by cases hr), .refl _⟩
    | failed load run => cases (hrun load run).2
    | unchanged load run folds kept kind =>
      refine ⟨fun result hr => (Except.ok.inj hr).symm, ?_⟩
      exact (hrecords (hrun load run).1).trans (.record _ (by rw [kind]; rfl))
    | unfinished load run finish =>
      exact ⟨fun result hr => (by cases hr), hrecords (hrun load run).1⟩
    | optimized load run changed finish kind =>
      exact absurd ⟨(hrun load run).1.folds_eq, rfl⟩ changed

end Schedule

/-! ## Classes -/

theorem Config.foldPasses_of_schedule (config : Config) :
    ∀ pass ∈ config.schedule.passes, pass ∈ foldPasses := by
  intro pass hm
  rcases List.mem_append.mp hm with hm | hm
  · split at hm
    · rw [List.mem_singleton.mp hm]
      exact List.mem_cons_self
    · cases hm
  · split at hm
    · rw [List.mem_singleton.mp hm]
      exact List.mem_cons_of_mem _ List.mem_cons_self
    · cases hm

namespace Optimizer

variable {optimizer optimizer' : Optimizer} {method : Method} {pool pool' : ConstantPool}

/-- A method of a class is optimized, or kept with its error on record. -/
theorem optimizeOrKeep_cases {outcome : Except Error (Method × ConstantPool)}
    (h : optimizer.optimizeOrKeep method pool = (outcome, optimizer')) :
    ∃ inner log,
      optimizer.config.schedule.optimizeMethod optimizer.config.keepUnmodifiedBytes method
        pool optimizer.log = (inner, log) ∧ optimizer'.config = optimizer.config ∧
      (inner = outcome ∧ optimizer'.log = log ∨
        (∃ e, inner = .error e) ∧ outcome = .ok (method, pool) ∧ ∃ event : Event,
          event.kind = .methodAborted ∧ event.method = some method.signature ∧
          optimizer'.log = log.record event) := by
  unfold optimizeOrKeep optimizeMethod at h
  dsimp only at h
  rcases hinner :
    optimizer.config.schedule.optimizeMethod optimizer.config.keepUnmodifiedBytes method
    pool optimizer.log with ⟨e | result, log⟩
  · rw [hinner] at h
    dsimp only at h
    split at h
    · cases h
      exact ⟨_, _, rfl, rfl, .inr ⟨⟨_, rfl⟩, rfl, _, rfl, rfl, rfl⟩⟩
    · cases h
      exact ⟨_, _, rfl, rfl, .inl ⟨rfl, rfl⟩⟩
  · rw [hinner] at h
    cases h
    exact ⟨_, _, rfl, rfl, .inl ⟨rfl, rfl⟩⟩

theorem optimizeOrKeep_of_ok {result : Method × ConstantPool} {log : EventLog}
    (h : optimizer.config.schedule.optimizeMethod optimizer.config.keepUnmodifiedBytes method pool
      optimizer.log = (.ok result, log)) :
    optimizer.optimizeOrKeep method pool = (.ok result, { optimizer with log }) := by
  unfold optimizeOrKeep optimizeMethod
  dsimp only
  rw [h]

theorem optimizeOrKeep_records {outcome : Except Error (Method × ConstantPool)}
    (h : optimizer.optimizeOrKeep method pool = (outcome, optimizer')) :
    optimizer'.config = optimizer.config ∧
      optimizer.log.Records (fun _ => True) optimizer'.log := by
  obtain ⟨inner, log, hinner, hconfig, hcases⟩ := optimizeOrKeep_cases h
  have hrecords := Schedule.optimizeMethod_records optimizer.config.foldPasses_of_schedule hinner
  rcases hcases with ⟨-, hlog⟩ | ⟨-, -, event, -, -, hlog⟩
  · exact ⟨hconfig, hlog ▸ hrecords⟩
  · exact ⟨hconfig, hlog ▸ hrecords.trans (.record _ trivial)⟩

theorem optimizeMethods_records {methods : List Method} {done : Array Method}
    {outcome : Except Error (Array Method × ConstantPool)}
    (h : optimizer.optimizeMethods methods pool done = (outcome, optimizer')) :
    optimizer'.config = optimizer.config ∧
      optimizer.log.Records (fun _ => True) optimizer'.log := by
  induction methods generalizing optimizer pool done with
  | nil =>
    cases h
    exact ⟨rfl, .refl _⟩
  | cons method methods ih =>
    rw [optimizeMethods] at h
    split at h
    case h_1 optimized pool₁ mid hmid =>
      obtain ⟨hconfig, hrecords⟩ := optimizeOrKeep_records hmid
      obtain ⟨hconfig', hrecords'⟩ := ih h
      exact ⟨hconfig'.trans hconfig, hrecords.trans hrecords'⟩
    case h_2 e mid hmid =>
      cases h
      exact optimizeOrKeep_records hmid

/-- Whatever was optimized without a warning and without giving up a method is settled. -/
theorem settled_of_optimizeMethods {methods : List Method} {done result : Array Method}
    (h : optimizer.optimizeMethods methods pool done = (.ok (result, pool'), optimizer'))
    (quiet : optimizer.log.Records (fun kind => kind ≠ .warning ∧ kind ≠ .methodAborted)
      optimizer'.log) :
    pool.Extends pool' ∧ ∃ optimized : List Method, result.toList = done.toList ++ optimized ∧
      ∀ method ∈ optimized, optimizer.config.schedule.Settled method pool' := by
  induction methods generalizing optimizer pool done with
  | nil =>
    cases h
    exact ⟨.refl _, [], by simp, by simp⟩
  | cons method methods ih =>
    rw [optimizeMethods] at h
    split at h
    case h_2 => cases h
    case h_1 optimized pool₁ mid hmid =>
      obtain ⟨hconfig, hrecords⟩ := optimizeOrKeep_records hmid
      obtain ⟨hquiet, hquiet'⟩ := quiet.split hrecords (optimizeMethods_records h).2
      obtain ⟨hextends', others, hresult, hothers⟩ := ih h hquiet'
      obtain ⟨inner, log, hinner, -, hcases⟩ := optimizeOrKeep_cases hmid
      have hlog := Schedule.optimizeMethod_records optimizer.config.foldPasses_of_schedule hinner
      rcases hcases with ⟨rfl, rfl⟩ | ⟨-, -, event, hkind, -, hevent⟩
      · obtain ⟨hsettled, hextends⟩ := Schedule.settled_of_optimizeMethod
          optimizer.config.foldPasses_of_schedule hinner (hquiet.mono fun _ hk => hk.1)
        refine ⟨hextends.trans hextends', optimized :: others, by rw [hresult]; simp, ?_⟩
        rw [hconfig] at hothers
        exact List.forall_mem_cons.mpr ⟨hsettled.mono hextends', hothers⟩
      · rw [hevent] at hquiet
        have haborted := (hquiet.split hlog (.record _ trivial)).2.of_record
        exact absurd hkind haborted.2

/-- Settled methods are kept as they are, and so is the pool. -/
theorem optimizeMethods_of_settled (keeps : optimizer.config.keepUnmodifiedBytes = true)
    {methods : List Method} {done result : Array Method}
    (settled : ∀ method ∈ methods, optimizer.config.schedule.Settled method pool)
    (h : optimizer.optimizeMethods methods pool done = (.ok (result, pool'), optimizer')) :
    result.toList = done.toList ++ methods ∧ pool' = pool ∧
      optimizer.log.Records (·.isTransformation = false) optimizer'.log := by
  induction methods generalizing optimizer done with
  | nil =>
    cases h
    exact ⟨by simp, rfl, .refl _⟩
  | cons method methods ih =>
    obtain ⟨hmethod, hmethods⟩ := List.forall_mem_cons.mp settled
    rw [optimizeMethods] at h
    split at h
    case h_2 => cases h
    case h_1 optimized pool₁ mid hmid =>
      obtain ⟨inner, log, hinner, hconfig, hcases⟩ := optimizeOrKeep_cases hmid
      rw [keeps] at hinner
      obtain ⟨hkept, hrecords⟩ := Schedule.optimizeMethod_of_settled hmethod hinner
      have hmid : (optimized, pool₁) = (method, pool) ∧
          optimizer.log.Records (·.isTransformation = false) mid.log := by
        rcases hcases with ⟨hinner', hlog⟩ | ⟨-, houtcome, event, hkind, -, hlog⟩
        · exact ⟨hkept _ hinner', hlog ▸ hrecords⟩
        · refine ⟨Except.ok.inj houtcome, hlog ▸ hrecords.trans (.record _ ?_)⟩
          rw [hkind]
          rfl
      obtain ⟨hsame, hmidRecords⟩ := hmid
      cases hsame
      rw [← hconfig] at keeps hmethods
      obtain ⟨hresult, hpool, hothers⟩ := ih keeps hmethods h
      exact ⟨by rw [hresult]; simp, hpool, hmidRecords.trans hothers⟩

end Optimizer

/-- Optimization is idempotent. If a class is optimized without a warning and without giving up a
method, and the result is optimized again under the same configuration, which keeps the bytes of
unmodified methods, then the class stays as it is, and no fold is recorded. -/
theorem optimizeClass_idempotent {first first' second second' : Optimizer}
    {model optimized again : ClassModel} (keeps : first.config.keepUnmodifiedBytes = true)
    (same : second.config = first.config)
    (once : first.optimizeClass model = (.ok optimized, first'))
    (warned : (first'.log.drop first.log.size).has .warning = false)
    (aborted : (first'.log.drop first.log.size).has .methodAborted = false)
    (twice : second.optimizeClass optimized = (.ok again, second')) :
    again = optimized ∧ (second'.log.drop second.log.size).has .constantFolded = false ∧
      (second'.log.drop second.log.size).has .comparisonFolded = false := by
  unfold Optimizer.optimizeClass at once twice
  split at once
  case h_2 => cases once
  case h_1 methods pool _ hmethods =>
    cases once
    have hgrows := (Optimizer.optimizeMethods_records hmethods).2
    have hquiet : first.log.Records (fun kind => kind ≠ .warning ∧ kind ≠ .methodAborted)
        first'.log := by
      rw [EventLog.has_drop_eq_false hgrows, EventLog.records_iff_drop hgrows] at warned aborted
      exact (EventLog.records_iff_drop hgrows).mpr fun event hm =>
        ⟨warned event hm, aborted event hm⟩
    obtain ⟨-, settled, hmethods', hsettled⟩ := Optimizer.settled_of_optimizeMethods hmethods hquiet
    rw [← same] at keeps hsettled
    split at twice
    case h_2 => cases twice
    case h_1 methods' pool' _ htwice =>
      cases twice
      have hgrows' := (Optimizer.optimizeMethods_records htwice).2
      have hsame : methods.toList = settled := hmethods'
      obtain ⟨hresult, rfl, hrecords⟩ :=
        Optimizer.optimizeMethods_of_settled keeps (hsame ▸ hsettled) htwice
      have hmethods : methods' = methods := Array.toList_inj.mp hresult
      refine ⟨by rw [hmethods], (EventLog.has_drop_eq_false hgrows').mpr ?_,
        (EventLog.has_drop_eq_false hgrows').mpr ?_⟩
      · refine hrecords.mono fun kind hkind => ?_
        rintro rfl
        cases hkind
      · refine hrecords.mono fun kind hkind => ?_
        rintro rfl
        cases hkind

def conjunctionClass : ClassModel :=
  { name := "Conjunction", methods := #[conjunctionMethod "()I"] }

def conjunctionOptimized : ClassModel := { conjunctionClass with
  methods := #[{ conjunctionMethod "()I" with code := some conjunctionResult }]
  pool := ⟨#[none, some (.integer 2)]⟩ }

/-- What `conjunctionResult` is loaded as. -/
def conjunctionReloaded : Listing where
  lines := #[⟨⟨0⟩, .loadConstant 1 false, false⟩, ⟨⟨1⟩, .other .intReturn, false⟩]
  fresh := 2
  handlers := #[]
  laidOut := true

theorem load_conjunctionResult :
    conjunctionResult.load conjunctionOptimized.pool = .ok conjunctionReloaded := by
  refine Code.load_eq_ok.mpr
    ⟨{ conjunctionReloaded with laidOut := false }, 3, by decide +kernel, ?_⟩
  exact Listing.layout_of_straight (by decide) rfl (by decide) (by decide)

/-- A class with one method is optimized as its method is. -/
theorem optimizeClass_of_single (optimizer : Optimizer) (model : ClassModel) {method : Method}
    {result : Method × ConstantPool} {log : EventLog} (hmethods : model.methods = #[method])
    (h : optimizer.config.schedule.optimizeMethod optimizer.config.keepUnmodifiedBytes method
      model.pool optimizer.log = (.ok result, log)) :
    optimizer.optimizeClass model =
      (.ok { model with methods := #[result.1], pool := result.2 }, { optimizer with log }) := by
  have hstep := Optimizer.optimizeOrKeep_of_ok h
  unfold Optimizer.optimizeClass
  rw [hmethods]
  simp only [Optimizer.optimizeMethods, hstep, List.push_toArray, List.nil_append]

theorem optimizeClass_idempotent_conjunction : ∃ first' second' again,
    ({} : Optimizer).optimizeClass conjunctionClass = (.ok conjunctionOptimized, first') ∧
    first'.optimizeClass conjunctionOptimized = (.ok again, second') ∧
      again = conjunctionOptimized ∧
      (second'.log.drop first'.log.size).has .constantFolded = false ∧
      (second'.log.drop first'.log.size).has .comparisonFolded = false := by
  obtain ⟨log, hmethod, hquiet⟩ := optimizeMethod_conjunction {}
  have honce : ({} : Optimizer).optimizeClass conjunctionClass =
      (.ok conjunctionOptimized, ⟨{}, log⟩) :=
    optimizeClass_of_single {} conjunctionClass rfl hmethod
  -- two lines are left, too few for either pass
  have hrun : ({} : Config).schedule.run (.start conjunctionReloaded conjunctionOptimized.pool log
      (conjunctionMethod "()I").signature) = (.ok 1, .start conjunctionReloaded
        conjunctionOptimized.pool log (conjunctionMethod "()I").signature) := by
    change ({} : Config).schedule.iterate (9999 + 1) 0 _ = _
    rfl
  obtain ⟨log', hmethod'⟩ : ∃ log', ({} : Config).schedule.optimizeMethod true
      { conjunctionMethod "()I" with code := some conjunctionResult }
        conjunctionOptimized.pool log =
        (.ok ({ conjunctionMethod "()I" with code := some conjunctionResult },
          conjunctionOptimized.pool), log') := by
    have hsignature :
        Method.signature { conjunctionMethod "()I" with code := some conjunctionResult } =
      (conjunctionMethod "()I").signature := rfl
    simp only [Schedule.optimizeMethod, Schedule.optimizeCode, load_conjunctionResult,
      hsignature, hrun]
    exact ⟨_, rfl⟩
  have htwice : (⟨{}, log⟩ : Optimizer).optimizeClass conjunctionOptimized =
      (.ok conjunctionOptimized, ⟨{}, log'⟩) :=
    optimizeClass_of_single ⟨{}, log⟩ conjunctionOptimized rfl hmethod'
  have hgrows : ({} : EventLog).Records (fun _ => True) log := hquiet.mono fun _ _ => trivial
  refine ⟨_, _, _, honce, htwice, optimizeClass_idempotent ?_ ?_ honce ?_ ?_ htwice⟩
  · rfl
  · rfl
  · exact (EventLog.has_drop_eq_false hgrows).mpr (hquiet.mono fun _ hkind => hkind.1)
  · exact (EventLog.has_drop_eq_false hgrows).mpr (hquiet.mono fun _ hkind => hkind.2)

end BytecodeFold
