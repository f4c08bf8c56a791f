import BytecodeFold.Fold.Schedule
import BytecodeFold.Proofs.Codec.Regular
import BytecodeFold.Proofs.Fold.Scan
import BytecodeFold.Proofs.Fold.Shape

/-!
# Runs of the passes that fold

Whatever the passes do to a session, its listing stays regular, its pool and its log only grow, and
its exception handlers stay as they are. A run of a schedule is a chain of runs of its passes, with
a warning at its end if it was cut short: `Session.Reaches` says so, and what a run keeps is then
shown for one pass. A run that fails does so in an attempt of one pass. A run that comes to an end
by itself leaves a listing in which every pass is idle.
-/

namespace BytecodeFold

/-! ## Events -/

/-- The second log is the first with more events, each of which has this property. -/
def EventLog.Adds (property : Event → Prop) (first second : EventLog) : Prop :=
  ∃ events : List Event, second.events.toList = first.events.toList ++ events ∧
    ∀ event ∈ events, property event

namespace EventLog.Adds

variable {property property' : Event → Prop} {first second third : EventLog}

theorem refl (log : EventLog) : log.Adds property log := ⟨[], by simp, by simp⟩

theorem record (log : EventLog) {event : Event} (h : property event) :
    log.Adds property (log.record event) :=
  ⟨[event], Array.toList_push, by simpa using h⟩

theorem mono (h : first.Adds property second) (hp : ∀ event, property event → property' event) :
    first.Adds property' second := by
  obtain ⟨events, he, hevents⟩ := h
  exact ⟨events, he, fun event hm => hp _ (hevents event hm)⟩

theorem trans (h : first.Adds property second) (h' : second.Adds property third) :
    first.Adds property third := by
  obtain ⟨events, he, hevents⟩ := h
  obtain ⟨events', he', hevents'⟩ := h'
  refine ⟨events ++ events', by rw [he', he, List.append_assoc], fun event hm => ?_⟩
  rcases List.mem_append.mp hm with hm | hm
  · exact hevents event hm
  · exact hevents' event hm

theorem of_record {log : EventLog} {event : Event} (h : log.Adds property (log.record event)) :
    property event := by
  obtain ⟨events, he, hevents⟩ := h
  rw [EventLog.record, Array.toList_push] at he
  have hevent : [event] = events := List.append_cancel_left he
  exact hevents event (hevent ▸ List.mem_singleton_self event)

/-- What is known of all events is known of those up to a point and of those after it. -/
theorem split (h : first.Adds property third) (hfirst : first.Adds property' second)
    (hsecond : second.Adds property' third) :
    first.Adds property second ∧ second.Adds property third := by
  obtain ⟨events, he, hevents⟩ := h
  obtain ⟨front, hf, -⟩ := hfirst
  obtain ⟨back, hb, -⟩ := hsecond
  have hsplit : events = front ++ back := by
    rw [hb, hf, List.append_assoc] at he
    exact (List.append_cancel_left he).symm
  subst hsplit
  exact ⟨⟨front, hf, fun event hm => hevents event (List.mem_append_left _ hm)⟩,
    ⟨back, hb, fun event hm => hevents event (List.mem_append_right _ hm)⟩⟩

end EventLog.Adds

/-- The second log is the first with more events of these kinds. -/
abbrev EventLog.Records (kinds : EventKind → Prop) (first second : EventLog) : Prop :=
  first.Adds (fun event => kinds event.kind) second

theorem EventLog.Records.mono {kinds kinds' : EventKind → Prop} {first second : EventLog}
    (h : first.Records kinds second) (hk : ∀ kind, kinds kind → kinds' kind) :
    first.Records kinds' second :=
  Adds.mono h fun event => hk event.kind

theorem Session.PassesOver.records {first second : Session} (h : first.PassesOver second) :
    first.log.Records (· = .foldSkipped) second.log := by
  obtain ⟨events, he, hevents⟩ := h.log_eq
  exact ⟨events, he, fun event hm => (hevents event hm).1⟩

/-! ## One pass -/

/-- The passes that fold. -/
def foldPasses : List FoldPass := [arithmeticFold.pass, comparisonFold.pass]

variable {session result : Session}

theorem arithmeticFold_run_eq_true (distinct : session.listing.Distinct)
    (h : arithmeticFold.pass.run session = (.ok true, result)) :
    ∃ before lines tail found, lines.Named found ∧ Nonempty
      (ArithmeticFolded session.listing session.pool before lines tail result.listing
        result.pool) := by
  obtain ⟨before, line, rest, found, mid, note, hsplit, -, hmatch, hattempt, -⟩ :=
    FoldRule.scan_eq_true h
  obtain ⟨lines, tail, hlines, named, -⟩ := ArithmeticMatch.at?_eq_some hmatch
  have cut : session.listing.Cut before lines.left (lines.segment ++ tail) := by
    rw [Listing.Cut, hsplit, hlines]
  exact ⟨before, lines, tail, found, named,
    ArithmeticMatch.fold_eq_folded cut distinct named hattempt⟩

theorem comparisonFold_run_eq_true (distinct : session.listing.Distinct)
    (h : comparisonFold.pass.run session = (.ok true, result)) :
    ∃ before lines following tail found, lines.Named following.handle found ∧ Nonempty
      (ComparisonFolded session.listing session.pool before lines (following :: tail) result.listing
        result.pool) := by
  obtain ⟨before, line, rest, found, mid, note, hsplit, -, hmatch, hattempt, -⟩ :=
    FoldRule.scan_eq_true h
  obtain ⟨lines, following, tail, hlines, named⟩ := ComparisonMatch.at?_eq_some hmatch
  have cut : session.listing.Cut before lines.left (lines.segment ++ following :: tail) := by
    rw [Listing.Cut, hsplit, hlines]
  exact ⟨before, lines, following, tail, found, named,
    ComparisonMatch.fold_eq_folded cut distinct named hattempt⟩

/-- What the passes keep. -/
structure Session.Evolves (first second : Session) : Prop where
  regular : second.listing.Regular second.pool
  pool_extends : first.pool.Extends second.pool
  handlers_eq : second.listing.handlers = first.listing.handlers
  folds_le : first.folds ≤ second.folds
  unchanged : second.folds = first.folds → second.listing = first.listing ∧ second.pool = first.pool
  records : first.log.Records (fun _ => True) second.log

namespace Session.Evolves

theorem refl (regular : session.listing.Regular session.pool) : session.Evolves session :=
  ⟨regular, .refl _, rfl, Nat.le_refl _, fun _ => ⟨rfl, rfl⟩, .refl _⟩

theorem trans {first second third : Session} (h : first.Evolves second)
    (h' : second.Evolves third) :
    first.Evolves third where
  regular := h'.regular
  pool_extends := h.pool_extends.trans h'.pool_extends
  handlers_eq := h'.handlers_eq.trans h.handlers_eq
  folds_le := Nat.le_trans h.folds_le h'.folds_le
  unchanged heq := by
    have hle := h.folds_le
    have hle' := h'.folds_le
    obtain ⟨hlisting, hpool⟩ := h.unchanged (by omega)
    obtain ⟨hlisting', hpool'⟩ := h'.unchanged (by omega)
    exact ⟨hlisting'.trans hlisting, hpool'.trans hpool⟩
  records := h.records.trans h'.records

theorem of_passesOver (regular : session.listing.Regular session.pool)
    (h : session.PassesOver result) : session.Evolves result where
  regular := by
    rw [h.listing_eq, h.pool_eq]
    exact regular
  pool_extends := by
    rw [h.pool_eq]
    exact .refl _
  handlers_eq := by rw [h.listing_eq]
  folds_le := Nat.le_of_eq h.folds_eq.symm
  unchanged _ := ⟨h.listing_eq, h.pool_eq⟩
  records := h.records.mono fun _ _ => trivial

end Session.Evolves

/-- What a fold can put in the place of the lines of its match: a load of a constant for at least
three of them, or an `int` push that is one of them. -/
inductive Replacement (pool grown : ConstantPool) (segment : List Line) :
    Instruction Handle → Prop where
  | constant {value : Number} {index : UInt16} (wide : Bool)
      (added : pool.addNumber value = (.ok index, grown)) (long : 2 ≤ segment.length) :
      Replacement pool grown segment (.loadConstant index wide)
  | selected {line : Line} (mem : line ∈ segment) (push : line.instruction.isIntPush = true)
      (pool_eq : grown = pool) : Replacement pool grown segment line.instruction

theorem Replacement.targets {pool grown : ConstantPool} {segment : List Line}
    {code : Instruction Handle} (h : Replacement pool grown segment code) : code.targets = [] := by
  cases h with
  | constant wide added long => rfl
  | selected mem push pool_eq => exact Instruction.targets_of_isIntPush push

theorem Replacement.extends {pool grown : ConstantPool} {segment : List Line}
    {code : Instruction Handle} (h : Replacement pool grown segment code) : pool.Extends grown := by
  cases h with
  | constant wide added long => exact ConstantPool.extends_intern added
  | selected mem push pool_eq =>
    rw [pool_eq]
    exact .refl _

/-- What a pass that folds did to the listing and the pool. -/
theorem FoldPass.run_eq_true {pass : FoldPass} (mem : pass ∈ foldPasses)
    (distinct : session.listing.Distinct) (h : pass.run session = (.ok true, result)) :
    ∃ before first segment after code,
      session.listing.Replaced before first segment after code result.listing ∧
      Replacement session.pool result.pool segment code := by
  rcases List.mem_pair.mp mem with rfl | rfl
  · obtain ⟨before, lines, tail, found, named, ⟨folded⟩⟩ := arithmeticFold_run_eq_true distinct h
    refine ⟨before, lines.left, lines.segment, tail, _, folded.replaced,
      .constant _ folded.added ?_⟩
    simp only [ArithmeticLines.segment, List.length_append, List.length_cons]
    omega
  · obtain ⟨before, lines, following, tail, found, named, ⟨folded⟩⟩ :=
      comparisonFold_run_eq_true distinct h
    refine ⟨before, lines.left, lines.segment, following :: tail, _, folded.replaced, ?_⟩
    cases htaken : folded.taken with
    | true => exact .selected (by simp [ComparisonLines.segment]) named.target_push folded.pool_eq
    | false =>
      exact .selected (by simp [ComparisonLines.segment]) named.fallthrough_push folded.pool_eq

/-- A fold leaves a regular listing under a pool that has at most grown. -/
theorem FoldPass.regular_of_folded {pass : FoldPass} (mem : pass ∈ foldPasses)
    (regular : session.listing.Regular session.pool) (h : pass.run session = (.ok true, result)) :
    result.listing.Regular result.pool ∧ session.pool.Extends result.pool ∧
      result.listing.handlers = session.listing.handlers := by
  obtain ⟨before, first, segment, after, code, replaced, replacement⟩ :=
    run_eq_true mem regular.distinct h
  refine ⟨?_, replacement.extends, replaced.handlers_eq⟩
  refine (regular.extends replacement.extends).replaced replaced replacement.targets ?_
  cases replacement with
  | constant wide added long => trivial
  | selected hm push pool_eq =>
    rw [pool_eq]
    exact regular.writable _ (replaced.cut.mem_after (List.mem_append_left _ hm))

theorem FoldRule.records_of_folded {α : Type} {rule : FoldRule α}
    (h : rule.pass.run session = (.ok true, result)) : result.folds = session.folds + 1 ∧
      session.log.Records (fun kind => kind = .foldSkipped ∨ kind = rule.event) result.log := by
  obtain ⟨skipped, line, rest, found, mid, note, -, hmid, -, -, hresult⟩ := scan_eq_true h
  rw [hresult]
  refine ⟨congrArg (· + 1) hmid.folds_eq, .trans ?_ (.record _ (.inr rfl))⟩
  exact EventLog.Adds.mono hmid.records fun _ => .inl

/-- A pass that does not fold has changed nothing but the log. -/
theorem FoldPass.passesOver_of_unfolded {pass : FoldPass} (mem : pass ∈ foldPasses)
    {outcome : Except Error Bool} (h : pass.run session = (outcome, result))
    (unfolded : outcome ≠ .ok true) : session.PassesOver result := by
  rcases List.mem_pair.mp mem with rfl | rfl
  · exact FoldRule.passesOver_of_unfolded h unfolded
  · exact FoldRule.passesOver_of_unfolded h unfolded

theorem FoldPass.records_of_folded {pass : FoldPass} (mem : pass ∈ foldPasses)
    (h : pass.run session = (.ok true, result)) : result.folds = session.folds + 1 ∧
      session.log.Records (fun _ => True) result.log := by
  rcases List.mem_pair.mp mem with rfl | rfl
  · exact (FoldRule.records_of_folded h).imp_right fun hrecords => hrecords.mono fun _ _ => trivial
  · exact (FoldRule.records_of_folded h).imp_right fun hrecords => hrecords.mono fun _ _ => trivial

/-- What one pass does to a session, also when it fails. -/
theorem FoldPass.evolves {pass : FoldPass} (mem : pass ∈ foldPasses)
    (regular : session.listing.Regular session.pool) {outcome : Except Error Bool}
    (h : pass.run session = (outcome, result)) : session.Evolves result := by
  by_cases folded : outcome = .ok true
  · rw [folded] at h
    obtain ⟨hregular, hextends, hhandlers⟩ := regular_of_folded mem regular h
    obtain ⟨hfolds, hrecords⟩ := records_of_folded mem h
    exact ⟨hregular, hextends, hhandlers, by omega, fun heq => by omega, hrecords⟩
  · exact .of_passesOver regular (passesOver_of_unfolded mem h folded)

theorem FoldPass.idle_of_run {pass : FoldPass} (mem : pass ∈ foldPasses)
    (h : pass.run session = (.ok false, result)) :
    session.PassesOver result ∧ pass.Idle session.listing session.pool := by
  rcases List.mem_pair.mp mem with rfl | rfl
  · obtain ⟨hpass, hexhausted⟩ := FoldRule.scan_eq_false h
    exact ⟨hpass, FoldRule.idle_iff.mpr fun _ => hexhausted⟩
  · obtain ⟨hpass, hexhausted⟩ := FoldRule.scan_eq_false h
    exact ⟨hpass, FoldRule.idle_iff.mpr fun _ => hexhausted⟩

/-- A pass adds to the log, whatever its outcome. -/
theorem FoldPass.records {pass : FoldPass} (mem : pass ∈ foldPasses) {outcome : Except Error Bool}
    (h : pass.run session = (outcome, result)) :
    session.log.Records (fun _ => True) result.log := by
  by_cases folded : outcome = .ok true
  · exact (records_of_folded mem (folded ▸ h)).2
  · exact (passesOver_of_unfolded mem h folded).records.mono fun _ _ => trivial

/-! ## Chains of passes -/

/-- A session with a warning on record, if there is one. -/
def Session.warn (session : Session) : Option Event → Session
  | none => session
  | some event => { session with log := session.log.record event }

/-- The sessions that runs of these passes lead to, also by runs that fail. -/
inductive Session.Reaches (passes : List FoldPass) (first : Session) : Session → Prop where
  | start : Reaches passes first first
  | pass {mid result : Session} {pass : FoldPass} {outcome : Except Error Bool}
      (reaches : Reaches passes first mid) (mem : pass ∈ passes)
      (run : pass.run mid = (outcome, result)) : Reaches passes first result
  | warned {mid : Session} {event : Event} (reaches : Reaches passes first mid)
      (kind : event.kind = .warning) (method : event.method = some mid.method) :
      Reaches passes first { mid with log := mid.log.record event }

variable {first : Session} {passes : List FoldPass}

theorem Session.Reaches.evolves (folding : ∀ pass ∈ passes, pass ∈ foldPasses)
    (regular : first.listing.Regular first.pool) (h : first.Reaches passes result) :
    first.Evolves result := by
  induction h with
  | start => exact .refl regular
  | pass _ mem run ih => exact ih.trans (FoldPass.evolves (folding _ mem) ih.regular run)
  | warned _ _ _ ih =>
    exact ⟨ih.regular, ih.pool_extends, ih.handlers_eq, ih.folds_le, ih.unchanged,
      ih.records.trans (.record _ trivial)⟩

theorem Session.Reaches.records (folding : ∀ pass ∈ passes, pass ∈ foldPasses)
    (h : first.Reaches passes result) : first.log.Records (fun _ => True) result.log := by
  induction h with
  | start => exact .refl _
  | pass _ mem run ih => exact ih.trans (FoldPass.records (folding _ mem) run)
  | warned _ _ _ ih => exact ih.trans (.record _ trivial)

/-! ## One iteration -/

namespace Schedule

variable {changed : Bool}

/-- The first pass of an iteration does not run, runs or fails. -/
theorem runOnce_cons (pass : FoldPass) (passes : List FoldPass) (changed : Bool)
    (session : Session) :
    (pass.shouldRun session.listing = false ∧
      runOnce (pass :: passes) changed session = runOnce passes changed session) ∨
    (∃ folded mid, pass.run session = (.ok folded, mid) ∧
      runOnce (pass :: passes) changed session = runOnce passes (changed || folded) mid) ∨
    ∃ e mid, pass.run session = (.error e, mid) ∧
      runOnce (pass :: passes) changed session = (.error e, mid) := by
  rw [runOnce]
  by_cases hrun : pass.shouldRun session.listing = true
  · rw [if_pos hrun]
    rcases hresult : pass.run session with ⟨e | folded, mid⟩
    · exact .inr (.inr ⟨e, mid, rfl, rfl⟩)
    · exact .inr (.inl ⟨folded, mid, rfl, rfl⟩)
  · rw [if_neg hrun]
    exact .inl ⟨Bool.not_eq_true _ ▸ hrun, rfl⟩

/-- What every pass keeps is kept by an iteration, also by one that fails. -/
theorem runOnce_keeps {motive : Session → Prop}
    (step : ∀ {pass : FoldPass} {mid result : Session} {outcome : Except Error Bool},
      pass ∈ passes → pass.run mid = (outcome, result) → motive mid → motive result)
    (initial : motive session) {outcome : Except Error Bool}
    (h : runOnce passes changed session = (outcome, result)) : motive result := by
  induction passes generalizing changed session with
  | nil =>
    cases h
    exact initial
  | cons pass passes ih =>
    rcases runOnce_cons pass passes changed session with
      ⟨-, hstep⟩ | ⟨folded, mid, hrun, hstep⟩ | ⟨e, mid, hrun, hstep⟩
    · exact ih (fun mem => step (List.mem_cons_of_mem _ mem)) initial (hstep ▸ h)
    · exact ih (fun mem => step (List.mem_cons_of_mem _ mem))
        (step List.mem_cons_self hrun initial) (hstep ▸ h)
    · rw [hstep] at h
      cases h
      exact step List.mem_cons_self hrun initial

theorem reaches_of_runOnce {outcome : Except Error Bool}
    (h : runOnce passes changed session = (outcome, result)) : session.Reaches passes result :=
  runOnce_keeps (motive := session.Reaches passes) (fun mem run reaches => .pass reaches mem run)
    .start h

theorem runOnce_evolves (mem : ∀ pass ∈ passes, pass ∈ foldPasses)
    (regular : session.listing.Regular session.pool) {outcome : Except Error Bool}
    (h : runOnce passes changed session = (outcome, result)) : session.Evolves result :=
  (reaches_of_runOnce h).evolves mem regular

/-- An iteration fails where one of its passes does. -/
theorem runOnce_eq_error (mem : ∀ pass ∈ passes, pass ∈ foldPasses)
    (regular : session.listing.Regular session.pool) {e : Error}
    (h : runOnce passes changed session = (.error e, result)) :
    ∃ pass ∈ foldPasses, ∃ mid : Session, mid.listing.Regular mid.pool ∧
      pass.run mid = (.error e, result) := by
  induction passes generalizing changed session with
  | nil => cases h
  | cons pass passes ih =>
    obtain ⟨hpass, hrest⟩ := List.forall_mem_cons.mp mem
    rcases runOnce_cons pass passes changed session with
      ⟨-, hstep⟩ | ⟨folded, mid, hrun, hstep⟩ | ⟨e', mid, hrun, hstep⟩
    · exact ih hrest regular (hstep ▸ h)
    · exact ih hrest (FoldPass.evolves hpass regular hrun).regular (hstep ▸ h)
    · rw [hstep] at h
      cases h
      exact ⟨pass, hpass, session, regular, hrun⟩

/-- An iteration in which something has been folded says so. -/
theorem runOnce_changed {folded : Bool} (h : runOnce passes true session = (.ok folded, result)) :
    folded = true := by
  induction passes generalizing session with
  | nil =>
    cases h
    rfl
  | cons pass passes ih =>
    rcases runOnce_cons pass passes true session with
      ⟨-, hstep⟩ | ⟨folded', mid, -, hstep⟩ | ⟨e, mid, -, hstep⟩
    · exact ih (hstep ▸ h)
    · exact ih (hstep ▸ h)
    · rw [hstep] at h
      cases h

/-- After an iteration without a fold every pass is idle. -/
theorem idle_of_runOnce (mem : ∀ pass ∈ passes, pass ∈ foldPasses)
    (h : runOnce passes changed session = (.ok false, result)) : session.PassesOver result ∧
      ∀ pass ∈ passes, pass.Idle session.listing session.pool := by
  induction passes generalizing changed session with
  | nil =>
    cases h
    exact ⟨.refl _, by simp⟩
  | cons pass passes ih =>
    obtain ⟨hpass, hrest⟩ := List.forall_mem_cons.mp mem
    rcases runOnce_cons pass passes changed session with
      ⟨hskip, hstep⟩ | ⟨folded, mid, hrun, hstep⟩ | ⟨e, mid, -, hstep⟩
    · obtain ⟨hover, hidle⟩ := ih hrest (hstep ▸ h)
      refine ⟨hover, List.forall_mem_cons.mpr ⟨fun hshould => ?_, hidle⟩⟩
      rw [hskip] at hshould
      cases hshould
    · rw [hstep] at h
      cases folded with
      | true =>
        rw [Bool.or_true] at h
        cases runOnce_changed h
      | false =>
        obtain ⟨hfirst, hidle⟩ := FoldPass.idle_of_run hpass hrun
        obtain ⟨hover, hothers⟩ := ih hrest h
        rw [hfirst.listing_eq, hfirst.pool_eq] at hothers
        exact ⟨hfirst.trans hover, List.forall_mem_cons.mpr ⟨hidle, hothers⟩⟩
    · rw [hstep] at h
      cases h

/-- Idle passes leave a session as it is but for what they report. -/
theorem runOnce_of_idle (h : ∀ pass ∈ passes, pass.Idle session.listing session.pool) :
    ∃ result, runOnce passes false session = (.ok false, result) ∧ session.PassesOver result := by
  induction passes generalizing session with
  | nil => exact ⟨session, rfl, .refl session⟩
  | cons pass passes ih =>
    obtain ⟨hidle, hothers⟩ := List.forall_mem_cons.mp h
    by_cases hrun : pass.shouldRun session.listing = true
    · obtain ⟨mid, hmid, hover⟩ := hidle hrun session rfl rfl
      rw [← hover.listing_eq, ← hover.pool_eq] at hothers
      obtain ⟨result, hresult, hover'⟩ := ih hothers
      refine ⟨result, ?_, hover.trans hover'⟩
      rw [runOnce, if_pos hrun, hmid]
      exact hresult
    · obtain ⟨result, hresult, hover⟩ := ih hothers
      exact ⟨result, by rw [runOnce, if_neg hrun, hresult], hover⟩

/-! ## Iterations -/

variable {schedule : Schedule} {remaining done : Nat}

/-- What every pass keeps holds where the iterations end, but for a warning if they were cut
short. -/
theorem iterate_keeps {motive : Session → Prop}
    (step : ∀ {pass : FoldPass} {mid result : Session} {outcome : Except Error Bool},
      pass ∈ schedule.passes → pass.run mid = (outcome, result) → motive mid → motive result)
    (initial : motive session) {outcome : Except Error Nat}
    (h : schedule.iterate remaining done session = (outcome, result)) :
    ∃ last warning, motive last ∧ result = last.warn warning ∧
      ∀ event ∈ warning, event.kind = .warning ∧ event.method = some last.method := by
  induction remaining generalizing done session with
  | zero =>
    cases h
    refine ⟨session, some _, initial, rfl, ?_⟩
    rintro event ⟨⟩
    exact ⟨rfl, rfl⟩
  | succ remaining ih =>
    rw [iterate] at h
    split at h
    case h_1 mid hmid => exact ih (runOnce_keeps step initial hmid) h
    case h_2 mid hmid =>
      cases h
      exact ⟨_, none, runOnce_keeps step initial hmid, rfl, by simp⟩
    case h_3 mid hmid =>
      cases h
      exact ⟨_, none, runOnce_keeps step initial hmid, rfl, by simp⟩

theorem reaches_of_iterate {outcome : Except Error Nat}
    (h : schedule.iterate remaining done session = (outcome, result)) :
    session.Reaches schedule.passes result := by
  obtain ⟨last, warning, reaches, rfl, hwarning⟩ := iterate_keeps
    (motive := session.Reaches schedule.passes)
    (fun mem run reaches => .pass reaches mem run) .start h
  cases warning with
  | none => exact reaches
  | some event => exact .warned reaches (hwarning event rfl).1 (hwarning event rfl).2

theorem reaches_of_run {outcome : Except Error Nat} (h : schedule.run session = (outcome, result)) :
    session.Reaches schedule.passes result :=
  reaches_of_iterate h

theorem iterate_evolves (mem : ∀ pass ∈ schedule.passes, pass ∈ foldPasses)
    (regular : session.listing.Regular session.pool) {outcome : Except Error Nat}
    (h : schedule.iterate remaining done session = (outcome, result)) : session.Evolves result :=
  (reaches_of_iterate h).evolves mem regular

theorem iterate_eq_error (mem : ∀ pass ∈ schedule.passes, pass ∈ foldPasses)
    (regular : session.listing.Regular session.pool) {e : Error}
    (h : schedule.iterate remaining done session = (.error e, result)) :
    ∃ pass ∈ foldPasses, ∃ mid : Session, mid.listing.Regular mid.pool ∧
      pass.run mid = (.error e, result) := by
  induction remaining generalizing done session with
  | zero => cases h
  | succ remaining ih =>
    rw [iterate] at h
    split at h
    case h_1 mid hmid => exact ih (runOnce_evolves mem regular hmid).regular h
    case h_2 => cases h
    case h_3 mid hmid =>
      cases h
      exact runOnce_eq_error mem regular hmid

/-- Iterations that end without a warning end with one that has not folded anything. -/
theorem idle_of_iterate (mem : ∀ pass ∈ schedule.passes, pass ∈ foldPasses)
    {count : Nat} (h : schedule.iterate remaining done session = (.ok count, result))
    (quiet : session.log.Records (· ≠ .warning) result.log) :
    0 < remaining ∧ ∀ pass ∈ schedule.passes, pass.Idle result.listing result.pool := by
  induction remaining generalizing done session with
  | zero =>
    cases h
    exact absurd rfl quiet.of_record
  | succ remaining ih =>
    refine ⟨Nat.succ_pos _, ?_⟩
    rw [iterate] at h
    split at h
    case h_1 mid hmid =>
      have hfirst := (reaches_of_runOnce hmid).records mem
      have hrest := (reaches_of_iterate h).records mem
      exact (ih h (quiet.split hfirst hrest).2).2
    case h_2 mid hmid =>
      cases h
      obtain ⟨hover, hidle⟩ := idle_of_runOnce mem hmid
      rw [hover.listing_eq, hover.pool_eq]
      exact hidle
    case h_3 => cases h

theorem run_of_idle (positive : 0 < schedule.maxIterations)
    (h : ∀ pass ∈ schedule.passes, pass.Idle session.listing session.pool) :
    ∃ result, schedule.run session = (.ok 1, result) ∧ session.PassesOver result := by
  obtain ⟨result, hresult, hover⟩ := runOnce_of_idle h
  obtain ⟨remaining, hremaining⟩ := Nat.exists_eq_succ_of_ne_zero (Nat.ne_of_gt positive)
  refine ⟨result, ?_, hover⟩
  rw [run, hremaining, iterate, hresult]

end Schedule

end BytecodeFold
