import BytecodeFold.Proofs.Optimizer.Idempotence

/-!
# Runs stabilise

Every fold takes at least two lines out of the listing, and nothing else in a run changes the
listing or the pool. So the lines and twice the folds never grow together, which bounds the
iterations that fold anything by half of the lines. A schedule that is allowed more iterations than
that ends by itself: without a warning, after an iteration that has changed nothing.
-/

namespace BytecodeFold

variable {first second third session result : Session} {passes : List FoldPass}

/-! ## What a fold costs -/

/-- A replacement takes the lines of its segment out of the listing. -/
theorem Listing.Replaced.shortens {listing folded : Listing} {before segment after : List Line}
    {line : Line} {code : Instruction Handle}
    (replaced : listing.Replaced before line segment after code folded)
    (long : 2 ≤ segment.length) : folded.size + 2 ≤ listing.size := by
  rw [size, size, ← Array.length_toList, ← Array.length_toList,
    show folded.lines.toList = _ from replaced.result_cut,
    show listing.lines.toList = _ from replaced.cut]
  simp only [List.length_append, List.length_cons]
  omega

theorem FoldPass.size_of_folded {pass : FoldPass} (mem : pass ∈ foldPasses)
    (distinct : session.listing.Distinct) (h : pass.run session = (.ok true, result)) :
    result.listing.size + 2 ≤ session.listing.size ∧ result.listing.Distinct := by
  rcases List.mem_pair.mp mem with rfl | rfl
  · obtain ⟨before, lines, tail, found, -, ⟨folded⟩⟩ := arithmeticFold_run_eq_true distinct h
    refine ⟨folded.replaced.shortens ?_, folded.replaced.result_distinct⟩
    simp only [ArithmeticLines.segment, List.length_append, List.length_cons]
    omega
  · obtain ⟨before, lines, following, tail, found, -, ⟨folded⟩⟩ :=
      comparisonFold_run_eq_true distinct h
    refine ⟨folded.replaced.shortens ?_, folded.replaced.result_distinct⟩
    simp only [ComparisonLines.segment, List.length_append, List.length_cons]
    omega

theorem FoldPass.quiet_of_folded {pass : FoldPass} (mem : pass ∈ foldPasses)
    (h : pass.run session = (.ok true, result)) :
    session.log.Records (· ≠ .warning) result.log := by
  rcases List.mem_pair.mp mem with rfl | rfl
  · refine (FoldRule.records_of_folded h).2.mono ?_
    rintro kind (rfl | rfl) <;> decide
  · refine (FoldRule.records_of_folded h).2.mono ?_
    rintro kind (rfl | rfl) <;> decide

/-- Folds are paid for with two lines each, and no warning is given. -/
structure Session.Pays (first second : Session) : Prop where
  distinct : second.listing.Distinct
  folds_le : first.folds ≤ second.folds
  lines_le : second.listing.size + 2 * second.folds ≤ first.listing.size + 2 * first.folds
  quiet : first.log.Records (· ≠ .warning) second.log

namespace Session.Pays

theorem refl (distinct : session.listing.Distinct) : session.Pays session :=
  ⟨distinct, Nat.le_refl _, Nat.le_refl _, .refl _⟩

theorem trans (h : first.Pays second) (h' : second.Pays third) : first.Pays third :=
  ⟨h'.distinct, Nat.le_trans h.folds_le h'.folds_le, Nat.le_trans h'.lines_le h.lines_le,
    h.quiet.trans h'.quiet⟩

theorem of_passesOver (distinct : session.listing.Distinct) (h : session.PassesOver result) :
    session.Pays result where
  distinct := by
    rw [h.listing_eq]
    exact distinct
  folds_le := Nat.le_of_eq h.folds_eq.symm
  lines_le := Nat.le_of_eq (by rw [h.listing_eq, h.folds_eq])
  quiet := h.records.mono fun kind hkind => by
    rw [hkind]
    decide

end Session.Pays

theorem FoldPass.pays {pass : FoldPass} (mem : pass ∈ foldPasses)
    (distinct : session.listing.Distinct) {outcome : Except Error Bool}
    (h : pass.run session = (outcome, result)) : session.Pays result := by
  by_cases folded : outcome = .ok true
  · rw [folded] at h
    obtain ⟨hsize, hdistinct⟩ := size_of_folded mem distinct h
    obtain ⟨hfolds, -⟩ := records_of_folded mem h
    exact ⟨hdistinct, by omega, by omega, quiet_of_folded mem h⟩
  · exact .of_passesOver distinct (passesOver_of_unfolded mem h folded)

namespace Schedule

variable {schedule : Schedule} {changed : Bool} {remaining done count : Nat}

/-! ## Iterations -/

theorem runOnce_pays (folding : ∀ pass ∈ passes, pass ∈ foldPasses)
    (distinct : session.listing.Distinct) {outcome : Except Error Bool}
    (h : runOnce passes changed session = (outcome, result)) : session.Pays result :=
  runOnce_keeps (motive := session.Pays)
    (fun mem run pays => pays.trans (FoldPass.pays (folding _ mem) pays.distinct run))
    (.refl distinct) h

/-- An iteration that reports a change has folded. -/
theorem folds_lt_of_runOnce (folding : ∀ pass ∈ passes, pass ∈ foldPasses)
    (distinct : session.listing.Distinct)
    (h : runOnce passes false session = (.ok true, result)) : session.folds < result.folds := by
  induction passes generalizing session with
  | nil => cases h
  | cons pass passes ih =>
    obtain ⟨hpass, hrest⟩ := List.forall_mem_cons.mp folding
    rcases runOnce_cons pass passes false session with
      ⟨-, hstep⟩ | ⟨folded, mid, hrun, hstep⟩ | ⟨e, mid, -, hstep⟩
    · exact ih hrest distinct (hstep ▸ h)
    · rw [hstep, Bool.false_or] at h
      have hpays := FoldPass.pays hpass distinct hrun
      cases folded with
      | true =>
        obtain ⟨hfolds, -⟩ := FoldPass.records_of_folded hpass hrun
        have hle := (runOnce_pays hrest hpays.distinct h).folds_le
        omega
      | false => exact Nat.lt_of_le_of_lt hpays.folds_le (ih hrest hpays.distinct h)
    · rw [hstep] at h
      cases h

/-- This many iterations, one after another, each of which reports a change. -/
inductive Iterates (schedule : Schedule) (first : Session) : Nat → Session → Prop where
  | start : Iterates schedule first 0 first
  | changed {count : Nat} {mid result : Session} (iterates : Iterates schedule first count mid)
      (run : runOnce schedule.passes false mid = (.ok true, result)) :
      Iterates schedule first (count + 1) result

theorem Iterates.pays (folding : ∀ pass ∈ schedule.passes, pass ∈ foldPasses)
    (distinct : first.listing.Distinct) (h : schedule.Iterates first count session) :
    first.Pays session ∧ first.folds + count ≤ session.folds := by
  induction h with
  | start => exact ⟨.refl distinct, Nat.le_refl _⟩
  | @changed count mid result iterates run ih =>
    obtain ⟨hpays, hcount⟩ := ih
    have hlt := folds_lt_of_runOnce folding hpays.distinct run
    exact ⟨hpays.trans (runOnce_pays folding hpays.distinct run), by omega⟩

/-- Iterations that change the listing need two lines each. -/
theorem Iterates.size_le (folding : ∀ pass ∈ schedule.passes, pass ∈ foldPasses)
    (distinct : first.listing.Distinct) (h : schedule.Iterates first count session) :
    session.listing.size + 2 * count ≤ first.listing.size := by
  obtain ⟨hpays, hcount⟩ := h.pays folding distinct
  have hlines := hpays.lines_le
  omega

/-- A run that does not fail ends with an iteration that reports no change, or is cut short. -/
theorem iterates_of_iterate (before : schedule.Iterates first done session)
    (h : schedule.iterate remaining done session = (.ok count, result)) :
    (∃ changes last, schedule.Iterates first changes last ∧ changes < done + remaining ∧
      count = changes + 1 ∧ runOnce schedule.passes false last = (.ok false, result)) ∨
    ∃ last, schedule.Iterates first (done + remaining) last := by
  induction remaining generalizing done session with
  | zero => exact .inr ⟨session, before⟩
  | succ remaining ih =>
    rw [iterate] at h
    split at h
    case h_1 mid hmid =>
      rw [Nat.add_succ, ← Nat.succ_add]
      exact ih (before.changed hmid) h
    case h_2 mid hmid =>
      cases h
      exact .inl ⟨done, session, before, by omega, rfl, hmid⟩
    case h_3 => cases h

end Schedule

/-! ## Runs -/

/-- Runs stabilise. In a run of the two folds, every iteration that reports a change takes at least
two lines out of the listing. So a schedule that allows more iterations than half of the lines, if
none of its passes fails, ends within that many and one more. It gives no warning, and its last
iteration leaves the listing and the pool as they are. -/
theorem run_stabilises {schedule : Schedule}
    (folding : ∀ pass ∈ schedule.passes, pass ∈ foldPasses) {session : Session}
    (distinct : session.listing.Distinct) :
    (∀ changes mid next, schedule.Iterates session changes mid →
      Schedule.runOnce schedule.passes false mid = (.ok true, next) →
      next.listing.size + 2 ≤ mid.listing.size) ∧
    ∀ count result, session.listing.size / 2 < schedule.maxIterations →
      schedule.run session = (.ok count, result) →
      count ≤ session.listing.size / 2 + 1 ∧
      (result.log.drop session.log.size).has .warning = false ∧
      ∃ last, schedule.Iterates session (count - 1) last ∧
        Schedule.runOnce schedule.passes false last = (.ok false, result) ∧
        result.listing = last.listing ∧ result.pool = last.pool := by
  refine ⟨fun changes mid next iterates run => ?_, fun count result enough run => ?_⟩
  · have hmid := (iterates.pays folding distinct).1.distinct
    exact (Schedule.Iterates.start.changed run).size_le folding hmid
  · rcases Schedule.iterates_of_iterate .start run with
      ⟨changes, last, iterates, -, rfl, hlast⟩ | ⟨last, iterates⟩
    · have hsize := iterates.size_le folding distinct
      obtain ⟨hover, -⟩ := Schedule.idle_of_runOnce folding hlast
      have hpays := (iterates.pays folding distinct).1
      have hquiet := (hpays.trans (.of_passesOver hpays.distinct hover)).quiet
      have hgrows : session.log.Records (fun _ => True) result.log := hquiet.mono fun _ _ => trivial
      exact ⟨by omega, (EventLog.has_drop_eq_false hgrows).mpr hquiet, last, iterates, hlast,
        hover.listing_eq, hover.pool_eq⟩
    · have hsize := iterates.size_le folding distinct
      omega

/-- The conjunction is folded in the first of two iterations. -/
theorem run_stabilises_conjunction : ∃ last result,
    ({} : Config).schedule.run (.start conjunctionListing .empty {} "conjunction()I") =
      (.ok 2, result) ∧
    ({} : Config).schedule.Iterates (.start conjunctionListing .empty {} "conjunction()I") 1 last ∧
    last.listing.size + 2 ≤ conjunctionListing.size ∧ result.listing = last.listing := by
  obtain ⟨result, run, -⟩ := run_conjunction (conjunctionMethod "()I") {}
  have distinct := (Code.regular_of_load load_conjunction).distinct
  obtain ⟨shortens, stops⟩ := @run_stabilises ({} : Config).schedule (fun _ mem => mem)
    (.start conjunctionListing .empty {} "conjunction()I") distinct
  obtain ⟨-, -, last, iterates, -, hlast, -⟩ := stops 2 result (by decide) run
  refine ⟨last, result, run, iterates, ?_, hlast⟩
  cases iterates with
  | changed earlier hfirst =>
    cases earlier
    exact shortens 0 _ last .start hfirst

end BytecodeFold
