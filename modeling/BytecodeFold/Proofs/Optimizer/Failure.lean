import BytecodeFold.Proofs.Failure
import BytecodeFold.Proofs.Fold.Attempt
import BytecodeFold.Proofs.Optimizer.WellFormed

/-!
# How an optimization fails

An attempt on a match can fail because an operand does not resolve, and a scan passes over such a
match. Any other error of an attempt, and every error of loading and finishing a method whose code
decodes, is one that may surface. Nothing but a layout complains about the length of code.
-/

namespace BytecodeFold

/-! ## Operands -/

variable {pool : ConstantPool} {e : Error}

/-- What a lookup fails with: a scan passes over it, or the pool has nothing there. -/
theorem ConstantPool.number_eq_error {index : UInt16} (h : pool.number index = .error e) :
    e.isRecoverable = true ∨ e.Plain := by
  rcases Outcome.bind_eq_error.mp h with h | ⟨entry, -, h⟩
  · exact .inr (pool.plain_entry index e h)
  · split at h <;> cases h
    exact .inl rfl

namespace Listing

variable {listing : Listing}

theorem literal?_eq_error {code : Instruction Handle} (h : literal? pool code = .error e) :
    e.isRecoverable = true ∨ e.Plain := by
  cases code with
  | loadConstant index wide =>
    rcases Outcome.bind_eq_error.mp h with h | ⟨value, -, h⟩
    · exact ConstantPool.number_eq_error h
    · cases h
  | _ => cases h

theorem loadValue_eq_error {handle : Handle} {slot : UInt16}
    (h : listing.loadValue pool handle slot = .error e) :
    e.isRecoverable = true ∨ e.Plain := by
  unfold loadValue at h
  dsimp only at h
  split at h
  · cases h
    exact .inl rfl
  · split at h
    · rcases Outcome.bind_eq_error.mp h with h | ⟨value, -, h⟩
      · exact literal?_eq_error h
      · split at h <;> cases h
        exact .inl rfl
    · cases h
      exact .inl rfl

theorem operandValue_eq_error {line : Line} (distinct : listing.Distinct)
    (hm : line ∈ listing.lines.toList) (operand : line.instruction.isOperand = true)
    (h : listing.operandValue pool line.handle = .error e) :
    e.isRecoverable = true ∨ e.Plain := by
  unfold operandValue at h
  rw [get?_of_mem distinct hm] at h
  cases hi : line.instruction with
  | push value type =>
    rw [hi] at h
    cases h
  | load slot type =>
    rw [hi] at h
    exact loadValue_eq_error h
  | loadConstant index wide =>
    rw [hi] at h
    rcases Outcome.bind_eq_error.mp h with h | ⟨value, hvalue, h⟩
    · exact literal?_eq_error h
    · obtain ⟨number, -, hvalue⟩ := Outcome.bind_eq_ok.mp hvalue
      cases hvalue
      cases h
  | _ =>
    rw [hi] at operand
    cases operand

end Listing

/-! ## Passes -/

theorem Error.plain_of_isUnsupported (h : e.isUnsupported = true) : e.Plain := by
  cases e <;> first | exact ⟨rfl, rfl⟩ | cases h

/-- An attempt that ends in one of the known ways fails with an error that a scan passes over or
with a plain one. -/
theorem AttemptEnds.eq_error {left right : Except Error (Number × TypeTag)}
    {verdict : Number × TypeTag → Number × TypeTag → Except Error Bool} {free : Prop}
    (h : AttemptEnds left right verdict free (.error e)) (fatal : e.isRecoverable = false)
    (hleft : left = .error e → e.isRecoverable = true ∨ e.Plain)
    (hright : right = .error e → e.isRecoverable = true ∨ e.Plain)
    (hverdict : ∀ l r, verdict l r = .error e → e.isUnsupported = true) : e.Plain := by
  rcases h.error_cases with he | he | ⟨l, r, he⟩ | rfl
  · rcases hleft he with hr | hi
    · rw [hr] at fatal
      cases fatal
    · exact hi
  · rcases hright he with hr | hi
    · rw [hr] at fatal
      cases fatal
    · exact hi
  · exact Error.plain_of_isUnsupported (hverdict l r he)
  · exact ⟨rfl, rfl⟩

/-- A pass over a regular listing fails with a plain error. -/
theorem FoldPass.plain_of_run {pass : FoldPass} {session result : Session}
    (mem : pass ∈ foldPasses) (regular : session.listing.Regular session.pool)
    (h : pass.run session = (.error e, result)) : e.Plain := by
  have distinct := regular.distinct
  rcases List.mem_pair.mp mem with rfl | rfl
  · obtain ⟨-, before, line, rest, found, hsplit, hmatch, hattempt, fatal⟩ :=
      FoldRule.scan_eq_error h
    obtain ⟨lines, tail, hlines, named, -⟩ := ArithmeticMatch.at?_eq_some hmatch
    have cut : session.listing.Cut before lines.left (lines.segment ++ tail) := by
      rw [Listing.Cut, hsplit, hlines]
    have hends := ArithmeticMatch.fold_ends session.pool cut distinct named
    rw [show ArithmeticMatch.fold _ _ _ = _ from hattempt, named.left, named.right] at hends
    refine hends.eq_error fatal ?_ ?_ fun l r => ArithmeticMatch.verdict_eq_error
    · exact Listing.operandValue_eq_error distinct cut.mem named.left_operand
    · exact Listing.operandValue_eq_error distinct
        (cut.mem_after (by simp [ArithmeticLines.segment])) named.right_operand
  · obtain ⟨-, before, line, rest, found, hsplit, hmatch, hattempt, fatal⟩ :=
      FoldRule.scan_eq_error h
    obtain ⟨lines, following, tail, hlines, named⟩ := ComparisonMatch.at?_eq_some hmatch
    have cut : session.listing.Cut before lines.left (lines.segment ++ following :: tail) := by
      rw [Listing.Cut, hsplit, hlines]
    have hends := ComparisonMatch.fold_ends session.pool cut distinct named
    rw [show ComparisonMatch.fold _ _ _ = _ from hattempt, named.left, named.right] at hends
    have hbranch : session.listing.get? found.branch = some lines.branch.instruction := by
      rw [named.branch]
      exact Listing.get?_of_mem distinct (cut.mem_after (by simp [ComparisonLines.segment]))
    refine hends.eq_error fatal ?_ ?_ fun l r => ComparisonMatch.verdict_eq_error named hbranch
    · exact Listing.operandValue_eq_error distinct cut.mem named.left_operand
    · exact Listing.operandValue_eq_error distinct
        (cut.mem_after (by simp [ComparisonLines.segment])) named.right_operand

/-- A pass over a regular listing fails with an error that may surface. -/
theorem FoldPass.isInternal_of_run {pass : FoldPass} {session result : Session}
    (mem : pass ∈ foldPasses) (regular : session.listing.Regular session.pool)
    (h : pass.run session = (.error e, result)) : e.isInternal = false :=
  (plain_of_run mem regular h).1

/-! ## Methods -/

/-- A session fails to finish as its listing fails to be written, or plainly. -/
theorem Session.failsOnly_finish {session : Session} {allowed : Error → Prop}
    (regular : session.listing.Regular session.pool) (method : Method)
    (encode : FailsOnly allowed session.listing.encode.1) (plain : ∀ e, e.Plain → allowed e) :
    FailsOnly allowed (session.finish method) := by
  have hlaid := regular.encode
  unfold finish
  rcases he : session.listing.encode with ⟨encoded, laid⟩
  rw [he] at encode hlaid
  refine FailsOnly.bind encode fun code _ => ?_
  refine FailsOnly.bind (hlaid.plain_maxStack.mono plain) fun depth _ => ?_
  refine FailsOnly.bind (method.plain_argumentSlots.mono plain) fun slots _ => ?_
  exact ((laid.plain_maxLocals slots).mono plain).bind fun locals _ => .ok _

theorem Session.presentable_finish {session : Session}
    (regular : session.listing.Regular session.pool)
    (method : Method) : Presentable (session.finish method) :=
  failsOnly_finish regular method (regular.failsOnly_encode regular.presentable_layout)
    fun _ h => h.1

/-- Internal errors never surface. If a schedule of the two folds fails on a method whose code
decodes, with whatever bound on its iterations, then not because of a handle that is gone or an
operand that has no encoding, not with an error that a scan should have passed over, and not because
the bytes are not as many as were laid out. -/
theorem optimizeMethod_presentable {schedule : Schedule} {keep : Bool} {method : Method}
    {code : Code} {listing : Listing} {log log' : EventLog}
    (folding : ∀ pass ∈ schedule.passes, pass ∈ foldPasses) (hcode : method.code = some code)
    (decodes : code.decode pool = .ok listing)
    (failed : schedule.optimizeMethod keep method pool log = (.error e, log')) :
    e.isInternal = false := by
  cases Schedule.stages_of_optimizeMethod hcode failed with
  | unreadable load =>
    rcases Code.load_eq_error load with hd | ⟨decoded, laid, hd, hlayout⟩
    · cases decodes.symm.trans hd
    · have hregular := Listing.regular_of_decode hd
      exact hregular.presentable_layout e (by rw [hlayout])
  | failed load run =>
    obtain ⟨pass, hpass, mid, hregular, hrun⟩ :=
      Schedule.iterate_eq_error folding (Code.regular_of_load load) run
    exact FoldPass.isInternal_of_run hpass hregular hrun
  | unfinished load run finish =>
    exact Session.presentable_finish (Schedule.run_evolves folding load run).regular method e finish

/-- With a descriptor that cannot be read the method is folded and then given up. -/
theorem optimizeMethod_presentable_conjunction : ∃ e log',
    ({} : Config).schedule.optimizeMethod true (conjunctionMethod "x") .empty {} =
      (.error e, log') ∧
      e.isInternal = false := by
  obtain ⟨session, hrun, hlisting, -, hfolds, -⟩ := run_conjunction (conjunctionMethod "x") {}
  have hslots : (conjunctionMethod "x").argumentSlots =
      .error (.malformed (.noParameterList "x")) := by
    simp [Method.argumentSlots, Method.parsedDescriptor, conjunctionMethod, MethodDescriptor.parse]
  have hfinish : session.finish (conjunctionMethod "x") =
      .error (.malformed (.noParameterList "x")) := by
    rw [Session.finish, hlisting, encode_conjunctionFolded]
    simp only [Outcome.ok_bind, maxStack_conjunctionLaid, hslots, Outcome.error_bind]
  have hstart : ({} : Config).schedule.run (.start conjunctionListing .empty {}
      (conjunctionMethod "x").signature) = (.ok 2, session) := hrun
  have hfailed : ({} : Config).schedule.optimizeMethod true (conjunctionMethod "x") .empty {} =
      (.error (.malformed (.noParameterList "x")), session.log) := by
    rw [Schedule.optimizeMethod, show (conjunctionMethod "x").code = some conjunction from rfl]
    simp only [Schedule.optimizeCode, load_conjunction, hstart, hfolds, hfinish]
    rfl
  obtain ⟨decoded, -, hdecode, -⟩ := Code.load_eq_ok.mp load_conjunction
  exact ⟨_, _, hfailed, optimizeMethod_presentable (fun _ hpass => hpass) rfl hdecode hfailed⟩

end BytecodeFold
