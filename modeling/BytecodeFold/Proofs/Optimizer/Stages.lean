import BytecodeFold.Optimizer
import BytecodeFold.Proofs.Fold.Run

/-!
# The stages of an optimization

A method is optimized in stages: its code is decoded and laid out, the passes run on it, and then
it is kept as it was or encoded anew. `Stages` says at which of them the optimization ended and with
what.
-/

namespace BytecodeFold

variable {code : Code} {pool : ConstantPool} {listing : Listing}

theorem Code.load_eq_ok : code.load pool = .ok listing ↔ ∃ decoded length,
    code.decode pool = .ok decoded ∧ decoded.layout = (.ok length, listing) := by
  rw [load, Outcome.bind_eq_ok]
  refine exists_congr fun decoded => ?_
  rcases hl : decoded.layout with ⟨e | length, laid⟩
  · simp
  · simp

theorem Code.load_eq_error {e : Error} (h : code.load pool = .error e) :
    code.decode pool = .error e ∨ ∃ decoded laid, code.decode pool = .ok decoded ∧
      decoded.layout = (.error e, laid) := by
  rw [load] at h
  rcases Outcome.bind_eq_error.mp h with hd | ⟨decoded, hd, h⟩
  · exact .inl hd
  · rcases hl : decoded.layout with ⟨e' | length, laid⟩
    · rw [hl] at h
      cases h
      exact .inr ⟨decoded, laid, hd, hl⟩
    · rw [hl] at h
      cases h

theorem Code.regular_of_load (h : code.load pool = .ok listing) : listing.Regular pool := by
  obtain ⟨decoded, length, hd, hl⟩ := Code.load_eq_ok.mp h
  have hlayout := (Listing.regular_of_decode hd).layout
  rw [hl] at hlayout
  exact hlayout

/-- What finishing a session amounts to. -/
structure Session.Finishes (session : Session) (method : Method) (code : Code) (laid : Listing)
    (slots : Nat) : Prop where
  encoded : session.listing.encode = (.ok (code.bytes, code.exceptionTable), laid)
  maxStack : laid.maxStack session.pool = .ok code.maxStack
  argumentSlots : method.argumentSlots = .ok slots
  maxLocals : laid.maxLocals slots = .ok code.maxLocals

theorem Session.finish_eq_ok {session : Session} {method : Method}
    (h : session.finish method = .ok code) :
    ∃ laid slots, session.Finishes method code laid slots := by
  rw [finish] at h
  rcases he : session.listing.encode with ⟨encoded, laid⟩
  rw [he] at h
  obtain ⟨⟨bytes, table⟩, hencoded, h⟩ := Outcome.bind_eq_ok.mp h
  obtain ⟨depth, hdepth, h⟩ := Outcome.bind_eq_ok.mp h
  obtain ⟨slots, hslots, h⟩ := Outcome.bind_eq_ok.mp h
  obtain ⟨locals, hlocals, h⟩ := Outcome.bind_eq_ok.mp h
  cases h
  have hencoded : encoded = .ok (bytes, table) := hencoded
  exact ⟨laid, slots, by rw [he, hencoded], hdepth, hslots, hlocals⟩

namespace Schedule

variable {schedule : Schedule} {keep : Bool} {method : Method} {log : EventLog}

/-- The session on the listing of a method. -/
def opening (method : Method) (pool : ConstantPool) (log : EventLog) (listing : Listing) :
    Session :=
  .start listing pool log method.signature

/-- How the optimization of a method can end, with the log after it. -/
inductive Stages (schedule : Schedule) (keep : Bool) (method : Method) (code : Code)
    (pool : ConstantPool) (log : EventLog) :
    Except Error (Method × ConstantPool) → EventLog → Prop where
  | unreadable {e : Error} (load : code.load pool = .error e) :
      Stages schedule keep method code pool log (.error e) log
  | failed {listing : Listing} {e : Error} {session : Session} (load : code.load pool = .ok listing)
      (run : schedule.run (opening method pool log listing) = (.error e, session)) :
      Stages schedule keep method code pool log (.error e) session.log
  | unchanged {listing : Listing} {count : Nat} {session : Session} {event : Event}
      (load : code.load pool = .ok listing)
      (run : schedule.run (opening method pool log listing) = (.ok count, session))
      (folds : session.folds = 0) (kept : keep = true) (kind : event.kind = .methodUnchanged)
      (named : event.method = some method.signature) :
      Stages schedule keep method code pool log (.ok (method, pool)) (session.log.record event)
  | unfinished {listing : Listing} {count : Nat} {session : Session} {e : Error}
      (load : code.load pool = .ok listing)
      (run : schedule.run (opening method pool log listing) = (.ok count, session))
      (finish : session.finish method = .error e) :
      Stages schedule keep method code pool log (.error e) session.log
  | optimized {listing : Listing} {count : Nat} {session : Session} {result : Code} {event : Event}
      (load : code.load pool = .ok listing)
      (run : schedule.run (opening method pool log listing) = (.ok count, session))
      (changed : ¬ (session.folds = 0 ∧ keep = true)) (finish : session.finish method = .ok result)
      (kind : event.kind = .methodOptimized) (named : event.method = some method.signature) :
      Stages schedule keep method code pool log
        (.ok ({ method with code := some result }, session.pool)) (session.log.record event)

theorem stages_of_optimizeMethod (hcode : method.code = some code)
    {outcome : Except Error (Method × ConstantPool)} {log' : EventLog}
    (h : schedule.optimizeMethod keep method pool log = (outcome, log')) :
    schedule.Stages keep method code pool log outcome log' := by
  rw [optimizeMethod, hcode] at h
  dsimp only at h
  unfold optimizeCode at h
  cases hload : code.load pool with
  | error e =>
    rw [hload] at h
    cases h
    exact .unreadable hload
  | ok listing =>
    rw [hload] at h
    dsimp only at h
    rcases hrun : schedule.run (.start listing pool log method.signature) with ⟨e | count, session⟩
    · rw [hrun] at h
      cases h
      exact .failed hload hrun
    · rw [hrun] at h
      dsimp only at h
      by_cases hkept : session.folds = 0 ∧ keep = true
      · have hyes : (decide (session.folds = 0) && keep) = true := by simp [hkept]
        rw [if_pos hyes] at h
        cases h
        exact .unchanged hload hrun hkept.1 hkept.2 rfl rfl
      · have hno : ¬ (decide (session.folds = 0) && keep) = true := by
          simpa [Bool.and_eq_true] using hkept
        rw [if_neg hno] at h
        cases hfinish : session.finish method with
        | error e =>
          rw [hfinish] at h
          cases h
          exact .unfinished hload hrun hfinish
        | ok result =>
          rw [hfinish] at h
          cases h
          exact .optimized hload hrun hkept hfinish rfl rfl

/-- What is on record after a method is what its run recorded, and the verdict on it. -/
theorem Stages.adds {outcome : Except Error (Method × ConstantPool)} {log' : EventLog}
    (stages : schedule.Stages keep method code pool log outcome log')
    (load : code.load pool = .ok listing) : ∃ count session,
      schedule.run (opening method pool log listing) = (count, session) ∧
      session.log.Adds (fun event => event.kind = .methodUnchanged ∨ event.kind = .methodOptimized)
        log' := by
  cases stages with
  | unreadable load' =>
    rw [load] at load'
    cases load'
  | failed load' run | unfinished load' run =>
    cases load.symm.trans load'
    exact ⟨_, _, run, .refl _⟩
  | unchanged load' run folds kept kind =>
    cases load.symm.trans load'
    exact ⟨_, _, run, .record _ (.inl kind)⟩
  | optimized load' run changed finish kind =>
    cases load.symm.trans load'
    exact ⟨_, _, run, .record _ (.inr kind)⟩

theorem run_evolves (folding : ∀ pass ∈ schedule.passes, pass ∈ foldPasses)
    (load : code.load pool = .ok listing) {outcome : Except Error Nat} {session : Session}
    (run : schedule.run (opening method pool log listing) = (outcome, session)) :
    (opening method pool log listing).Evolves session :=
  iterate_evolves folding (Code.regular_of_load load) run

end Schedule

end BytecodeFold
