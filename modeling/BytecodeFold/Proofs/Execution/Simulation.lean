import BytecodeFold.Proofs.Execution.Machine

/-!
# Machines that run in step

Two machines behave alike if the second does what the first does, except that it may do in one
step what takes the first several that the environment does not notice. Both then pass through the
same states, up to those inside such a stretch.
-/

namespace BytecodeFold

variable {W : Type} {machine old new : Machine W} {start state next final : State W}

/-- The machine goes on to `final`, and up to there the environment notices nothing. -/
inductive Machine.Silently (machine : Machine W) (final : State W) : State W → Prop where
  | last {state : State W} (step : machine.step state = .next final) : Silently machine final state
  | more {state next : State W} (step : machine.step state = .next next)
      (world : next.world = state.world) (calls : next.calls = state.calls)
      (rest : Silently machine final next) : Silently machine final state

namespace Machine

theorem Silently.step_eq (h : machine.Silently final state) :
    ∃ next, machine.step state = .next next := by
  cases h with
  | last step => exact ⟨_, step⟩
  | more step => exact ⟨_, step⟩

theorem Silently.reaches (h : machine.Silently final state) : machine.Reaches state final := by
  induction h with
  | last step => exact .single step
  | more step _ _ _ ih => exact .head step ih

/-- A run that ends has not got stuck. -/
theorem Halts.neverStuck {finish : Finish W} (h : machine.Halts state finish) :
    machine.NeverStuck state := by
  obtain ⟨last, hlast, hhalt⟩ := h
  intro reached hr hstuck
  induction hlast using Relation.ReflTransGen.head_induction_on with
  | refl =>
    rcases Relation.ReflTransGen.cases_head hr with rfl | ⟨next, hnext, -⟩
    · rw [hhalt] at hstuck
      cases hstuck
    · rw [hhalt] at hnext
      cases hnext
  | head hstep _ ih =>
    rcases Relation.ReflTransGen.cases_head hr with rfl | ⟨next, hnext, hrest⟩
    · rw [hstep] at hstuck
      cases hstuck
    · rw [hstep] at hnext
      cases hnext
      exact ih hrest

/-- A run ends in one way at most. -/
theorem Halts.unique {finish finish' : Finish W} (h : machine.Halts state finish)
    (h' : machine.Halts state finish') : finish = finish' := by
  obtain ⟨last, hlast, hhalt⟩ := h
  obtain ⟨last', hlast', hhalt'⟩ := h'
  induction hlast using Relation.ReflTransGen.head_induction_on with
  | refl =>
    rcases Relation.ReflTransGen.cases_head hlast' with rfl | ⟨next, hnext, -⟩
    · rw [hhalt] at hhalt'
      cases hhalt'
      rfl
    · rw [hhalt] at hnext
      cases hnext
  | head hstep _ ih =>
    rcases Relation.ReflTransGen.cases_head hlast' with rfl | ⟨next, hnext, hrest⟩
    · rw [hstep] at hhalt'
      cases hhalt'
    · rw [hstep] at hnext
      cases hnext
      exact ih hrest

/-- At each of these states the second machine does what the first one does, or in one step what
the first one does silently. -/
structure InStep (old new : Machine W) (start : State W) (synced : State W → Prop) : Prop where
  entry : synced start
  step (state : State W) (reached : old.Reaches start state) (sync : synced state) :
    (new.step state = old.step state ∧ ∀ next, old.step state = .next next → synced next) ∨
      ∃ final, new.step state = .next final ∧ synced final ∧ old.Silently final state

variable {synced : State W → Prop}

/-- The first machine passes through every state of the second. -/
theorem InStep.reaches_old (h : InStep old new start synced) (hr : new.Reaches start state) :
    old.Reaches start state ∧ synced state := by
  induction hr with
  | refl => exact ⟨.refl, h.entry⟩
  | @tail mid last _ hstep ih =>
    obtain ⟨hold, hsync⟩ := ih
    rcases h.step mid hold hsync with ⟨heq, hnext⟩ | ⟨final, hnew, hfinal, hsilent⟩
    · rw [heq] at hstep
      exact ⟨hold.tail hstep, hnext last hstep⟩
    · rw [hnew] at hstep
      cases hstep
      exact ⟨hold.trans hsilent.reaches, hfinal⟩

/-- The second machine is in the same state, or about to leave the stretch that the first one is
in the middle of. -/
inductive Meets (old new : Machine W) (start : State W) (synced : State W → Prop)
    (state : State W) : Prop where
  | same (reached : new.Reaches start state) (sync : synced state)
  | inside {entry final : State W} (reached : new.Reaches start entry)
      (step : new.step entry = .next final) (sync : synced final)
      (silent : old.Silently final state) (world : state.world = entry.world)
      (calls : state.calls = entry.calls)

theorem InStep.meets (h : InStep old new start synced) (hr : old.Reaches start state) :
    Meets old new start synced state := by
  induction hr with
  | refl => exact .same .refl h.entry
  | @tail mid last hmid hstep ih =>
    -- what both machines do from the middle of a stretch on
    have hinside : ∀ {entry final : State W}, new.Reaches start entry →
        new.step entry = .next final → synced final → old.Silently final mid →
        mid.world = entry.world → mid.calls = entry.calls → Meets old new start synced last := by
      intro entry final hentry hnew hfinal hsilent hworld hcalls
      cases hsilent with
      | last hlast =>
        rw [hlast] at hstep
        cases hstep
        exact .same (hentry.tail hnew) hfinal
      | more hmore hw hc hrest =>
        rw [hmore] at hstep
        cases hstep
        exact .inside hentry hnew hfinal hrest (hw.trans hworld) (hc.trans hcalls)
    cases ih with
    | inside hentry hnew hfinal hsilent hworld hcalls =>
      exact hinside hentry hnew hfinal hsilent hworld hcalls
    | same hnew hsync =>
      rcases h.step mid hmid hsync with ⟨heq, hnext⟩ | ⟨final, hfinal, hsyncFinal, hsilent⟩
      · exact .same (hnew.tail (heq.trans hstep)) (hnext last hstep)
      · exact hinside hnew hfinal hsyncFinal hsilent rfl rfl

theorem InStep.halts_iff (h : InStep old new start synced) (finish : Finish W) :
    old.Halts start finish ↔ new.Halts start finish := by
  constructor
  · rintro ⟨state, hr, hhalt⟩
    cases h.meets hr with
    | same hnew hsync =>
      rcases h.step state hr hsync with ⟨heq, -⟩ | ⟨final, -, -, hsilent⟩
      · exact ⟨state, hnew, heq.trans hhalt⟩
      · obtain ⟨next, hnext⟩ := hsilent.step_eq
        rw [hnext] at hhalt
        cases hhalt
    | inside _ _ _ hsilent =>
      obtain ⟨next, hnext⟩ := hsilent.step_eq
      rw [hnext] at hhalt
      cases hhalt
  · rintro ⟨state, hr, hhalt⟩
    obtain ⟨hold, hsync⟩ := h.reaches_old hr
    rcases h.step state hold hsync with ⟨heq, -⟩ | ⟨final, hfinal, -⟩
    · exact ⟨state, hold, heq.symm.trans hhalt⟩
    · rw [hfinal] at hhalt
      cases hhalt

theorem InStep.observed_iff (h : InStep old new start synced) (world : W) (calls : List (Call W)) :
    old.Observed start world calls ↔ new.Observed start world calls := by
  constructor
  · rintro ⟨state, hr, rfl, rfl⟩
    cases h.meets hr with
    | same hnew => exact ⟨state, hnew, rfl, rfl⟩
    | inside hentry _ _ _ hworld hcalls => exact ⟨_, hentry, hworld.symm, hcalls.symm⟩
  · rintro ⟨state, hr, rfl, rfl⟩
    exact ⟨state, (h.reaches_old hr).1, rfl, rfl⟩

theorem InStep.neverStuck (h : InStep old new start synced) (never : old.NeverStuck start) :
    new.NeverStuck start := by
  intro state hr hstuck
  obtain ⟨hold, hsync⟩ := h.reaches_old hr
  rcases h.step state hold hsync with ⟨heq, -⟩ | ⟨final, hfinal, -⟩
  · exact never state hold (heq.symm.trans hstuck)
  · rw [hfinal] at hstuck
    cases hstuck

end Machine

theorem sameBehaviour_of_inStep {initial : Locals} {world : W}
    {synced : State W → Prop} (hstart : new.start initial world = old.start initial world)
    (h : Machine.InStep old new (old.start initial world) synced)
    (never : old.NeverStuck (old.start initial world)) :
    SameBehaviour old new initial world where
  halts finish := by
    rw [hstart]
    exact h.halts_iff finish
  observed seen calls := by
    rw [hstart]
    exact h.observed_iff seen calls
  neverStuck := by
    rw [hstart]
    exact h.neverStuck never

end BytecodeFold
