import BytecodeFold.Proofs.Execution.Machine
import BytecodeFold.Proofs.Fold.Resolve

/-!
# Where control goes

Control goes on to the next line, to a target of a branch, to an exception handler, or back to
the line after a subroutine call. So a line that is not a merge point is reached from the line
before it only, and a local that was stored on a straight line of code still holds its value at
the end of the line.
-/

namespace BytecodeFold

variable {W : Type} {machine : Machine W} {state next : State W} {handle : Handle}
  {code : Instruction Handle} {pool : ConstantPool} {stack stack' : List Value}
  {locals locals' : Locals}

/-! ## Effects -/

namespace Locals

theorem store_self (slot : Nat) (value : Value) : locals.store slot value slot = some value :=
  if_pos rfl

/-- Another slot keeps what it holds, unless that is destroyed. -/
theorem store_of_ne (locals : Locals) {slot other : Nat} (value : Value) (h : other ≠ slot) :
    locals.store slot value other = locals other ∨ locals.store slot value other = none := by
  unfold store
  rw [if_neg h]
  split
  · exact .inr rfl
  · split
    · exact .inr rfl
    · exact .inl rfl

theorem mem_of_store {slot other : Nat} {value found : Value}
    (h : locals.store slot value other = some found) :
    found = value ∨ locals other = some found := by
  by_cases he : other = slot
  · subst he
    rw [store_self] at h
    exact .inl (Option.some.inj h).symm
  · rcases store_of_ne locals value he with hs | hs
    · exact .inr (hs.symm.trans h)
    · rw [hs] at h
      cases h

end Locals

namespace Condition

theorem test?_rest {condition : Condition} {taken : Bool} {rest : List Value}
    (h : condition.test? stack = some (taken, rest)) : ∀ value ∈ rest, value ∈ stack := by
  unfold test? at h
  split at h <;> cases h <;> intro value hm <;> simp [hm]

end Condition

namespace Instruction

theorem effect_goto {target : Handle} (h : code.effect pool stack locals = .goto target stack') :
    target ∈ code.targets ∧ ∀ value ∈ stack', value ∈ stack := by
  cases code with
  | jump target' =>
    cases h
    simp [targets]
  | branch condition target' =>
    simp only [effect] at h
    split at h <;> cases h
    case h_1 htest => exact ⟨by simp [targets], Condition.test?_rest htest⟩
  | switch kind default cases =>
    simp only [effect] at h
    split at h <;> cases h
    case h_1 key =>
      refine ⟨?_, by simp +contextual⟩
      cases hl : cases.lookup key with
      | none => simp [targets]
      | some found =>
        obtain ⟨before, after, rfl, -⟩ := List.lookup_eq_some_iff.mp hl
        simp [targets]
  | _ =>
    simp only [effect] at h
    repeat' split at h
    all_goals cases h

theorem effect_call {target : Handle} (h : code.effect pool stack locals = .call target) :
    code = .subroutine target := by
  cases code with
  | subroutine target' =>
    cases h
    rfl
  | _ =>
    simp only [effect] at h
    repeat' split at h
    all_goals cases h

theorem effect_ret {address : Option Handle} (h : code.effect pool stack locals = .ret address) :
    ∃ slot, locals slot = some (.address address) := by
  cases code with
  | other code =>
    simp only [effect] at h
    split at h
    case h_1 slot _ =>
      split at h
      case h_1 hl =>
        cases h
        exact ⟨slot.toNat, hl⟩
      case h_2 => cases h
    case h_2 => cases h
  | _ =>
    simp only [effect] at h
    repeat' split at h
    all_goals cases h

/-- Return addresses on the stack come from the stack. -/
theorem effect_advance_stack {address : Option Handle}
    (h : code.effect pool stack locals = .advance stack' locals') (hm : .address address ∈ stack') :
    .address address ∈ stack := by
  cases code with
  | branch condition target =>
    simp only [effect] at h
    split at h <;> cases h
    case h_2 htest => exact Condition.test?_rest htest _ hm
  | load slot type =>
    simp only [effect] at h
    split at h
    case h_3 hno hl =>
      split at h <;> cases h
      rcases List.mem_cons.mp hm with rfl | hm
      · exact (hno _ rfl).elim
      · exact hm
    all_goals cases h
  | store slot type =>
    simp only [effect] at h
    split at h
    case h_1 =>
      split at h <;> cases h
      exact List.mem_cons_of_mem _ hm
    case h_2 => cases h
  | _ =>
    simp only [effect] at h
    repeat' split at h
    all_goals cases h
    all_goals simpa using hm

/-- Return addresses in the locals come from the locals and the stack. -/
theorem effect_advance_locals {address : Option Handle} {slot : Nat}
    (h : code.effect pool stack locals = .advance stack' locals')
    (hl : locals' slot = some (.address address)) :
    locals slot = some (.address address) ∨ .address address ∈ stack := by
  cases code with
  | store stored type =>
    simp only [effect] at h
    split at h
    case h_1 value rest =>
      split at h <;> cases h
      rcases Locals.mem_of_store hl with rfl | hl
      · exact .inr List.mem_cons_self
      · exact .inl hl
    case h_2 => cases h
  | increment incremented amount =>
    simp only [effect] at h
    split at h <;> cases h
    rcases Locals.mem_of_store hl with he | hl
    · cases he
    · exact .inl hl
  | _ =>
    simp only [effect] at h
    repeat' split at h
    all_goals cases h
    all_goals exact .inl hl

/-- A local that an instruction leaves alone keeps its value or loses it. -/
theorem effect_advance_keeps {slot : UInt16} (keeps : Listing.Keeps slot code)
    (h : code.effect pool stack locals = .advance stack' locals') :
    locals' slot.toNat = locals slot.toNat ∨ locals' slot.toNat = none := by
  cases code with
  | store stored type =>
    have hne : slot.toNat ≠ stored.toNat := by
      intro he
      exact keeps.2 type (by rw [UInt16.toNat_inj.mp he])
    simp only [effect] at h
    split at h
    case h_1 value rest =>
      split at h <;> cases h
      exact Locals.store_of_ne locals value hne
    case h_2 => cases h
  | increment incremented amount =>
    have hne : slot.toNat ≠ incremented.toNat := by
      intro he
      have hw := keeps.1
      rw [UInt16.toNat_inj.mp he] at hw
      simp [Listing.writesAcross] at hw
    simp only [effect] at h
    split at h <;> cases h
    exact Locals.store_of_ne locals _ hne
  | _ =>
    simp only [effect] at h
    repeat' split at h
    all_goals cases h
    all_goals exact .inl rfl

theorem effect_store {slot : UInt16} {type : TypeTag} {value : Value} {rest : List Value}
    (h : (store slot type : Instruction Handle).effect pool (value :: rest) locals =
      .advance stack' locals') : locals' slot.toNat = some value := by
  simp only [effect] at h
  split at h <;> cases h
  exact Locals.store_self _ _

end Instruction

/-! ## Steps -/

/-- The ways from a state to the next one. -/
inductive Machine.Move (machine : Machine W) (handle : Handle) (code : Instruction Handle)
    (state : State W) : State W → Prop where
  | advance {stack : List Value} {locals : Locals}
      (effect : code.effect machine.pool state.stack state.locals = .advance stack locals) :
      Move machine handle code state
        { state with current := machine.listing.next? handle, stack, locals }
  | goto {target : Handle} {stack : List Value}
      (effect : code.effect machine.pool state.stack state.locals = .goto target stack) :
      Move machine handle code state { state with current := some target, stack }
  | call {target : Handle}
      (effect : code.effect machine.pool state.stack state.locals = .call target) :
      Move machine handle code state { state with
        current := some target, stack := .address (machine.listing.next? handle) :: state.stack }
  | ret {address : Option Handle}
      (effect : code.effect machine.pool state.stack state.locals = .ret address) :
      Move machine handle code state { state with current := address }
  | proceed {request : Request} {stack : List Value} {world : W} (calls : List (Call W))
      (effect : code.effect machine.pool state.stack state.locals = .request request)
      (response : machine.environment.respond request state.stack state.world =
        .proceed stack world) :
      Move machine handle code state
        { state with current := machine.listing.next? handle, stack, world, calls }
  | caught {entry : ExceptionHandler} {exception : Reference} {world : W} {calls : List (Call W)}
      (mem : entry ∈ machine.listing.handlers.toList) :
      Move machine handle code state
        { state with current := some entry.handler, stack := [.reference exception], world, calls }

namespace Machine

theorem throw_eq_next {exception : Reference} {world : W} {calls : List (Call W)}
    (h : machine.throw handle { state with world, calls } exception = .next next) :
    machine.Move handle code state next := by
  unfold throw at h
  split at h
  case h_1 target ht =>
    cases h
    obtain ⟨entry, hf, rfl⟩ := Option.map_eq_some_iff.mp ht
    exact .caught (Array.mem_toList_iff.mpr (Array.mem_of_find?_eq_some hf))
  case h_2 => cases h

theorem apply_eq_next
    (h : machine.apply handle state (code.effect machine.pool state.stack state.locals) =
      .next next) :
    machine.Move handle code state next := by
  cases he : code.effect machine.pool state.stack state.locals with
  | advance stack locals =>
    rw [he] at h
    cases h
    exact .advance he
  | goto target stack =>
    rw [he] at h
    cases h
    exact .goto he
  | call target =>
    rw [he] at h
    cases h
    exact .call he
  | ret address =>
    rw [he] at h
    cases h
    exact .ret he
  | request request =>
    rw [he] at h
    simp only [apply, ask] at h
    split at h
    case h_1 stack world hr =>
      cases h
      exact .proceed _ he hr
    case h_2 => exact throw_eq_next h
    all_goals cases h
  | divisionByZero =>
    rw [he] at h
    exact throw_eq_next h
  | stuck =>
    rw [he] at h
    cases h

theorem step_eq_next (h : machine.step state = .next next) :
    ∃ handle code, state.current = some handle ∧ machine.listing.get? handle = some code ∧
      machine.Move handle code state next := by
  unfold step at h
  split at h
  case h_1 handle code hc =>
    obtain ⟨handle', hcurrent, hg⟩ := Option.bind_eq_some_iff.mp hc
    obtain ⟨code', hcode, he⟩ := Option.map_eq_some_iff.mp hg
    cases he
    exact ⟨handle, code, hcurrent, hcode, apply_eq_next h⟩
  case h_2 => cases h

end Machine

/-! ## Return addresses -/

/-- The handle follows a subroutine call. -/
def Listing.ReturnPoint (listing : Listing) (handle : Handle) : Prop :=
  ∃ call target, listing.get? call = some (.subroutine target) ∧ listing.next? call = some handle

theorem Listing.ReturnPoint.mergePoint {listing : Listing} (distinct : listing.Distinct)
    (h : listing.ReturnPoint handle) : listing.MergePoint handle := by
  obtain ⟨call, target, hg, hn⟩ := h
  obtain ⟨before, line, after, cut, rfl, hi⟩ := exists_cut_of_get? hg distinct
  rw [cut.next? distinct] at hn
  obtain ⟨next, hhead, rfl⟩ := Option.map_eq_some_iff.mp hn
  obtain ⟨rest, rfl⟩ := List.head?_eq_some_iff.mp hhead
  exact .afterCall cut hi

/-- Every return address of a state is that of a call. -/
structure State.Genuine (listing : Listing) (state : State W) : Prop where
  stack (handle : Handle) : .address (some handle) ∈ state.stack → listing.ReturnPoint handle
  locals (slot : Nat) (handle : Handle) :
    state.locals slot = some (.address (some handle)) → listing.ReturnPoint handle

/-- No return address comes from outside but those that the calls of the listing leave: the first
locals hold no other, and the environment hands back no other than it was given. -/
structure Machine.Genuine (machine : Machine W) (initial : Locals) : Prop where
  locals (slot : Nat) (handle : Handle) :
    initial slot = some (.address (some handle)) → machine.listing.ReturnPoint handle
  environment (request : Request) (stack stack' : List Value) (world world' : W)
    (handle : Handle) : machine.environment.respond request stack world = .proceed stack' world' →
      .address (some handle) ∈ stack' →
        .address (some handle) ∈ stack ∨ machine.listing.ReturnPoint handle

namespace Machine

variable {initial : Locals}

theorem Genuine.start (genuine : machine.Genuine initial) (world : W) :
    (machine.start initial world).Genuine machine.listing where
  stack handle hm := by
    cases hm
  locals := genuine.locals

theorem Move.genuine (outside : machine.Genuine initial)
    (h : machine.Move handle code state next)
    (hcode : machine.listing.get? handle = some code) (genuine : state.Genuine machine.listing) :
    next.Genuine machine.listing := by
  cases h with
  | advance effect =>
    refine ⟨fun a hm => ?_, fun slot a hl => ?_⟩
    · exact genuine.stack a (Instruction.effect_advance_stack effect hm)
    · rcases Instruction.effect_advance_locals effect hl with hl | hm
      · exact genuine.locals slot a hl
      · exact genuine.stack a hm
  | goto effect =>
    exact ⟨fun a hm => genuine.stack a ((Instruction.effect_goto effect).2 _ hm), genuine.locals⟩
  | call effect =>
    refine ⟨fun a hm => ?_, genuine.locals⟩
    rcases List.mem_cons.mp hm with he | hm
    · rw [Instruction.effect_call effect] at hcode
      exact ⟨handle, _, hcode, (Value.address.inj he).symm⟩
    · exact genuine.stack a hm
  | ret => exact ⟨genuine.stack, genuine.locals⟩
  | proceed calls effect response =>
    refine ⟨fun a hm => ?_, genuine.locals⟩
    exact (outside.environment _ _ _ _ _ a response hm).elim (genuine.stack a) id
  | caught mem =>
    refine ⟨fun a hm => ?_, genuine.locals⟩
    cases List.mem_singleton.mp hm

theorem Genuine.reaches (genuine : machine.Genuine initial) {world : W}
    (h : machine.Reaches (machine.start initial world) state) :
    state.Genuine machine.listing := by
  induction h with
  | refl => exact genuine.start world
  | tail _ hstep ih =>
    obtain ⟨handle, code, -, hcode, hmove⟩ := step_eq_next hstep
    exact hmove.genuine genuine hcode ih

end Machine

/-! ## Straight lines of code -/

/-- Control goes on to the next line, with or without a word from the environment. -/
inductive Machine.Falls (machine : Machine W) (code : Instruction Handle) (state next : State W) :
    Prop where
  | advance
      (effect : code.effect machine.pool state.stack state.locals = .advance next.stack next.locals)
  | proceed {request : Request}
      (effect : code.effect machine.pool state.stack state.locals = .request request)
      (locals : next.locals = state.locals)

/-- A line that is not a merge point is reached from the line before it. -/
theorem Machine.Move.falls {target : Handle} (hmove : machine.Move handle code state next)
    (distinct : machine.listing.Distinct) (hcode : machine.listing.get? handle = some code)
    (genuine : state.Genuine machine.listing) (hn : next.current = some target)
    (hno : ¬ machine.listing.MergePoint target) :
    machine.listing.next? handle = some target ∧ machine.Falls code state next := by
  obtain ⟨before, line, after, cut, rfl, rfl⟩ := Listing.exists_cut_of_get? hcode distinct
  cases hmove with
  | advance effect => exact ⟨hn, .advance effect⟩
  | proceed calls effect => exact ⟨hn, .proceed effect rfl⟩
  | goto effect =>
    cases hn
    exact absurd (.target cut.mem (Instruction.effect_goto effect).1) hno
  | call effect =>
    cases hn
    refine absurd (.target cut.mem ?_) hno
    simp [Instruction.effect_call effect, Instruction.targets]
  | ret effect =>
    cases hn
    obtain ⟨slot, hl⟩ := Instruction.effect_ret effect
    exact absurd ((genuine.locals slot target hl).mergePoint distinct) hno
  | caught mem =>
    cases hn
    exact absurd (.handler mem) hno

theorem Listing.literal?_effect {value : Number × TypeTag} (stack : List Value) (locals : Locals)
    (h : Listing.literal? pool code = .ok (some value)) :
    code.effect pool stack locals = .advance (.number value.1 :: stack) locals ∨
      code.effect pool stack locals = .stuck := by
  cases code with
  | push number type =>
    cases h
    exact .inl rfl
  | loadConstant index wide =>
    obtain ⟨number, hn, he⟩ := Outcome.bind_eq_ok.mp h
    cases he
    obtain ⟨entry, hentry, hnumber⟩ := Outcome.bind_eq_ok.mp hn
    unfold ConstantPool.entry at hentry
    split at hentry <;> cases hentry
    case h_1 hg =>
      split at hnumber <;> cases hnumber
      case h_1 hnumber =>
        simp only [Instruction.effect, hg, hnumber]
        split
        · exact .inl rfl
        · exact .inr rfl
  | _ => cases h

namespace Listing.Definition

variable {listing : Listing} {slot : UInt16} {load : Line}

/-- The lines that are reached from the line before them only. -/
def inner (definition : listing.Definition slot load) : List Line :=
  definition.store :: (definition.between ++ [load])

/-- The value is on the stack at the store and in the local after it. -/
structure Holds (definition : listing.Definition slot load) (value : Number) (state : State W) :
    Prop where
  stored : state.current = some definition.store.handle →
    ∃ rest, state.stack = .number value :: rest
  kept (line : Line) : line ∈ definition.between ++ [load] → state.current = some line.handle →
    state.locals slot.toNat = some (.number value) ∨ state.locals slot.toNat = none

theorem head?_ne (definition : listing.Definition slot load) (distinct : listing.Distinct)
    {line : Line} (hm : line ∈ definition.inner) : listing.head? ≠ some line.handle := by
  intro hhead
  obtain ⟨before, after, hinner⟩ := List.append_of_mem hm
  have cut : listing.Cut (definition.before ++ definition.source :: before) line
      (after ++ definition.after) := by
    rw [Cut, definition.lines_eq]
    have hsplit := congrArg (· ++ definition.after) hinner
    simp only [inner, List.cons_append, List.append_assoc, List.nil_append] at hsplit
    simp [hsplit]
  obtain ⟨first, hfirst, he⟩ := Option.map_eq_some_iff.mp hhead
  rw [← Array.getElem?_toList, show listing.lines.toList = _ from cut] at hfirst
  refine (cut.handle_ne distinct).1 first ?_ he
  cases hb : definition.before with
  | nil => simp_all
  | cons head rest => simp_all

theorem holds_start (definition : machine.listing.Definition slot load) (value : Number)
    (distinct : machine.listing.Distinct) (initial : Locals) (world : W) :
    definition.Holds value (machine.start initial world) where
  stored hcurrent := absurd hcurrent (definition.head?_ne distinct List.mem_cons_self)
  kept _ hline hcurrent :=
    absurd hcurrent (definition.head?_ne distinct (List.mem_cons_of_mem _ hline))

/-- Control comes to the store from the literal before it. -/
theorem eq_source_of_next? (definition : listing.Definition slot load) (distinct : listing.Distinct)
    (h : listing.next? handle = some definition.store.handle) :
    handle = definition.source.handle ∧
      listing.get? handle = some definition.source.instruction := by
  have cut : listing.Cut definition.before definition.source
      (definition.store :: (definition.between ++ load :: definition.after)) :=
    definition.lines_eq
  have he := cut.eq_of_next? distinct h
  exact ⟨he, he ▸ cut.get? distinct⟩

/-- Control comes to a line after the store from the store or from such a line. -/
theorem mem_inner_of_next? (definition : listing.Definition slot load) (distinct : listing.Distinct)
    {line : Line} (hm : line ∈ definition.between ++ [load])
    (h : listing.next? handle = some line.handle) :
    ∃ prev, (prev = definition.store ∨ prev ∈ definition.between) ∧ handle = prev.handle ∧
      listing.get? handle = some prev.instruction := by
  obtain ⟨before, after, hsplit⟩ := List.append_of_mem hm
  rcases List.eq_nil_or_concat before with rfl | ⟨init, prev, rfl⟩
  · have cut : listing.Cut (definition.before ++ [definition.source]) definition.store
        (line :: (after ++ definition.after)) := by
      rw [Cut, definition.lines_eq]
      have hs := congrArg (· ++ definition.after) hsplit
      simp only [List.append_assoc, List.cons_append, List.nil_append] at hs
      simp [hs]
    have he := cut.eq_of_next? distinct h
    exact ⟨definition.store, .inl rfl, he, he ▸ cut.get? distinct⟩
  · have cut : listing.Cut (definition.before ++ definition.source :: definition.store :: init) prev
        (line :: (after ++ definition.after)) := by
      rw [Cut, definition.lines_eq]
      have hs := congrArg (· ++ definition.after) hsplit
      simp only [List.concat_eq_append, List.append_assoc, List.cons_append, List.nil_append] at hs
      simp [hs]
    have he := cut.eq_of_next? distinct h
    refine ⟨prev, .inr ?_, he, he ▸ cut.get? distinct⟩
    -- the last line of the split is a line of the definition, so the one before it is between
    rcases List.eq_nil_or_concat after with rfl | ⟨rest, final, rfl⟩
    · have hs : definition.between ++ [load] = init.concat prev ++ [line] := hsplit
      rw [(List.append_inj' hs rfl).1]
      simp
    · have hs : definition.between ++ [load] = (init.concat prev ++ line :: rest) ++ [final] := by
        rw [hsplit]
        simp
      rw [(List.append_inj' hs rfl).1]
      simp

/-- One step keeps the value where it is. -/
theorem holds_step (definition : machine.listing.Definition slot load) {value : Number × TypeTag}
    (distinct : machine.listing.Distinct)
    (literal : Listing.literal? machine.pool definition.source.instruction = .ok (some value))
    (hmove : machine.Move handle code state next) (hcurrent : state.current = some handle)
    (hcode : machine.listing.get? handle = some code) (genuine : state.Genuine machine.listing)
    (holds : definition.Holds value.1 state) : definition.Holds value.1 next := by
  constructor
  · intro hn
    obtain ⟨hnext, hfalls⟩ :=
      hmove.falls distinct hcode genuine hn (definition.straight _ List.mem_cons_self)
    have hget := (definition.eq_source_of_next? distinct hnext).2
    cases hcode.symm.trans hget
    rcases Listing.literal?_effect state.stack state.locals literal with hl | hl
    · cases hfalls with
      | advance effect =>
        have he := effect.symm.trans hl
        simp only [Effect.advance.injEq] at he
        exact ⟨_, he.1⟩
      | proceed effect => cases effect.symm.trans hl
    · cases hfalls with
      | advance effect => cases effect.symm.trans hl
      | proceed effect => cases effect.symm.trans hl
  · intro line hline hn
    obtain ⟨hnext, hfalls⟩ :=
      hmove.falls distinct hcode genuine hn (definition.straight _ (List.mem_cons_of_mem _ hline))
    obtain ⟨prev, hprev, rfl, hget⟩ := definition.mem_inner_of_next? distinct hline hnext
    cases hcode.symm.trans hget
    rcases hprev with rfl | hprev
    · obtain ⟨rest, hstack⟩ := holds.stored hcurrent
      cases hfalls with
      | advance effect =>
        rw [definition.store_eq, hstack] at effect
        exact .inl (Instruction.effect_store effect)
      | proceed effect =>
        rw [definition.store_eq, hstack] at effect
        simp only [Instruction.effect] at effect
        split at effect <;> cases effect
    · have hkept := holds.kept prev (List.mem_append_left _ hprev) hcurrent
      cases hfalls with
      | advance effect =>
        rcases Instruction.effect_advance_keeps (definition.keeps prev hprev) effect with he | he
        · rw [he]
          exact hkept
        · exact .inr he
      | proceed _ locals =>
        rw [locals]
        exact hkept

theorem holds_of_reaches (definition : machine.listing.Definition slot load)
    {value : Number × TypeTag} (distinct : machine.listing.Distinct)
    (literal : Listing.literal? machine.pool definition.source.instruction = .ok (some value))
    {initial : Locals} {world : W} (genuine : machine.Genuine initial)
    (h : machine.Reaches (machine.start initial world) state) : definition.Holds value.1 state := by
  induction h with
  | refl => exact definition.holds_start value.1 distinct initial world
  | tail hr hstep ih =>
    obtain ⟨handle, code, hcurrent, hcode, hmove⟩ := Machine.step_eq_next hstep
    exact definition.holds_step distinct literal hmove hcurrent hcode (genuine.reaches hr) ih

end Listing.Definition

end BytecodeFold
