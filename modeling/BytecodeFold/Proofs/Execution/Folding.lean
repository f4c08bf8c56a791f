import BytecodeFold.Proofs.Codec.Typing
import BytecodeFold.Proofs.Execution.Replacement
import BytecodeFold.Proofs.Fold.Shape
import BytecodeFold.Proofs.Number.Typing

/-!
# Folds do what the code did

The operands of a match put the values on the stack that the fold worked out for them, the
operator or the branch then does what the fold computed, and no step of this is seen by the
environment. The load or push that takes the place of the match leaves the same stack behind.
-/

namespace BytecodeFold

variable {W : Type} {machine : Machine W} {initial : Locals} {world : W}
  {state next : State W} {before after : List Line} {line : Line}

/-! ## Runs that do not get stuck -/

namespace Machine

/-- The state is passed through by a run that never gets stuck and is given no foreign return
addresses. -/
structure Passes (machine : Machine W) (initial : Locals) (world : W)
    (state : State W) : Prop where
  genuine : machine.Genuine initial
  reached : machine.Reaches (machine.start initial world) state
  never : machine.NeverStuck (machine.start initial world)

/-- A step that the environment does not notice. -/
structure Quiet (machine : Machine W) (state next : State W) : Prop where
  step : machine.step state = .next next
  world : next.world = state.world
  calls : next.calls = state.calls

def Quietly (machine : Machine W) : State W → State W → Prop := Relation.ReflTransGen machine.Quiet

theorem Passes.quietly (h : machine.Passes initial world state) (hq : machine.Quietly state next) :
    machine.Passes initial world next := by
  induction hq with
  | refl => exact h
  | tail _ hstep ih => exact ⟨ih.genuine, ih.reached.tail hstep.step, ih.never⟩

theorem Quietly.silently {final : State W} (hq : machine.Quietly state next)
    (hlast : machine.step next = .next final) : machine.Silently final state := by
  induction hq using Relation.ReflTransGen.head_induction_on with
  | refl => exact .last hlast
  | head hstep _ ih => exact .more hstep.step hstep.world hstep.calls ih

theorem step_of_cut (cut : machine.listing.Cut before line after)
    (distinct : machine.listing.Distinct) (h : state.current = some line.handle) :
    machine.step state = machine.apply line.handle state
      (line.instruction.effect machine.pool state.stack state.locals) := by
  simp [step, h, cut.get? distinct]

theorem Passes.effect_ne_stuck (h : machine.Passes initial world state)
    (cut : machine.listing.Cut before line after) (distinct : machine.listing.Distinct)
    (hc : state.current = some line.handle) :
    line.instruction.effect machine.pool state.stack state.locals ≠ .stuck := by
  intro he
  refine h.never state h.reached ?_
  rw [step_of_cut cut distinct hc, he]
  rfl

/-- An instruction that goes on to the next line does so quietly. -/
theorem quiet_of_advance {following : Line} {stack : List Value} {locals : Locals}
    (cut : machine.listing.Cut before line (following :: after))
    (distinct : machine.listing.Distinct) (h : state.current = some line.handle)
    (he : line.instruction.effect machine.pool state.stack state.locals = .advance stack locals) :
    machine.Quiet state { state with current := some following.handle, stack, locals } where
  step := by
    rw [step_of_cut cut distinct h, he]
    simp [apply, cut.next? distinct]
  world := rfl
  calls := rfl

theorem quiet_of_goto {target : Handle} {stack : List Value}
    (cut : machine.listing.Cut before line after) (distinct : machine.listing.Distinct)
    (h : state.current = some line.handle)
    (he : line.instruction.effect machine.pool state.stack state.locals = .goto target stack) :
    machine.Quiet state { state with current := some target, stack } where
  step := by
    rw [step_of_cut cut distinct h, he]
    rfl
  world := rfl
  calls := rfl

end Machine

/-! ## Operands -/

theorem Listing.literal?_typed {pool : ConstantPool} {code : Instruction Handle}
    {value : Number × TypeTag} (typed : code.WellTyped)
    (h : Listing.literal? pool code = .ok (some value)) :
    value.1.naturalType = value.2.promote := by
  cases code with
  | push =>
    cases h
    exact typed
  | loadConstant =>
    obtain ⟨number, -, he⟩ := Outcome.bind_eq_ok.mp h
    cases he
    exact number.promote_naturalType.symm
  | _ => cases h

namespace Machine.Passes

/-- An operand puts its value on the stack. -/
theorem operand_effect (h : machine.Passes initial world state)
    (cut : machine.listing.Cut before line after) (distinct : machine.listing.Distinct)
    (typed : machine.listing.WellTyped) (hc : state.current = some line.handle)
    {value : Number × TypeTag}
    (hv : machine.listing.operandValue machine.pool line.handle = .ok value) :
    line.instruction.effect machine.pool state.stack state.locals =
        .advance (.number value.1 :: state.stack) state.locals ∧
      value.1.naturalType = value.2.promote := by
  have hne := h.effect_ne_stuck cut distinct hc
  cases Listing.operandValue_eq_ok cut distinct hv with
  | literal hl =>
    refine ⟨?_, Listing.literal?_typed (typed line cut.mem) hl⟩
    rcases Listing.literal?_effect state.stack state.locals hl with he | he
    · exact he
    · exact absurd he hne
  | load slot type code definition hl =>
    have hsource : definition.source ∈ machine.listing.lines.toList := by
      rw [definition.lines_eq]
      simp
    refine ⟨?_, Listing.literal?_typed (typed definition.source hsource) hl⟩
    rw [code] at hne ⊢
    rcases (definition.holds_of_reaches distinct hl h.genuine h.reached).kept line (by simp) hc
      with hs | hs
    · simp only [Instruction.effect, hs] at hne ⊢
      split at hne
      · rw [if_pos (by assumption)]
      · exact absurd rfl hne
    · simp only [Instruction.effect, hs] at hne
      exact absurd rfl hne

theorem operand_quiet (h : machine.Passes initial world state) {following : Line}
    (cut : machine.listing.Cut before line (following :: after))
    (distinct : machine.listing.Distinct)
    (typed : machine.listing.WellTyped) (hc : state.current = some line.handle)
    {value : Number × TypeTag}
    (hv : machine.listing.operandValue machine.pool line.handle = .ok value) :
    machine.Quiet state { state with
      current := some following.handle, stack := .number value.1 :: state.stack } :=
  quiet_of_advance cut distinct hc (h.operand_effect cut distinct typed hc hv).1

/-- An operand and the conversion after it, if there is one, leave the converted value. -/
theorem operand_quietly (h : machine.Passes initial world state) {conversion : Option Line}
    {following : Line}
    (cut : machine.listing.Cut before line (conversion.toList ++ following :: after))
    (distinct : machine.listing.Distinct) (typed : machine.listing.WellTyped)
    (kind : ∀ line ∈ conversion, line.instruction.isConversion = true)
    (hc : state.current = some line.handle) {value : Number × TypeTag}
    (hv : machine.listing.operandValue machine.pool line.handle = .ok value) :
    machine.Quietly state { state with
        current := some following.handle,
        stack := .number (converted conversion value).1 :: state.stack } ∧
      (converted conversion value).1.naturalType = (converted conversion value).2.promote := by
  obtain ⟨heffect, htype⟩ := h.operand_effect cut distinct typed hc hv
  cases conversion with
  | none => exact ⟨.single (quiet_of_advance cut distinct hc heffect), htype⟩
  | some conversion =>
    obtain ⟨source, target, hcode⟩ :
        ∃ source target, conversion.instruction = .convert source target := by
      have hk := kind conversion rfl
      cases hi : conversion.instruction <;> simp [hi, Instruction.isConversion] at hk
      exact ⟨_, _, rfl⟩
    have hq := quiet_of_advance cut distinct hc heffect
    have cut' : machine.listing.Cut (before ++ [line]) conversion (following :: after) := by
      rw [Listing.Cut, show machine.listing.lines.toList = _ from cut]
      simp
    have hconverted : converted (some conversion) value = (value.1.convert target, target) := by
      simp [converted, hcode]
    have htarget : target ≠ .reference := by
      have ht := typed conversion cut'.mem
      rwa [hcode] at ht
    rw [hconverted]
    refine ⟨.tail (.single hq) (quiet_of_advance cut' distinct rfl ?_),
      value.1.naturalType_convert htarget⟩
    have hne := (h.quietly (.single hq)).effect_ne_stuck cut' distinct rfl
    rw [hcode] at hne ⊢
    simp only [Instruction.effect] at hne ⊢
    split at hne
    · rw [if_pos (by assumption)]
    · exact absurd rfl hne

/-- A comparison of two numbers leaves its result. -/
theorem compare_quiet (h : machine.Passes initial world state) {following : Line}
    (cut : machine.listing.Cut before line (following :: after))
    (distinct : machine.listing.Distinct)
    (hc : state.current = some line.handle) {kind : CompareKind}
    (hk : line.instruction = .compare kind) {left right : Number} {rest : List Value}
    (hs : state.stack = .number right :: .number left :: rest) :
    machine.Quiet state { state with
      current := some following.handle
      stack := .number (.int (Int32.ofInt (Number.compareThreeWay kind left right))) :: rest } := by
  refine quiet_of_advance cut distinct hc ?_
  have hne := h.effect_ne_stuck cut distinct hc
  rw [hk, hs] at hne ⊢
  simp only [Instruction.effect] at hne ⊢
  split at hne
  · rw [if_pos (by assumption)]
  · exact absurd rfl hne

end Machine.Passes

namespace Listing.Replaced

variable {listing result : Listing} {segment : List Line} {first : Line} {code : Instruction Handle}
  {pool : ConstantPool} {environment : Environment W}

/-- The new line goes on to what stands after the segment. -/
theorem step_first (replaced : listing.Replaced before first segment after code result)
    {stack : List Value} {locals : Locals} (hc : state.current = some first.handle)
    (he : code.effect pool state.stack state.locals = .advance stack locals) :
    Machine.step ⟨result, pool, environment⟩ state =
      .next { state with current := after.head?.map (·.handle), stack, locals } := by
  have cut :
      (Machine.mk result pool environment).listing.Cut before ⟨first.handle, code, false⟩ after :=
    replaced.result_cut
  have hstep := Machine.step_of_cut cut replaced.result_distinct hc
  dsimp only at hstep
  rw [hstep, he, Machine.apply]
  dsimp only
  rw [replaced.result_cut.next? replaced.result_distinct]

theorem outside_after (replaced : listing.Replaced before first segment after code result)
    (hc : state.current = after.head?.map (·.handle)) : Outside segment state := by
  intro handle hh
  rw [hc] at hh
  obtain ⟨line, hline, rfl⟩ := Option.map_eq_some_iff.mp hh
  obtain ⟨rest, rfl⟩ := List.head?_eq_some_iff.mp hline
  exact replaced.handle_not_mem (by simp)

end Listing.Replaced

/-! ## Arithmetic -/

variable {listing result : Listing} {pool grown : ConstantPool} {environment : Environment W}
  {tail : List Line}

/-- The type in which the operands of an operator meet is that of the operator. -/
theorem ArithmeticOp.join_eq {op : ArithmeticOp} {left right : Number}
    {type leftType rightType : TypeTag} (hl : left.naturalType = leftType.promote)
    (hr : right.naturalType = rightType.promote) (hleft : left.naturalType = type.promote)
    (hright : right.naturalType = op.rightType type) : leftType.join rightType = type.promote := by
  rw [← hleft]
  unfold ArithmeticOp.rightType at hright
  split at hright
  · exact left.join_int hl.symm (hr.symm.trans hright)
  · exact left.join_self hl.symm (hr.symm.trans (hright.trans hleft.symm))

/-- An operator on two numbers that does not get stuck computes what `evaluate` does in the type
in which they meet. -/
theorem Instruction.arithmetic_effect {op : ArithmeticOp} {type leftType rightType : TypeTag}
    {left right value : Number} {stack : List Value} {locals : Locals}
    (hl : left.naturalType = leftType.promote) (hr : right.naturalType = rightType.promote)
    (hv : Number.evaluate op left right (leftType.join rightType) = .ok (some value))
    (hne :
      (arithmetic op type).effect pool (.number right :: .number left :: stack) locals ≠ .stuck) :
    (arithmetic op type).effect pool (.number right :: .number left :: stack) locals =
        .advance (.number value :: stack) locals ∧
      value.naturalType.isWide = (leftType.join rightType).isWide := by
  simp only [effect] at hne ⊢
  split at hne
  case isTrue h =>
    have hjoin := op.join_eq hl hr h.1 h.2
    have hnatural : value.naturalType = type.promote := by
      rw [← type.promote_promote, ← hjoin]
      refine Number.naturalType_evaluate ?_ hv
      rw [hjoin, ← h.1]
      cases left <;> simp [Number.naturalType]
    rw [hjoin, Number.evaluate_promote] at hv
    rw [if_pos h, hv, hnatural, hjoin]
    exact ⟨rfl, rfl⟩
  case isFalse => exact absurd rfl hne

namespace ArithmeticFolded

/-- The lines of the match compute the value that the fold put in the pool. -/
theorem silently {lines : ArithmeticLines} {found : ArithmeticMatch}
    (folded : ArithmeticFolded machine.listing machine.pool before lines tail result grown)
    (named : lines.Named found) (typed : machine.listing.WellTyped)
    (h : machine.Passes initial world state) (hc : state.current = some lines.left.handle) :
    machine.Silently
        { state with
          current := tail.head?.map (·.handle),
          stack := .number folded.value :: state.stack } state ∧
      folded.value.naturalType.isWide = ((converted lines.leftConversion folded.left).2.join
        (converted lines.rightConversion folded.right).2).isWide := by
  have distinct := folded.replaced.distinct
  have cutLeft :
      machine.listing.Cut before lines.left (lines.leftConversion.toList ++ lines.right ::
      (lines.rightConversion.toList ++ lines.operator :: tail)) := by
    rw [Listing.Cut, show machine.listing.lines.toList = _ from folded.replaced.cut]
    simp [ArithmeticLines.segment]
  have cutRight :
      machine.listing.Cut (before ++ lines.left :: lines.leftConversion.toList) lines.right
      (lines.rightConversion.toList ++ lines.operator :: tail) := by
    rw [Listing.Cut, show machine.listing.lines.toList = _ from cutLeft]
    simp
  have cutOperator : machine.listing.Cut (before ++ lines.left :: (lines.leftConversion.toList ++
      lines.right :: lines.rightConversion.toList)) lines.operator tail := by
    rw [Listing.Cut, show machine.listing.lines.toList = _ from cutLeft]
    simp
  obtain ⟨hleft, hleftType⟩ :=
    h.operand_quietly cutLeft distinct typed named.left_conversion hc folded.left_eq
  obtain ⟨hright, hrightType⟩ := (h.quietly hleft).operand_quietly cutRight distinct typed
    named.right_conversion rfl folded.right_eq
  have hne := ((h.quietly hleft).quietly hright).effect_ne_stuck cutOperator distinct rfl
  rw [folded.operator_eq] at hne
  obtain ⟨heffect, hwide⟩ :=
    Instruction.arithmetic_effect hleftType hrightType folded.value_eq hne
  refine ⟨Machine.Quietly.silently (hleft.trans hright) ?_, hwide⟩
  rw [Machine.step_of_cut cutOperator distinct rfl, folded.operator_eq]
  dsimp only
  rw [heffect]
  simp only [Machine.apply, cutOperator.next? distinct]

theorem sameBehaviour {lines : ArithmeticLines} {found : ArithmeticMatch}
    (folded : ArithmeticFolded listing pool before lines tail result grown)
    (named : lines.Named found) (typed : listing.WellTyped) (built : pool.Built)
    (genuine : Machine.Genuine ⟨listing, pool, environment⟩ initial)
    (never : Machine.NeverStuck ⟨listing, pool, environment⟩
      (Machine.start ⟨listing, pool, environment⟩ initial world)) :
    SameBehaviour ⟨listing, pool, environment⟩ ⟨result, grown, environment⟩ initial world := by
  obtain ⟨hextends, hget⟩ := ConstantPool.addNumber_spec built folded.added
  have hcalls : ∀ line ∈ lines.left :: lines.segment, ∀ target,
      line.instruction ≠ .subroutine target := by
    intro line hm target hcode
    have hkinds : line.instruction.isOperand = true ∨ line.instruction.isConversion = true ∨
        line.instruction.isArithmetic = true := by
      simp only [ArithmeticLines.segment, List.mem_cons, List.mem_append, Option.mem_toList,
        List.not_mem_nil, or_false] at hm
      rcases hm with rfl | hm | rfl | hm | rfl
      · exact .inl named.left_operand
      · exact .inr (.inl (named.left_conversion line hm))
      · exact .inl named.right_operand
      · exact .inr (.inl (named.right_conversion line hm))
      · exact .inr (.inr named.operator_arithmetic)
    rw [hcode] at hkinds
    simp [Instruction.isOperand, Instruction.isConversion, Instruction.isArithmetic] at hkinds
  refine folded.replaced.sameBehaviour hextends hcalls genuine never ?_
  intro state hreach hc
  obtain ⟨hsilent, hwide⟩ := folded.silently named typed ⟨genuine, hreach, never⟩ hc
  refine ⟨_, folded.replaced.step_first hc ?_, folded.replaced.outside_after rfl, hsilent⟩
  simp only [Instruction.effect, hget, Entry.number?_ofNumber, if_pos hwide]

end ArithmeticFolded

/-! ## Comparisons -/

theorem Instruction.isIntPush_eq {code : Instruction Handle} (h : code.isIntPush = true) :
    ∃ value, code = .push value .int := by
  unfold isIntPush at h
  split at h
  · exact ⟨_, rfl⟩
  · cases h

/-- A branch on two numbers that does not get stuck compares them as `int`s. -/
theorem Condition.test?_intCompare {relation : Relation} {left right : Number} {stack : List Value}
    (h : (intCompare relation).test? (.number right :: .number left :: stack) ≠ none) :
    (intCompare relation).test? (.number right :: .number left :: stack) =
      some (relation.holds (compare left.toInt.toInt right.toInt.toInt), stack) := by
  cases right with
  | int r =>
    cases left with
    | int l => rfl
    | _ => exact absurd rfl h
  | _ => exact absurd rfl h

theorem ComparisonTaken.direct_eq {left right : Number} {condition : Condition} {taken : Bool}
    (h : ComparisonTaken left right none condition taken) :
    ∃ relation, condition = .intCompare relation ∧
      taken = relation.holds (compare left.toInt.toInt right.toInt.toInt) := by
  cases h with
  | direct relation => exact ⟨relation, rfl, rfl⟩

theorem ComparisonTaken.threeWay_eq {left right : Number} {condition : Condition} {taken : Bool}
    (h : ComparisonTaken left right (some line) condition taken) :
    ∃ kind relation, line.instruction = .compare kind ∧ condition = .zero relation ∧
      taken = relation.holds (compare (Number.compareThreeWay kind left right) 0) := by
  cases h with
  | threeWay line kind relation hk => exact ⟨kind, relation, hk, rfl, rfl⟩

namespace ComparisonFolded

variable {lines : ComparisonLines} {found : ComparisonMatch} {following : Line}

/-- Control comes to the branch with operands on which it goes the way the fold worked out. -/
theorem quietly_branch
    (folded :
      ComparisonFolded machine.listing machine.pool before lines (following :: tail) result grown)
    (typed : machine.listing.WellTyped)
    (h : machine.Passes initial world state)
    (hc : state.current = some lines.left.handle) :
    ∃ stack, machine.Quietly state
        { state with current := some lines.branch.handle, stack } ∧
      folded.condition.test? stack = some (folded.taken, state.stack) := by
  have distinct := folded.replaced.distinct
  have cutLeft : machine.listing.Cut before lines.left (lines.segment ++ following :: tail) :=
    folded.replaced.cut
  rw [ComparisonLines.segment] at cutLeft
  have hleft := h.operand_quiet cutLeft distinct typed hc folded.left_eq
  have hpasses := h.quietly (.single hleft)
  have htaken := folded.taken_eq
  cases hcomparison : lines.comparison with
  | none =>
    rw [hcomparison] at htaken cutLeft
    obtain ⟨relation, hcondition, htaken⟩ := htaken.direct_eq
    have cutRight : machine.listing.Cut (before ++ [lines.left]) lines.right (lines.branch ::
        lines.fallthroughPush :: lines.jump :: lines.targetPush :: following :: tail) := by
      rw [Listing.Cut, show machine.listing.lines.toList = _ from cutLeft]
      simp
    have hright := hpasses.operand_quiet cutRight distinct typed rfl folded.right_eq
    refine ⟨_, .tail (.single hleft) hright, ?_⟩
    have cutBranch : machine.listing.Cut (before ++ [lines.left, lines.right]) lines.branch
        (lines.fallthroughPush :: lines.jump :: lines.targetPush :: following :: tail) := by
      rw [Listing.Cut, show machine.listing.lines.toList = _ from cutLeft]
      simp
    have hne := (hpasses.quietly (.single hright)).effect_ne_stuck cutBranch distinct rfl
    rw [folded.branch_eq, hcondition] at hne
    rw [hcondition, htaken]
    refine Condition.test?_intCompare fun hnone => hne ?_
    simp only [Instruction.effect, hnone]
  | some comparison =>
    rw [hcomparison] at htaken cutLeft
    obtain ⟨kind, relation, hkind, hcondition, htaken⟩ := htaken.threeWay_eq
    have cutRight :
        machine.listing.Cut (before ++ [lines.left]) lines.right (comparison :: lines.branch ::
        lines.fallthroughPush :: lines.jump :: lines.targetPush :: following :: tail) := by
      rw [Listing.Cut, show machine.listing.lines.toList = _ from cutLeft]
      simp
    have hright := hpasses.operand_quiet cutRight distinct typed rfl folded.right_eq
    have cutComparison :
        machine.listing.Cut (before ++ [lines.left, lines.right]) comparison (lines.branch ::
        lines.fallthroughPush :: lines.jump :: lines.targetPush :: following :: tail) := by
      rw [Listing.Cut, show machine.listing.lines.toList = _ from cutLeft]
      simp
    have hcompare :=
      (hpasses.quietly (.single hright)).compare_quiet cutComparison distinct rfl hkind rfl
    refine ⟨_, .tail (.tail (.single hleft) hright) hcompare, ?_⟩
    rw [hcondition, htaken]
    simp only [Condition.test?, Number.toInt_compareThreeWay]

/-- The lines of the match leave the literal that the fold selected. -/
theorem silently
    (folded :
      ComparisonFolded machine.listing machine.pool before lines (following :: tail) result grown)
    (named : lines.Named following.handle found) (typed : machine.listing.WellTyped)
    (h : machine.Passes initial world state)
    (hc : state.current = some lines.left.handle) {value : Number}
    (hv : (if folded.taken then lines.targetPush else lines.fallthroughPush).instruction =
      .push value .int) :
    machine.Silently { state with
      current := some following.handle, stack := .number value :: state.stack } state := by
  have distinct := folded.replaced.distinct
  have cutBranch :
      machine.listing.Cut (before ++ lines.left :: lines.right :: lines.comparison.toList)
        lines.branch
        (lines.fallthroughPush :: lines.jump :: lines.targetPush :: following :: tail) := by
    rw [Listing.Cut, show machine.listing.lines.toList = _ from folded.replaced.cut]
    simp [ComparisonLines.segment]
  obtain ⟨stack, hbranch, htest⟩ := folded.quietly_branch typed h hc
  cases htaken : folded.taken with
  | true =>
    rw [htaken] at hv htest
    have cutTarget : machine.listing.Cut (before ++ lines.left :: lines.right ::
        (lines.comparison.toList ++ [lines.branch, lines.fallthroughPush, lines.jump]))
        lines.targetPush (following :: tail) := by
      rw [Listing.Cut, show machine.listing.lines.toList = _ from cutBranch]
      simp
    have hgoto : machine.Quiet { state with current := some lines.branch.handle, stack }
        { state with current := some lines.targetPush.handle } := by
      refine Machine.quiet_of_goto cutBranch distinct rfl ?_
      simp only [folded.branch_eq, Instruction.effect, htest]
    refine Machine.Quietly.silently (hbranch.tail hgoto)
      (Machine.quiet_of_advance cutTarget distinct rfl ?_).step
    exact congrArg (Instruction.effect machine.pool state.stack state.locals) hv
  | false =>
    rw [htaken] at hv htest
    have cutPush : machine.listing.Cut (before ++ lines.left :: lines.right ::
        (lines.comparison.toList ++ [lines.branch]))
        lines.fallthroughPush (lines.jump :: lines.targetPush :: following :: tail) := by
      rw [Listing.Cut, show machine.listing.lines.toList = _ from cutBranch]
      simp
    have cutJump : machine.listing.Cut (before ++ lines.left :: lines.right ::
        (lines.comparison.toList ++ [lines.branch, lines.fallthroughPush]))
        lines.jump (lines.targetPush :: following :: tail) := by
      rw [Listing.Cut, show machine.listing.lines.toList = _ from cutBranch]
      simp
    have hfall : machine.Quiet { state with current := some lines.branch.handle, stack }
        { state with current := some lines.fallthroughPush.handle } := by
      refine Machine.quiet_of_advance cutBranch distinct rfl ?_
      simp only [folded.branch_eq, Instruction.effect, htest]
    have hpush : machine.Quiet { state with current := some lines.fallthroughPush.handle }
        { state with
          current := some lines.jump.handle
          stack := .number value :: state.stack } := by
      refine Machine.quiet_of_advance cutPush distinct rfl ?_
      exact congrArg (Instruction.effect machine.pool state.stack state.locals) hv
    refine Machine.Quietly.silently ((hbranch.tail hfall).tail hpush)
      (Machine.quiet_of_goto cutJump distinct rfl ?_).step
    simp only [named.jump_eq, Instruction.effect]

theorem sameBehaviour
    (folded : ComparisonFolded listing pool before lines (following :: tail) result grown)
    (named : lines.Named following.handle found) (typed : listing.WellTyped)
    (genuine : Machine.Genuine ⟨listing, pool, environment⟩ initial)
    (never : Machine.NeverStuck ⟨listing, pool, environment⟩
      (Machine.start ⟨listing, pool, environment⟩ initial world)) :
    SameBehaviour ⟨listing, pool, environment⟩ ⟨result, grown, environment⟩ initial world := by
  have hcalls : ∀ line ∈ lines.left :: lines.segment, ∀ target,
      line.instruction ≠ .subroutine target := by
    intro line hm target hcode
    simp only [ComparisonLines.segment, List.mem_cons, List.mem_append, Option.mem_toList,
      List.not_mem_nil, or_false] at hm
    rcases hm with rfl | rfl | hm | rfl | rfl | rfl | rfl
    · simpa [hcode, Instruction.isOperand] using named.left_operand
    · simpa [hcode, Instruction.isOperand] using named.right_operand
    · simpa [hcode, Instruction.isComparison] using named.comparison_kind line hm
    · simpa [hcode] using folded.branch_eq
    · simpa [hcode, Instruction.isIntPush] using named.fallthrough_push
    · simpa [hcode] using named.jump_eq
    · simpa [hcode, Instruction.isIntPush] using named.target_push
  obtain ⟨value, hv⟩ : ∃ value,
      (if folded.taken then lines.targetPush else lines.fallthroughPush).instruction =
        .push value .int := by
    apply Instruction.isIntPush_eq
    cases folded.taken
    · exact named.fallthrough_push
    · exact named.target_push
  have hextends : pool.Extends grown := by
    rw [folded.pool_eq]
    exact ConstantPool.Extends.refl pool
  refine folded.replaced.sameBehaviour hextends hcalls genuine never ?_
  intro state hreach hc
  have hsilent := folded.silently named typed ⟨genuine, hreach, never⟩ hc hv
  refine ⟨_, folded.replaced.step_first hc ?_, folded.replaced.outside_after rfl, hsilent⟩
  rw [hv]
  rfl

end ComparisonFolded

end BytecodeFold
