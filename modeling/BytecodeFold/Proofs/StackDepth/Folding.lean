import BytecodeFold.Proofs.Execution.Preservation
import BytecodeFold.Proofs.Fold.Attempt
import BytecodeFold.Proofs.StackDepth.Replacement

/-!
# Depths after a fold

Along the lines of a match the depth follows from the types of the operands: each operand puts as
many slots on the stack as its type takes, and a conversion, the operator, a comparison and the
branch take and give what their types say. If these types fit, the instruction that a fold puts in
the place of the match is balanced, and so the fold keeps the depths.

That the operands have the right types after their conversions is not enough. The fold looks at the
type a conversion gives and not at the one it takes, and a conversion of a `long` that stands after
an `int` takes a slot that is not the operand's.
-/

namespace BytecodeFold

theorem TypeTag.slots_promote (type : TypeTag) : type.promote.slots = type.slots := by
  cases type <;> rfl

/-- A load, of a local or from the pool, has the type of the number that it reads. -/
def Instruction.LoadsAs (code : Instruction Handle) (value : Number) : Prop :=
  match code with
  | .load _ type => type.promote = value.naturalType
  | .loadConstant _ wide => wide = value.naturalType.isWide
  | _ => True

/-! ## Along a straight line of code -/

namespace Listing

variable {listing : Listing} {pool : ConstantPool} {depth : Handle → Int} {before after : List Line}
  {line following : Line} {effect : StackEffect} {value : Number × TypeTag}
  {conversion : Option Line}

/-- Control goes on from a line to the next one with the depth that the line leaves. -/
theorem Levels.advance (levels : listing.Levels pool depth) (distinct : listing.Distinct)
    (cut : listing.Cut before line (following :: after)) (reachable : listing.Reachable line.handle)
    (fixed : line.instruction.stackEffect? = some effect)
    (falls : line.instruction.fallsThrough = true)
    (ordinary : ∀ target, line.instruction ≠ .subroutine target) :
    listing.Reachable following.handle ∧
      depth following.handle = depth line.handle - effect.pops + effect.pushes := by
  have hway : listing.Continues line.handle following.handle :=
    .next (cut.get? distinct) falls ordinary (cut.next? distinct)
  have heffect : listing.HasEffect pool line.handle effect :=
    ⟨_, cut.get? distinct, Instruction.stackEffect_of_fixed fixed pool⟩
  exact ⟨.continues reachable hway, levels.continues reachable heffect hway⟩

/-- The number of an operand has the type that the operand is tagged with. -/
theorem operandValue_typed (cut : listing.Cut before line after) (distinct : listing.Distinct)
    (typed : listing.WellTyped) (hv : listing.operandValue pool line.handle = .ok value) :
    value.1.naturalType = value.2.promote := by
  cases operandValue_eq_ok cut distinct hv with
  | literal hl => exact literal?_typed (typed line cut.mem) hl
  | load slot type code definition hl =>
    have hsource : definition.source ∈ listing.lines.toList := by
      rw [definition.lines_eq]
      simp
    exact literal?_typed (typed definition.source hsource) hl

/-- An operand puts its number on the stack, in as many slots as its type takes. -/
theorem operand_slots (cut : listing.Cut before line after) (distinct : listing.Distinct)
    (typed : listing.WellTyped) (hv : listing.operandValue pool line.handle = .ok value)
    (loads : line.instruction.LoadsAs value.1) :
    line.instruction.stackEffect? = some ⟨0, value.2.slots⟩ := by
  have htype := operandValue_typed cut distinct typed hv
  rw [← TypeTag.slots_promote, ← htype]
  cases operandValue_eq_ok cut distinct hv with
  | literal hl =>
    cases hcode : line.instruction with
    | push =>
      rw [hcode] at hl
      cases hl
      rfl
    | loadConstant index wide =>
      rw [hcode] at loads
      rw [show wide = _ from loads]
      cases value.1 <;> rfl
    | _ =>
      rw [hcode] at hl
      cases hl
  | load slot type code definition hl =>
    rw [code] at loads ⊢
    rw [← show type.promote = _ from loads, TypeTag.slots_promote]
    rfl

/-- A conversion line holds a conversion to a type of numbers. -/
theorem WellTyped.convert_eq (typed : listing.WellTyped) (mem : line ∈ listing.lines.toList)
    (kind : line.instruction.isConversion = true) :
    ∃ source target, line.instruction = .convert source target ∧ target ≠ .reference := by
  have htyped := typed line mem
  cases hcode : line.instruction with
  | convert source target =>
    rw [hcode] at htyped
    exact ⟨source, target, rfl, htyped⟩
  | _ =>
    rw [hcode] at kind
    cases kind

/-- The number of an operand still has the type that it is tagged with after a conversion. -/
theorem converted_typed (cut : listing.Cut before line (conversion.toList ++ after))
    (distinct : listing.Distinct) (typed : listing.WellTyped)
    (kind : ∀ line ∈ conversion, line.instruction.isConversion = true)
    (hv : listing.operandValue pool line.handle = .ok value) :
    (converted conversion value).1.naturalType = (converted conversion value).2.promote := by
  cases conversion with
  | none => exact operandValue_typed cut distinct typed hv
  | some conversion =>
    obtain ⟨source, target, hcode, htarget⟩ := typed.convert_eq cut.forth.mem (kind conversion rfl)
    have hconverted : converted (some conversion) value = (value.1.convert target, target) := by
      simp [converted, hcode]
    rw [hconverted]
    exact value.1.naturalType_convert htarget

/-- Control gets past an operand with its number on the stack. -/
theorem Levels.operand (levels : listing.Levels pool depth) (distinct : listing.Distinct)
    (typed : listing.WellTyped) (cut : listing.Cut before line (following :: after))
    (reachable : listing.Reachable line.handle) (operand : line.instruction.isOperand = true)
    (hv : listing.operandValue pool line.handle = .ok value)
    (loads : line.instruction.LoadsAs value.1) :
    listing.Reachable following.handle ∧
      depth following.handle = depth line.handle + value.2.slots := by
  have hfixed := operand_slots cut distinct typed hv loads
  obtain ⟨-, hfalls, hordinary⟩ := Instruction.fallsThrough_of_isOperand operand
  obtain ⟨hreachable, hdepth⟩ := levels.advance distinct cut reachable hfixed hfalls hordinary
  refine ⟨hreachable, ?_⟩
  dsimp only at hdepth
  omega

/-- Control gets past an operand and the conversion after it, if there is one, with the converted
number on the stack. -/
theorem Levels.converted_operand (levels : listing.Levels pool depth) (distinct : listing.Distinct)
    (typed : listing.WellTyped)
    (cut : listing.Cut before line (conversion.toList ++ following :: after))
    (reachable : listing.Reachable line.handle) (operand : line.instruction.isOperand = true)
    (kind : ∀ line ∈ conversion, line.instruction.isConversion = true)
    (hv : listing.operandValue pool line.handle = .ok value)
    (loads : line.instruction.LoadsAs value.1)
    (fed : ∀ source target, conversion.map (·.instruction) = some (.convert source target) →
      source.slots = value.1.naturalType.slots) :
    listing.Reachable following.handle ∧
      depth following.handle = depth line.handle + (converted conversion value).2.slots := by
  cases conversion with
  | none => exact levels.operand distinct typed cut reachable operand hv loads
  | some conversion =>
    obtain ⟨source, target, hcode, -⟩ := typed.convert_eq cut.forth.mem (kind conversion rfl)
    obtain ⟨hreachable, hdepth⟩ := levels.operand distinct typed cut reachable operand hv loads
    have hslots : source.slots = value.2.slots := by
      rw [fed source target (by rw [Option.map_some, hcode]),
        operandValue_typed cut distinct typed hv, TypeTag.slots_promote]
    obtain ⟨hreachable', hdepth'⟩ := levels.advance distinct cut.forth hreachable
      (by rw [hcode]; rfl) (by rw [hcode]; rfl) (by rw [hcode]; exact fun _ he => by cases he)
    have hconverted : (converted (some conversion) value).2 = target := by simp [converted, hcode]
    refine ⟨hreachable', ?_⟩
    rw [hconverted]
    dsimp only at hdepth'
    omega

end Listing

variable {listing result : Listing} {pool grown : ConstantPool} {depth : Handle → Int}
  {before tail : List Line}

/-! ## Arithmetic -/

/-- The operands of a match have, after their conversions, the types that the operator takes, and
the loads among them have the types of the numbers they read. -/
structure ArithmeticMatch.Typed (listing : Listing) (pool : ConstantPool)
    (found : ArithmeticMatch) :
    Prop where
  operator : ∀ op type left right, listing.get? found.operator = some (.arithmetic op type) →
    ArithmeticMatch.operand listing pool found.left found.leftConversion = .ok left →
    ArithmeticMatch.operand listing pool found.right found.rightConversion = .ok right →
    left.2.promote = type.promote ∧ right.2.promote = op.rightType type
  loads : ∀ handle ∈ [found.left, found.right], ∀ code value, listing.get? handle = some code →
    listing.operandValue pool handle = .ok value → code.LoadsAs value.1

/-- A conversion takes as many slots as the operand before it has put on the stack. -/
def ArithmeticMatch.Fed (listing : Listing) (pool : ConstantPool)
    (found : ArithmeticMatch) : Prop :=
  ∀ pair ∈ [(found.left, found.leftConversion), (found.right, found.rightConversion)],
    ∀ source target value, pair.2.bind listing.get? = some (.convert source target) →
      listing.operandValue pool pair.1 = .ok value → source.slots = value.1.naturalType.slots

/-- A match of two literals is typed if their types are those of the operator. -/
theorem ArithmeticMatch.Typed.of_literals {found : ArithmeticMatch} {op : ArithmeticOp}
    {type : TypeTag}
    {left right : Number × TypeTag} (hop : listing.get? found.operator = some (.arithmetic op type))
    (hl : ArithmeticMatch.operand listing pool found.left found.leftConversion = .ok left)
    (hr : ArithmeticMatch.operand listing pool found.right found.rightConversion = .ok right)
    (hleft : left.2.promote = type.promote) (hright : right.2.promote = op.rightType type)
    (literals : ∀ handle ∈ [found.left, found.right],
      ∃ value type, listing.get? handle = some (.push value type)) : found.Typed listing pool where
  operator op' type' left' right' hop' hl' hr' := by
    cases hop.symm.trans hop'
    cases hl.symm.trans hl'
    cases hr.symm.trans hr'
    exact ⟨hleft, hright⟩
  loads handle hm code value hcode _ := by
    obtain ⟨number, tag, hpush⟩ := literals handle hm
    cases hpush.symm.trans hcode
    trivial

theorem ArithmeticOp.slots_rightType (op : ArithmeticOp) (type : TypeTag) :
    (op.rightType type).slots = if op.isShift then 1 else type.slots := by
  unfold rightType
  split
  · rfl
  · exact type.slots_promote

theorem Listing.Cut.get?_optional {line : Line} {optional : Option Line}
    (cut : listing.Cut before line (optional.toList ++ tail)) (distinct : listing.Distinct) :
    ∀ other ∈ optional, listing.get? other.handle = some other.instruction := by
  intro other hm
  exact Listing.get?_of_mem distinct (cut.mem_after (by simp [Option.mem_def.mp hm]))

theorem ArithmeticMatch.Fed.slots_eq {found : ArithmeticMatch} (fed : found.Fed listing pool)
    {line : Line} {conversion : Option Line} {value : Number × TypeTag}
    (cut : listing.Cut before line (conversion.toList ++ tail)) (distinct : listing.Distinct)
    (mem : (line.handle, conversion.map (·.handle)) ∈
      [(found.left, found.leftConversion), (found.right, found.rightConversion)])
    (hv : listing.operandValue pool line.handle = .ok value) (source target : TypeTag)
    (h : conversion.map (·.instruction) = some (.convert source target)) :
    source.slots = value.1.naturalType.slots := by
  refine fed _ mem source target value ?_ hv
  cases conversion with
  | none => cases h
  | some conversion =>
    rw [Option.map_some, Option.bind_some, cut.get?_optional distinct conversion rfl]
    exact h

/-- The cuts of the stream at the operands and at the operator of a match. -/
theorem ArithmeticLines.cuts {lines : ArithmeticLines}
    (cut : listing.Cut before lines.left (lines.segment ++ tail)) :
    listing.Cut before lines.left (lines.leftConversion.toList ++ lines.right ::
      (lines.rightConversion.toList ++ lines.operator :: tail)) ∧
    listing.Cut (before ++ lines.left :: lines.leftConversion.toList) lines.right
      (lines.rightConversion.toList ++ lines.operator :: tail) ∧
    listing.Cut (before ++ lines.left :: (lines.leftConversion.toList ++
      lines.right :: lines.rightConversion.toList)) lines.operator tail := by
  simp only [Listing.Cut, show listing.lines.toList = _ from cut, ArithmeticLines.segment,
    List.append_assoc, List.cons_append, List.nil_append, and_self]

namespace ArithmeticFolded

variable {lines : ArithmeticLines} {found : ArithmeticMatch}

/-- The operands of a typed match have the types of its operator, and so they meet in that type. -/
theorem operand_types (folded : ArithmeticFolded listing pool before lines tail result grown)
    (named : lines.Named found) (welltyped : listing.WellTyped) (typed : found.Typed listing pool) :
    (converted lines.leftConversion folded.left).2.promote = folded.type.promote ∧
    (converted lines.rightConversion folded.right).2.promote = folded.op.rightType folded.type ∧
    (converted lines.leftConversion folded.left).2.join
      (converted lines.rightConversion folded.right).2 = folded.type.promote := by
  have distinct := folded.replaced.distinct
  obtain ⟨cutLeft, cutRight, cutOperator⟩ := ArithmeticLines.cuts folded.replaced.cut
  have hleft := ArithmeticMatch.operand_eq_converted folded.left_eq (cutLeft.get?_optional distinct)
  have hright :=
    ArithmeticMatch.operand_eq_converted folded.right_eq (cutRight.get?_optional distinct)
  rw [← named.left, ← named.leftConversion] at hleft
  rw [← named.right, ← named.rightConversion] at hright
  obtain ⟨hleftType, hrightType⟩ := typed.operator folded.op folded.type _ _
    (by rw [named.operator, cutOperator.get? distinct, folded.operator_eq]) hleft hright
  have hleftNumber :=
    Listing.converted_typed cutLeft distinct welltyped named.left_conversion folded.left_eq
  have hrightNumber :=
    Listing.converted_typed cutRight distinct welltyped named.right_conversion folded.right_eq
  exact ⟨hleftType, hrightType, folded.op.join_eq hleftNumber hrightNumber
    (hleftNumber.trans hleftType) (hrightNumber.trans hrightType)⟩

/-- Control comes from the left operand to the operator, with both operands on the stack. -/
theorem reachable_operator (folded : ArithmeticFolded listing pool before lines tail result grown)
    (named : lines.Named found) (welltyped : listing.WellTyped) (typed : found.Typed listing pool)
    (fed : found.Fed listing pool) (levels : listing.Levels pool depth)
    (reachable : listing.Reachable lines.left.handle) :
    listing.Reachable lines.operator.handle ∧ depth lines.operator.handle =
      depth lines.left.handle + folded.type.slots + (folded.op.rightType folded.type).slots := by
  have distinct := folded.replaced.distinct
  obtain ⟨cutLeft, cutRight, -⟩ := ArithmeticLines.cuts folded.replaced.cut
  obtain ⟨hleftType, hrightType, -⟩ := folded.operand_types named welltyped typed
  have hleftLoads := typed.loads lines.left.handle (by simp [named.left]) _ _
    (cutLeft.get? distinct) folded.left_eq
  have hrightLoads := typed.loads lines.right.handle (by simp [named.right]) _ _
    (cutRight.get? distinct) folded.right_eq
  have hleftFed := fed.slots_eq cutLeft distinct (by simp [named.left, named.leftConversion])
    folded.left_eq
  have hrightFed := fed.slots_eq cutRight distinct (by simp [named.right, named.rightConversion])
    folded.right_eq
  obtain ⟨hright, hdepth⟩ := levels.converted_operand distinct welltyped cutLeft reachable
    named.left_operand named.left_conversion folded.left_eq hleftLoads hleftFed
  obtain ⟨hoperator, hdepth'⟩ := levels.converted_operand distinct welltyped cutRight hright
    named.right_operand named.right_conversion folded.right_eq hrightLoads hrightFed
  refine ⟨hoperator, ?_⟩
  rw [hdepth', hdepth, ← TypeTag.slots_promote, hleftType, TypeTag.slots_promote,
    ← TypeTag.slots_promote (converted lines.rightConversion folded.right).2, hrightType]

/-- The load of the result puts on the stack what the lines of the match did. -/
theorem balanced (folded : ArithmeticFolded listing pool before lines tail result grown)
    (named : lines.Named found) (welltyped : listing.WellTyped) (typed : found.Typed listing pool)
    (fed : found.Fed listing pool) (levels : listing.Levels pool depth) :
    listing.Balanced pool depth lines.left.handle tail
      (.loadConstant folded.index ((converted lines.leftConversion folded.left).2.join
        (converted lines.rightConversion folded.right).2).isWide) folded.type.slots := by
  have distinct := folded.replaced.distinct
  obtain ⟨-, -, cutOperator⟩ := ArithmeticLines.cuts folded.replaced.cut
  have hfixed : lines.operator.instruction.stackEffect? =
      some ⟨folded.type.slots + (folded.op.rightType folded.type).slots, folded.type.slots⟩ := by
    rw [folded.operator_eq, ArithmeticOp.slots_rightType]
    rfl
  refine ⟨rfl, rfl, ?_, fun reachable => ?_, fun reachable line hline => ?_⟩
  · rw [(folded.operand_types named welltyped typed).2.2]
    cases folded.type <;> rfl
  · obtain ⟨hoperator, hdepth⟩ :=
      folded.reachable_operator named welltyped typed fed levels reachable
    refine ⟨lines.operator.handle, _, hoperator,
      ⟨_, cutOperator.get? distinct, Instruction.stackEffect_of_fixed hfixed pool⟩, .inr ?_⟩
    dsimp only
    omega
  · obtain ⟨hoperator, hdepth⟩ :=
      folded.reachable_operator named welltyped typed fed levels reachable
    obtain ⟨rest, rfl⟩ := List.head?_eq_some_iff.mp hline
    obtain ⟨hnext, hdepth'⟩ := levels.advance distinct cutOperator hoperator hfixed
      (by rw [folded.operator_eq]; rfl) (by rw [folded.operator_eq]; exact fun _ he => by cases he)
    refine ⟨hnext, ?_⟩
    dsimp only at hdepth'
    omega

end ArithmeticFolded

/-! ## Comparisons -/

/-- The operands of a match have the types that its comparison takes, or that its branch takes if
there is no comparison, and the loads among them have the types of the numbers they read. -/
structure ComparisonMatch.Typed (listing : Listing) (pool : ConstantPool)
    (found : ComparisonMatch) :
    Prop where
  comparison : ∀ kind left right, found.comparison.bind listing.get? = some (.compare kind) →
    listing.operandValue pool found.left = .ok left →
    listing.operandValue pool found.right = .ok right →
    left.2.promote = kind.operandType ∧ right.2.promote = kind.operandType
  branch : ∀ relation target left right, found.comparison = none →
    listing.get? found.branch = some (.branch (.intCompare relation) target) →
    listing.operandValue pool found.left = .ok left →
    listing.operandValue pool found.right = .ok right →
    left.2.promote = .int ∧ right.2.promote = .int
  loads : ∀ handle ∈ [found.left, found.right], ∀ code value, listing.get? handle = some code →
    listing.operandValue pool handle = .ok value → code.LoadsAs value.1

/-- A push of an `int` takes one slot. -/
theorem Listing.WellTyped.intPush_slots (welltyped : listing.WellTyped) {line : Line}
    (mem : line ∈ listing.lines.toList) (push : line.instruction.isIntPush = true) :
    line.instruction.stackEffect? = some ⟨0, 1⟩ := by
  obtain ⟨value, hvalue⟩ := Instruction.isIntPush_eq push
  have htyped := welltyped line mem
  rw [hvalue] at htyped ⊢
  simp only [Instruction.stackEffect?, show value.naturalType = _ from htyped]
  rfl

theorem Instruction.isOperand_of_isIntPush {code : Instruction Handle} (h : code.isIntPush = true) :
    code.isOperand = true ∧ code.localSlot? = none := by
  obtain ⟨value, rfl⟩ := Instruction.isIntPush_eq h
  exact ⟨rfl, rfl⟩

namespace ComparisonFolded

variable {lines : ComparisonLines} {found : ComparisonMatch} {past : Line}

/-- Control comes from the left operand to the branch, with its operands on the stack. -/
theorem reachable_branch
    (folded : ComparisonFolded listing pool before lines (past :: tail) result grown)
    (named : lines.Named past.handle found) (welltyped : listing.WellTyped)
    (typed : found.Typed listing pool) (levels : listing.Levels pool depth)
    (reachable : listing.Reachable lines.left.handle) :
    listing.Reachable lines.branch.handle ∧
      depth lines.branch.handle = depth lines.left.handle + folded.condition.operandCount := by
  have distinct := folded.replaced.distinct
  have cutLeft : listing.Cut before lines.left (lines.segment ++ past :: tail) :=
    folded.replaced.cut
  rw [ComparisonLines.segment] at cutLeft
  have cutRight := cutLeft.forth
  have hleftLoads := typed.loads lines.left.handle (by simp [named.left]) _ _
    (cutLeft.get? distinct) folded.left_eq
  have hrightLoads := typed.loads lines.right.handle (by simp [named.right]) _ _
    (cutRight.get? distinct) folded.right_eq
  obtain ⟨hright, hdepth⟩ := levels.operand distinct welltyped cutLeft reachable named.left_operand
    folded.left_eq hleftLoads
  have hleftValue := folded.left_eq
  have hrightValue := folded.right_eq
  rw [← named.left] at hleftValue
  rw [← named.right] at hrightValue
  have htaken := folded.taken_eq
  cases hcomparison : lines.comparison with
  | none =>
    rw [hcomparison] at htaken cutRight
    obtain ⟨relation, hcondition, -⟩ := htaken.direct_eq
    have cutBranch := cutRight.forth
    obtain ⟨hleftType, hrightType⟩ := typed.branch relation lines.targetPush.handle _ _
      (by rw [named.comparison, hcomparison]; rfl)
      (by rw [named.branch, cutBranch.get? distinct, folded.branch_eq, hcondition])
      hleftValue hrightValue
    obtain ⟨hbranch, hdepth'⟩ :=
      levels.operand distinct welltyped cutRight hright named.right_operand
      folded.right_eq hrightLoads
    refine ⟨hbranch, ?_⟩
    rw [hdepth', hdepth, ← TypeTag.slots_promote, hleftType, ← TypeTag.slots_promote folded.right.2,
      hrightType, hcondition]
    simp only [TypeTag.slots, Condition.operandCount]
    omega
  | some comparison =>
    rw [hcomparison] at htaken cutRight
    obtain ⟨kind, relation, hkind, hcondition, -⟩ := htaken.threeWay_eq
    have cutComparison := cutRight.forth
    obtain ⟨hleftType, hrightType⟩ := typed.comparison kind _ _
      (by rw [named.comparison, hcomparison, Option.map_some, Option.bind_some,
        cutComparison.get? distinct, hkind]) hleftValue hrightValue
    obtain ⟨hcompare, hdepth'⟩ := levels.operand distinct welltyped cutRight hright
      named.right_operand folded.right_eq hrightLoads
    obtain ⟨hbranch, hdepth''⟩ := levels.advance distinct cutComparison hcompare
      (by rw [hkind]; rfl) (by rw [hkind]; rfl) (by rw [hkind]; exact fun _ he => by cases he)
    refine ⟨hbranch, ?_⟩
    rw [← TypeTag.slots_promote, hleftType] at hdepth
    rw [← TypeTag.slots_promote, hrightType] at hdepth'
    rw [hdepth'', hdepth', hdepth, hcondition]
    simp only [Condition.operandCount]
    omega

/-- Control comes from the left operand to the jump, with one of the literals on the stack. -/
theorem reachable_jump
    (folded : ComparisonFolded listing pool before lines (past :: tail) result grown)
    (named : lines.Named past.handle found) (welltyped : listing.WellTyped)
    (typed : found.Typed listing pool) (levels : listing.Levels pool depth)
    (reachable : listing.Reachable lines.left.handle) :
    listing.Reachable lines.jump.handle ∧
      depth lines.jump.handle = depth lines.left.handle + 1 := by
  have distinct := folded.replaced.distinct
  have cutBranch : listing.Cut (before ++ lines.left :: lines.right :: lines.comparison.toList)
      lines.branch (lines.fallthroughPush :: lines.jump :: lines.targetPush :: past :: tail) := by
    rw [Listing.Cut, show listing.lines.toList = _ from folded.replaced.cut]
    simp [ComparisonLines.segment]
  have cutPush := cutBranch.forth
  obtain ⟨hbranch, hdepth⟩ := folded.reachable_branch named welltyped typed levels reachable
  obtain ⟨hpush, hdepth'⟩ := levels.advance distinct cutBranch hbranch
    (by rw [folded.branch_eq]; rfl) (by rw [folded.branch_eq]; rfl)
    (by rw [folded.branch_eq]; exact fun _ he => by cases he)
  obtain ⟨-, hfalls, hordinary⟩ := Instruction.fallsThrough_of_isOperand
    (Instruction.isOperand_of_isIntPush named.fallthrough_push).1
  obtain ⟨hjump, hdepth''⟩ := levels.advance distinct cutPush hpush
    (welltyped.intPush_slots cutPush.mem named.fallthrough_push) hfalls hordinary
  refine ⟨hjump, ?_⟩
  dsimp only at hdepth' hdepth''
  omega

/-- The selected push puts on the stack what the lines of the match did. -/
theorem balanced (folded : ComparisonFolded listing pool before lines (past :: tail) result grown)
    (named : lines.Named past.handle found) (welltyped : listing.WellTyped)
    (typed : found.Typed listing pool) (levels : listing.Levels pool depth) :
    listing.Balanced pool depth lines.left.handle (past :: tail)
      (if folded.taken then lines.targetPush else lines.fallthroughPush).instruction 1 := by
  have distinct := folded.replaced.distinct
  have hpush :
      (if folded.taken then lines.targetPush else lines.fallthroughPush).instruction.isIntPush =
      true := by
    cases folded.taken
    · exact named.fallthrough_push
    · exact named.target_push
  have hmem : (if folded.taken then lines.targetPush else lines.fallthroughPush) ∈
      listing.lines.toList := by
    refine folded.replaced.cut.mem_after ?_
    cases folded.taken <;> simp [ComparisonLines.segment]
  have cutJump : listing.Cut (before ++ lines.left :: lines.right :: (lines.comparison.toList ++
      [lines.branch, lines.fallthroughPush])) lines.jump (lines.targetPush :: past :: tail) := by
    rw [Listing.Cut, show listing.lines.toList = _ from folded.replaced.cut]
    simp [ComparisonLines.segment]
  have heffect : listing.HasEffect pool lines.jump.handle ⟨0, 0⟩ := by
    refine ⟨_, cutJump.get? distinct, Instruction.stackEffect_of_fixed ?_ pool⟩
    rw [named.jump_eq]
    rfl
  obtain ⟨hoperand, huntouched⟩ := Instruction.isOperand_of_isIntPush hpush
  refine ⟨hoperand, huntouched, welltyped.intPush_slots hmem hpush,
    fun reachable => ?_, fun reachable line hline => ?_⟩
  · obtain ⟨hjump, hdepth⟩ := folded.reachable_jump named welltyped typed levels reachable
    exact ⟨lines.jump.handle, _, hjump, heffect, .inl hdepth.symm⟩
  · cases hline
    obtain ⟨hjump, hdepth⟩ := folded.reachable_jump named welltyped typed levels reachable
    have hway : listing.Continues lines.jump.handle past.handle := by
      refine .target (cutJump.get? distinct) ?_
      rw [named.jump_eq]
      exact List.mem_singleton_self _
    refine ⟨.continues hjump hway, ?_⟩
    rw [levels.continues hjump heffect hway, hdepth]
    dsimp only
    omega

end ComparisonFolded

/-! ## Folds -/

/-- The pass of a rule returns `true`, and this is the match that it has folded. -/
structure FoldRule.Folds {α : Type} (rule : FoldRule α) (session result : Session) (found : α) :
    Prop where
  run : rule.pass.run session = (.ok true, result)
  match_eq : ∃ before line rest, session.listing.lines.toList = before ++ line :: rest ∧
    rule.matchAt? (line :: rest) = some found
  attempt_eq : ∃ note, rule.attempt session.listing session.pool found =
    .ok (.folded result.listing result.pool note)

/-- A match of one of the passes. -/
inductive FoldMatch where
  | arithmetic (found : ArithmeticMatch)
  | comparison (found : ComparisonMatch)

namespace FoldMatch

/-- The pass for the match returns `true` and has folded it. -/
def Folds (session result : Session) : FoldMatch → Prop
  | arithmetic found => arithmeticFold.Folds session result found
  | comparison found => comparisonFold.Folds session result found

/-- The operands have the types that the match takes. -/
def Typed (listing : Listing) (pool : ConstantPool) : FoldMatch → Prop
  | arithmetic found => found.Typed listing pool
  | comparison found => found.Typed listing pool

/-- Every conversion in the match takes as many slots as the operand before it has put on the
stack. -/
def Fed (listing : Listing) (pool : ConstantPool) : FoldMatch → Prop
  | arithmetic found => found.Fed listing pool
  | comparison _ => True

/-- What a fold has done to the listing, and that it is balanced. -/
theorem balanced {session result : Session} {found : FoldMatch} (derived : session.listing.Derived)
    (folds : found.Folds session result) (typed : found.Typed session.listing session.pool)
    (fed : found.Fed session.listing session.pool)
    (levels : session.listing.Levels session.pool depth) :
    ∃ before first segment after code slots,
      session.listing.Replaced before first segment after code result.listing ∧
      session.listing.Balanced session.pool depth first.handle after code slots ∧
      session.pool.Extends result.pool := by
  obtain ⟨distinct, welltyped⟩ := derived.sound
  cases found with
  | arithmetic found =>
    obtain ⟨before, line, rest, hsplit, hmatch⟩ := folds.match_eq
    obtain ⟨note, hattempt⟩ := folds.attempt_eq
    obtain ⟨lines, tail, hlines, named, -⟩ := ArithmeticMatch.at?_eq_some hmatch
    have cut : session.listing.Cut before lines.left (lines.segment ++ tail) := by
      rw [Listing.Cut, hsplit, hlines]
    obtain ⟨folded⟩ := ArithmeticMatch.fold_eq_folded cut distinct named hattempt
    exact ⟨before, lines.left, lines.segment, tail, _, _, folded.replaced,
      folded.balanced named welltyped typed fed levels, ConstantPool.extends_intern folded.added⟩
  | comparison found =>
    obtain ⟨before, line, rest, hsplit, hmatch⟩ := folds.match_eq
    obtain ⟨note, hattempt⟩ := folds.attempt_eq
    obtain ⟨lines, past, tail, hlines, named⟩ := ComparisonMatch.at?_eq_some hmatch
    have cut : session.listing.Cut before lines.left (lines.segment ++ past :: tail) := by
      rw [Listing.Cut, hsplit, hlines]
    obtain ⟨folded⟩ := ComparisonMatch.fold_eq_folded cut distinct named hattempt
    refine ⟨before, lines.left, lines.segment, past :: tail, _, _, folded.replaced,
      folded.balanced named welltyped typed levels, ?_⟩
    rw [folded.pool_eq]
    exact .refl _

end FoldMatch

/-! ## Folds keep the depths -/

/-- A fold of a match whose operands have the types it takes, and in which every conversion gets as
many slots as it takes, keeps the depths of a consistent listing. The stack still covers every
instruction, it is not deeper than before, and no more locals are needed. -/
theorem fold_keeps_depths {session result : Session} {found : FoldMatch}
    (derived : session.listing.Derived)
    (folds : found.Folds session result) (typed : found.Typed session.listing session.pool)
    (fed : found.Fed session.listing session.pool)
    (levels : session.listing.Levels session.pool depth)
    (covered : session.listing.Covered session.pool depth) :
    result.listing.Levels result.pool depth ∧ result.listing.Covered result.pool depth ∧
    (∀ deepest, session.listing.maxStack session.pool = .ok deepest →
      ∃ deepest' ≤ deepest, result.listing.maxStack result.pool = .ok deepest') ∧
    ∀ argumentSlots locals, session.listing.maxLocals argumentSlots = .ok locals →
      ∃ locals' ≤ locals, result.listing.maxLocals argumentSlots = .ok locals' := by
  obtain ⟨before, first, segment, after, code, slots, replaced, balanced, extended⟩ :=
    FoldMatch.balanced derived folds typed fed levels
  exact ⟨replaced.levels balanced extended levels,
    replaced.covered balanced extended levels covered,
    fun _ h => replaced.maxStack_le balanced extended levels covered h,
    fun _ _ h => replaced.maxLocals_le balanced.untouched h⟩

/-! ## A shift of a converted number -/

def shiftReturn : Verbatim := ⟨0xAD, false, [], ⟨2, 0⟩, .methodReturn⟩

/-- Returns `2` as a `long`, shifted by 3. -/
def shiftCode : Code where
  maxStack := 3
  maxLocals := 0
  bytes := #[0x05, 0x85, 0x06, 0x79, 0xAD]
  exceptionTable := #[]

def shifting : Listing where
  lines := #[⟨⟨0⟩, .push (.int 2) .int, false⟩, ⟨⟨1⟩, .convert .int .long, false⟩,
    ⟨⟨2⟩, .push (.int 3) .int, false⟩, ⟨⟨3⟩, .arithmetic .shl .long, false⟩,
    ⟨⟨4⟩, .other shiftReturn, false⟩]
  fresh := 5
  handlers := #[]
  laidOut := false

def shiftDepth (handle : Handle) : Int := [0, 1, 2, 3, 2].getD handle.index 0

theorem decode_shiftCode : shiftCode.decode .empty = .ok shifting := by
  decide +kernel

def shiftFolded : Listing where
  lines := #[⟨⟨0⟩, .loadConstant 1 true, false⟩, ⟨⟨4⟩, .other shiftReturn, false⟩]
  fresh := 5
  handlers := #[]
  laidOut := false

/-- The match that starts with the first line. -/
def shiftMatch : ArithmeticMatch := ⟨⟨0⟩, some ⟨1⟩, ⟨2⟩, none, ⟨3⟩, none, ⟨3⟩⟩

theorem operands_shiftMatch : shifting.get? shiftMatch.operator = some (.arithmetic .shl .long) ∧
    ArithmeticMatch.operand shifting .empty shiftMatch.left shiftMatch.leftConversion =
      .ok (.long 2, .long) ∧
    ArithmeticMatch.operand shifting .empty shiftMatch.right shiftMatch.rightConversion =
      .ok (.int 3, .int) := by
  decide

theorem fold_shifting : ∃ pool note,
    ArithmeticMatch.fold shifting .empty shiftMatch = .ok (.folded shiftFolded pool note) := by
  have folded : ArithmeticFolded shifting .empty []
      ⟨⟨⟨0⟩, .push (.int 2) .int, false⟩, some ⟨⟨1⟩, .convert .int .long, false⟩,
        ⟨⟨2⟩, .push (.int 3) .int, false⟩, none, ⟨⟨3⟩, .arithmetic .shl .long, false⟩⟩
      [⟨⟨4⟩, .other shiftReturn, false⟩] shiftFolded ⟨#[none, some (.long 16), none]⟩ :=
    ⟨.shl, .long, (.int 2, .int), (.int 3, .int), .long 16, 1, rfl, by decide, by decide,
      by decide, by decide +kernel,
      ⟨rfl, Code.decode_distinct decode_shiftCode, ⟨by simp [shifting], by decide⟩,
        by simp [Instruction.targets], rfl⟩⟩
  exact ⟨_, folded.fold_eq shiftMatch
    ⟨rfl, rfl, rfl, rfl, rfl, rfl, by simp [Instruction.isConversion], rfl, by simp, rfl⟩ rfl⟩

theorem typed_shiftMatch : shiftMatch.Typed shifting .empty := by
  obtain ⟨hop, hleft, hright⟩ := operands_shiftMatch
  refine .of_literals hop hleft hright rfl rfl ?_
  have hget : shifting.get? ⟨0⟩ = some (.push (.int 2) .int) ∧
      shifting.get? ⟨2⟩ = some (.push (.int 3) .int) := by decide
  simp [shiftMatch, hget.1, hget.2]

theorem fed_shiftMatch : shiftMatch.Fed shifting .empty := by
  have hget : shifting.get? ⟨1⟩ = some (.convert .int .long) ∧
      shifting.operandValue .empty ⟨0⟩ = .ok (.int 2, .int) := by decide
  simp only [ArithmeticMatch.Fed, shiftMatch, List.forall_mem_cons, Option.bind_some,
    hget.1, hget.2, Option.bind_none]
  refine ⟨?_, ?_, by simp⟩
  · rintro source target value ⟨⟩ ⟨⟩
    rfl
  · rintro source target value ⟨⟩

theorem fold_keeps_depths_shift : ∃ result,
    arithmeticFold.pass.run (.start shifting .empty {} "shift()J") = (.ok true, result) ∧
      result.listing.Levels result.pool shiftDepth ∧
      result.listing.Covered result.pool shiftDepth ∧
      ∃ deepest deepest', shifting.maxStack .empty = .ok deepest ∧
        result.listing.maxStack result.pool = .ok deepest' ∧ deepest' ≤ deepest := by
  obtain ⟨pool, note, hfold⟩ := fold_shifting
  have hmatch : arithmeticFold.matchAt? shifting.lines.toList = some shiftMatch := by decide
  obtain ⟨result, hrun, hlisting, hpool, -⟩ := arithmeticFold.run_of_folded 0 rfl (by decide)
    hmatch hfold (show (Session.start shifting .empty {} "shift()J").listing = _ from rfl) rfl
  have hfolds :
      (FoldMatch.arithmetic shiftMatch).Folds (.start shifting .empty {} "shift()J") result :=
    ⟨hrun, ⟨[], _, _, rfl, hmatch⟩, note, by rw [hlisting, hpool]; exact hfold⟩
  have distinct := Code.decode_distinct decode_shiftCode
  have checked : shifting.Checked .empty shiftDepth 65535 :=
    Listing.checked_of_check distinct (by decide +kernel)
  obtain ⟨deepest, hmax, -⟩ :=
    Listing.maxStack_of_levels distinct checked.levels checked.covered checked.depth_le
  obtain ⟨hlevels, hcovered, hstack, -⟩ := fold_keeps_depths (.decoded decode_shiftCode) hfolds
    typed_shiftMatch fed_shiftMatch checked.levels checked.covered
  obtain ⟨deepest', hle, hmax'⟩ := hstack deepest hmax
  exact ⟨result, hrun, hlevels, hcovered, deepest, deepest', hmax, hmax', hle⟩

/-! ## A conversion of too many slots -/

/-- Converts an `int` as if it were a `long`. The conversion takes the number below it as well. -/
def narrowCode : Code where
  maxStack := 2
  maxLocals := 0
  bytes := #[0x04, 0x05, 0x88, 0x06, 0x60, 0x04, 0xB1]
  exceptionTable := #[]

def narrowing : Listing where
  lines := #[⟨⟨0⟩, .push (.int 1) .int, false⟩, ⟨⟨1⟩, .push (.int 2) .int, false⟩,
    ⟨⟨2⟩, .convert .long .int, false⟩, ⟨⟨3⟩, .push (.int 3) .int, false⟩,
    ⟨⟨4⟩, .arithmetic .add .int, false⟩, ⟨⟨5⟩, .push (.int 1) .int, false⟩,
    ⟨⟨6⟩, .other .voidReturn, false⟩]
  fresh := 7
  handlers := #[]
  laidOut := false

def narrowDepth (handle : Handle) : Int := [0, 1, 2, 1, 2, 1, 2].getD handle.index 0

theorem decode_narrowCode : narrowCode.decode .empty = .ok narrowing := by
  decide +kernel

def narrowFolded : Listing where
  lines := #[⟨⟨0⟩, .push (.int 1) .int, false⟩, ⟨⟨1⟩, .loadConstant 1 false, false⟩,
    ⟨⟨5⟩, .push (.int 1) .int, false⟩, ⟨⟨6⟩, .other .voidReturn, false⟩]
  fresh := 7
  handlers := #[]
  laidOut := false

def narrowFoldedDepth (handle : Handle) : Int := [0, 1, 0, 0, 0, 2, 3].getD handle.index 0

/-- The match that starts with the second line. -/
def narrowMatch : ArithmeticMatch := ⟨⟨1⟩, some ⟨2⟩, ⟨3⟩, none, ⟨4⟩, none, ⟨4⟩⟩

theorem operands_narrowMatch : narrowing.get? narrowMatch.operator = some (.arithmetic .add .int) ∧
    ArithmeticMatch.operand narrowing .empty narrowMatch.left narrowMatch.leftConversion =
      .ok (.int 2, .int) ∧
    ArithmeticMatch.operand narrowing .empty narrowMatch.right narrowMatch.rightConversion =
      .ok (.int 3, .int) := by
  decide

theorem fold_narrowing : ∃ note, ArithmeticMatch.fold narrowing .empty narrowMatch =
    .ok (.folded narrowFolded ⟨#[none, some (.integer 5)]⟩ note) := by
  have folded : ArithmeticFolded narrowing .empty (narrowing.lines.toList.take 1)
      ⟨⟨⟨1⟩, .push (.int 2) .int, false⟩, some ⟨⟨2⟩, .convert .long .int, false⟩,
        ⟨⟨3⟩, .push (.int 3) .int, false⟩, none, ⟨⟨4⟩, .arithmetic .add .int, false⟩⟩
      (narrowing.lines.toList.drop 5) narrowFolded ⟨#[none, some (.integer 5)]⟩ :=
    ⟨.add, .int, (.int 2, .int), (.int 3, .int), .int 5, 1, rfl, by decide, by decide,
      by decide +kernel, by decide +kernel,
      ⟨rfl, Code.decode_distinct decode_narrowCode, ⟨by simp [narrowing], by decide⟩,
        by simp [Instruction.targets], rfl⟩⟩
  exact folded.fold_eq narrowMatch
    ⟨rfl, rfl, rfl, rfl, rfl, rfl, by simp [Instruction.isConversion], rfl, by simp, rfl⟩ rfl

theorem typed_narrowMatch : narrowMatch.Typed narrowing .empty := by
  obtain ⟨hop, hleft, hright⟩ := operands_narrowMatch
  refine .of_literals hop hleft hright rfl rfl ?_
  have hget : narrowing.get? ⟨1⟩ = some (.push (.int 2) .int) ∧
      narrowing.get? ⟨3⟩ = some (.push (.int 3) .int) := by decide
  simp [narrowMatch, hget.1, hget.2]

/-- The types of the operands after their conversions do not suffice. The fold forgets that the
conversion has taken the number below its operand, which stays on the stack then. -/
theorem fold_deepens_narrowing : ∃ result,
    narrowing.Derived ∧
    (FoldMatch.arithmetic narrowMatch).Folds (.start narrowing .empty {} "narrow()V") result ∧
    (FoldMatch.arithmetic narrowMatch).Typed narrowing .empty ∧
    narrowing.Levels .empty narrowDepth ∧ narrowing.Covered .empty narrowDepth ∧
    ¬ result.listing.Levels result.pool narrowDepth ∧
    ∃ deepest deepest', narrowing.maxStack .empty = .ok deepest ∧
      result.listing.maxStack result.pool = .ok deepest' ∧ deepest < deepest' := by
  obtain ⟨note, hfold⟩ := fold_narrowing
  have hmatch : arithmeticFold.matchAt? (narrowing.lines.toList.drop 1) = some narrowMatch := by
    decide
  obtain ⟨result, hrun, hlisting, hpool, -⟩ := arithmeticFold.run_of_folded 1 rfl (by decide)
    hmatch hfold (show (Session.start narrowing .empty {} "narrow()V").listing = _ from rfl) rfl
  have distinct := Code.decode_distinct decode_narrowCode
  have distinct' : narrowFolded.Distinct := by unfold Listing.Distinct; decide
  have old : narrowing.Checked .empty narrowDepth 2 :=
    Listing.checked_of_check distinct (by decide +kernel)
  have new : narrowFolded.Checked ⟨#[none, some (.integer 5)]⟩ narrowFoldedDepth 3 :=
    Listing.checked_of_check distinct' (by decide +kernel)
  have cut0 : narrowFolded.Cut [] ⟨⟨0⟩, .push (.int 1) .int, false⟩
      (⟨⟨1⟩, .loadConstant 1 false, false⟩ :: narrowFolded.lines.toList.drop 2) := rfl
  have cut1 :
      narrowFolded.Cut (narrowFolded.lines.toList.take 1) ⟨⟨1⟩, .loadConstant 1 false, false⟩
      (⟨⟨5⟩, .push (.int 1) .int, false⟩ :: narrowFolded.lines.toList.drop 3) := rfl
  have cut5 : narrowFolded.Cut (narrowFolded.lines.toList.take 2) ⟨⟨5⟩, .push (.int 1) .int, false⟩
      [⟨⟨6⟩, .other .voidReturn, false⟩] := rfl
  obtain ⟨hreachable, -⟩ := new.levels.advance distinct' cut0 (.head rfl) rfl rfl (by simp)
  obtain ⟨hpush, -⟩ := new.levels.advance distinct' cut1 hreachable rfl rfl (by simp)
  obtain ⟨hlast, -⟩ := new.levels.advance distinct' cut5 hpush rfl rfl (by simp)
  refine ⟨result, .decoded decode_narrowCode,
    ⟨hrun, ⟨narrowing.lines.toList.take 1, _, _, rfl, hmatch⟩, note, ?_⟩, typed_narrowMatch,
    old.levels, old.covered, ?_, ?_⟩
  · rw [hlisting, hpool]
    exact hfold
  · rw [hlisting, hpool]
    intro hlevels
    obtain ⟨-, hdepth⟩ := hlevels.advance distinct' cut1 hreachable rfl rfl (by simp)
    exact absurd hdepth (by decide)
  · obtain ⟨deepest, hmax, -, hattained⟩ := Listing.maxStack_of_levels distinct old.levels
      old.covered (fun level hm => Int.le_trans (old.depth_le level hm) (by decide))
    obtain ⟨deepest', hmax', hbound, -⟩ := Listing.maxStack_of_levels distinct' new.levels
      new.covered (fun level hm => Int.le_trans (new.depth_le level hm) (by decide))
    rw [hlisting, hpool]
    refine ⟨deepest, deepest', hmax, hmax', UInt16.lt_iff_toNat_lt.mpr ?_⟩
    have hdeep : (3 : Int) ≤ deepest'.toNat :=
      hbound 3 ⟨⟨6⟩, ⟨0, 0⟩, hlast, ⟨_, cut5.forth.get? distinct', rfl⟩, .inl rfl⟩
    rcases hattained with hzero | hattained
    · omega
    · have := old.depth_le _ hattained
      omega

end BytecodeFold
