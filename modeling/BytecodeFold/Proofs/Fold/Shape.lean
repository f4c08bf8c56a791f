import BytecodeFold.Fold.Arithmetic
import BytecodeFold.Fold.Comparison
import BytecodeFold.Proofs.Listing.Edit

/-!
# Matches as segments of the stream

A match names lines by their handles. Here it is read back as the lines themselves: operands,
conversions and operator of the arithmetic shape, and the branch with its two pushes of the
comparison shape. A successful fold is then a replacement of these lines.
-/

namespace BytecodeFold

theorem takeLine?_eq_some {accept : Instruction Handle → Bool} {lines rest : List Line}
    {handle : Handle} (h : takeLine? accept lines = some (handle, rest)) :
    ∃ line, lines = line :: rest ∧ accept line.instruction = true ∧ handle = line.handle := by
  cases lines with
  | nil => cases h
  | cons line lines =>
    rw [takeLine?] at h
    split at h
    case isTrue ha =>
      cases h
      exact ⟨line, rfl, ha, rfl⟩
    case isFalse => cases h

theorem takeOptional_eq {accept : Instruction Handle → Bool} {lines rest : List Line}
    {found : Option Handle} (h : takeOptional accept lines = (found, rest)) :
    ∃ optional : Option Line, lines = optional.toList ++ rest ∧
      found = optional.map (·.handle) ∧ ∀ line ∈ optional, accept line.instruction = true := by
  unfold takeOptional at h
  split at h
  case h_1 handle rest' ht =>
    cases h
    obtain ⟨line, rfl, ha, rfl⟩ := takeLine?_eq_some ht
    exact ⟨some line, rfl, rfl, by simpa using ha⟩
  case h_2 =>
    cases h
    exact ⟨none, rfl, rfl, by simp⟩

/-! ## Arithmetic -/

/-- The lines of an arithmetic match, from its left operand through its operator. -/
structure ArithmeticLines where
  left : Line
  leftConversion : Option Line
  right : Line
  rightConversion : Option Line
  operator : Line

namespace ArithmeticLines

/-- The lines after the left operand. -/
def segment (lines : ArithmeticLines) : List Line :=
  lines.leftConversion.toList ++ lines.right :: (lines.rightConversion.toList ++ [lines.operator])

/-- The lines have the kinds of the shape, and the match names them. -/
structure Named (lines : ArithmeticLines) (found : ArithmeticMatch) : Prop where
  left : found.left = lines.left.handle
  leftConversion : found.leftConversion = lines.leftConversion.map (·.handle)
  right : found.right = lines.right.handle
  rightConversion : found.rightConversion = lines.rightConversion.map (·.handle)
  operator : found.operator = lines.operator.handle
  left_operand : lines.left.instruction.isOperand = true
  left_conversion : ∀ line ∈ lines.leftConversion, line.instruction.isConversion = true
  right_operand : lines.right.instruction.isOperand = true
  right_conversion : ∀ line ∈ lines.rightConversion, line.instruction.isConversion = true
  operator_arithmetic : lines.operator.instruction.isArithmetic = true

theorem getLast?_segment (lines : ArithmeticLines) :
    lines.segment.getLast? = some lines.operator := by
  rw [segment, ← List.cons_append, ← List.append_assoc, List.getLast?_concat]

end ArithmeticLines

theorem ArithmeticMatch.at?_eq_some {stream : List Line} {found : ArithmeticMatch}
    (h : ArithmeticMatch.at? stream = some found) :
    ∃ (lines : ArithmeticLines) (tail : List Line),
      stream = lines.left :: (lines.segment ++ tail) ∧ lines.Named found ∧
        found.loopTail = loopTail? (tail.dropWhile (·.instruction.isInvokeVirtual)) none := by
  simp only [ArithmeticMatch.at?, Option.bind_eq_bind, Option.pure_def] at h
  obtain ⟨⟨l, rest⟩, hl, h⟩ := Option.bind_eq_some_iff.mp h
  obtain ⟨left, rfl, hleft, rfl⟩ := takeLine?_eq_some hl
  rcases hc : takeOptional Instruction.isConversion rest with ⟨lc, rest'⟩
  obtain ⟨leftConversion, rfl, rfl, hlc⟩ := takeOptional_eq hc
  rw [hc] at h
  obtain ⟨⟨r, rest'⟩, hr, h⟩ := Option.bind_eq_some_iff.mp h
  obtain ⟨right, hrest, hright, rfl⟩ := takeLine?_eq_some hr
  rcases hc' : takeOptional Instruction.isConversion rest' with ⟨rc, rest''⟩
  obtain ⟨rightConversion, rfl, rfl, hrc⟩ := takeOptional_eq hc'
  rw [hc'] at h
  obtain ⟨⟨o, tail⟩, ho, h⟩ := Option.bind_eq_some_iff.mp h
  obtain ⟨operator, hrest', hop, rfl⟩ := takeLine?_eq_some ho
  cases h
  dsimp only at hrest hrest'
  refine ⟨⟨left, leftConversion, right, rightConversion, operator⟩, tail, ?_,
    ⟨rfl, rfl, rfl, rfl, rfl, hleft, hlc, hright, hrc, hop⟩, rfl⟩
  rw [hrest, hrest']
  simp [ArithmeticLines.segment]

/-- The value of an operand after the conversion that follows it, if one does. -/
def converted (conversion : Option Line) (operand : Number × TypeTag) : Number × TypeTag :=
  match conversion.map Line.instruction with
  | some (.convert _ target) => (operand.1.convert target, target)
  | _ => operand

theorem ArithmeticMatch.operand_eq_ok {listing : Listing} {pool : ConstantPool} {handle : Handle}
    {conversion : Option Line} {result : Number × TypeTag}
    (hc : ∀ line ∈ conversion, listing.get? line.handle = some line.instruction)
    (h : ArithmeticMatch.operand listing pool handle (conversion.map (·.handle)) = .ok result) :
    ∃ operand, listing.operandValue pool handle = .ok operand ∧
      result = converted conversion operand := by
  obtain ⟨⟨value, type⟩, hv, h⟩ := Outcome.bind_eq_ok.mp h
  refine ⟨(value, type), hv, ?_⟩
  cases conversion with
  | none =>
    cases h
    rfl
  | some line =>
    simp only [Option.map_some, Option.bind_some, hc line rfl] at h
    simp only [converted, Option.map_some]
    generalize line.instruction = code at h
    cases code <;> cases h <;> rfl

/-- What a successful fold of an arithmetic match did. -/
structure ArithmeticFolded (listing : Listing) (pool : ConstantPool) (before : List Line)
    (lines : ArithmeticLines) (tail : List Line) (result : Listing) (grown : ConstantPool) where
  op : ArithmeticOp
  type : TypeTag
  left : Number × TypeTag
  right : Number × TypeTag
  value : Number
  index : UInt16
  operator_eq : lines.operator.instruction = .arithmetic op type
  left_eq : listing.operandValue pool lines.left.handle = .ok left
  right_eq : listing.operandValue pool lines.right.handle = .ok right
  value_eq : Number.evaluate op (converted lines.leftConversion left).1
    (converted lines.rightConversion right).1
    ((converted lines.leftConversion left).2.join (converted lines.rightConversion right).2) =
      .ok (some value)
  added : pool.addNumber value = (.ok index, grown)
  replaced : listing.Replaced before lines.left lines.segment tail
    (.loadConstant index ((converted lines.leftConversion left).2.join
      (converted lines.rightConversion right).2).isWide) result

theorem ArithmeticMatch.fold_eq_folded {listing result : Listing} {pool grown : ConstantPool}
    {before tail : List Line} {lines : ArithmeticLines} {found : ArithmeticMatch} {note : String}
    (cut : listing.Cut before lines.left (lines.segment ++ tail)) (distinct : listing.Distinct)
    (named : lines.Named found)
    (h : ArithmeticMatch.fold listing pool found = .ok (.folded result grown note)) :
    Nonempty (ArithmeticFolded listing pool before lines tail result grown) := by
  have hget : ∀ line ∈ lines.segment, listing.get? line.handle = some line.instruction := by
    intro line hm
    exact Listing.get?_of_mem distinct (cut.mem_after (List.mem_append_left _ hm))
  rw [ArithmeticMatch.fold, named.left, named.leftConversion, named.right, named.rightConversion,
    named.operator] at h
  obtain ⟨left', hl, h⟩ := Outcome.bind_eq_ok.mp h
  obtain ⟨left, hlv, rfl⟩ := operand_eq_ok
    (fun line hm => hget line (by simp [ArithmeticLines.segment, Option.mem_def.mp hm])) hl
  obtain ⟨right', hr, h⟩ := Outcome.bind_eq_ok.mp h
  obtain ⟨right, hrv, rfl⟩ := operand_eq_ok
    (fun line hm => hget line (by simp [ArithmeticLines.segment, Option.mem_def.mp hm])) hr
  dsimp only at h
  split at h
  · cases h
  obtain ⟨op, type, hop⟩ : ∃ op type, lines.operator.instruction = .arithmetic op type := by
    have ha := named.operator_arithmetic
    cases hi : lines.operator.instruction <;> simp [hi, Instruction.isArithmetic] at ha
    exact ⟨_, _, rfl⟩
  rw [hget lines.operator (by simp [ArithmeticLines.segment]), hop] at h
  obtain ⟨value?, hv, h⟩ := Outcome.bind_eq_ok.mp h
  cases value? with
  | none => cases h
  | some value =>
    obtain ⟨code, hcode, hreplaced⟩ :=
      (replaceSegment_eq_folded cut lines.getLast?_segment distinct).mp h
    obtain ⟨index, hindex, hcode⟩ := Outcome.bind_eq_ok.mp hcode
    cases hcode
    exact ⟨⟨op, type, left, right, value, index, hop, hlv, hrv, hv, by rw [← hindex],
      hreplaced⟩⟩

theorem ArithmeticMatch.operand_converted {listing : Listing} {pool : ConstantPool}
    {handle : Handle} {operand : Number × TypeTag} (conversion : Option Line)
    (hc : ∀ line ∈ conversion, listing.get? line.handle = some line.instruction)
    (h : listing.operandValue pool handle = .ok operand) :
    ArithmeticMatch.operand listing pool handle (conversion.map (·.handle)) =
      .ok (converted conversion operand) := by
  refine Outcome.bind_eq_ok.mpr ⟨operand, h, ?_⟩
  cases conversion with
  | none => rfl
  | some line =>
    simp only [Option.map_some, Option.bind_some, hc line rfl, converted]
    generalize line.instruction = code
    cases code <;> rfl

/-- A match folds if its operands have values and its lines can be replaced by the result. -/
theorem ArithmeticFolded.fold_eq {listing result : Listing} {pool grown : ConstantPool}
    {before tail : List Line} {lines : ArithmeticLines}
    (folded : ArithmeticFolded listing pool before lines tail result grown)
    (found : ArithmeticMatch)
    (named : lines.Named found) (calm : found.endsForeignLoop listing = false) :
    ∃ note, ArithmeticMatch.fold listing pool found = .ok (.folded result grown note) := by
  have distinct := folded.replaced.distinct
  have hget : ∀ line ∈ lines.segment, listing.get? line.handle = some line.instruction := by
    intro line hm
    exact Listing.get?_of_mem distinct
      (folded.replaced.cut.mem_after (List.mem_append_left _ hm))
  have hleft := ArithmeticMatch.operand_converted lines.leftConversion
    (fun line hm => hget line (by simp [ArithmeticLines.segment, Option.mem_def.mp hm]))
    folded.left_eq
  have hright := ArithmeticMatch.operand_converted lines.rightConversion
    (fun line hm => hget line (by simp [ArithmeticLines.segment, Option.mem_def.mp hm]))
    folded.right_eq
  have hoperator := hget lines.operator (by simp [ArithmeticLines.segment])
  rw [folded.operator_eq] at hoperator
  unfold ArithmeticMatch.fold
  rw [calm, named.left, named.leftConversion, named.right, named.rightConversion, named.operator]
  simp only [hleft, hright, hoperator, Outcome.ok_bind, folded.value_eq, folded.added,
    Outcome.pure_eq_ok, Bool.false_eq_true, if_false]
  exact ⟨_, (replaceSegment_eq_folded folded.replaced.cut lines.getLast?_segment distinct).mpr
    ⟨_, rfl, folded.replaced⟩⟩

/-! ## Comparisons -/

/-- The lines of a comparison match, from its left operand through the push the branch goes
to. -/
structure ComparisonLines where
  left : Line
  right : Line
  comparison : Option Line
  branch : Line
  fallthroughPush : Line
  jump : Line
  targetPush : Line

namespace ComparisonLines

/-- The lines after the left operand. -/
def segment (lines : ComparisonLines) : List Line :=
  lines.right :: (lines.comparison.toList ++
    [lines.branch, lines.fallthroughPush, lines.jump, lines.targetPush])

/-- The lines have the kinds of the shape, and the match names them. The jump goes to `past`. -/
structure Named (lines : ComparisonLines) (past : Handle) (found : ComparisonMatch) : Prop where
  left : found.left = lines.left.handle
  right : found.right = lines.right.handle
  comparison : found.comparison = lines.comparison.map (·.handle)
  branch : found.branch = lines.branch.handle
  fallthroughPush : found.fallthroughPush = lines.fallthroughPush.handle
  jump : found.jump = lines.jump.handle
  targetPush : found.targetPush = lines.targetPush.handle
  left_operand : lines.left.instruction.isOperand = true
  right_operand : lines.right.instruction.isOperand = true
  comparison_kind : ∀ line ∈ lines.comparison, line.instruction.isComparison = true
  branch_eq : ∃ condition, lines.branch.instruction = .branch condition lines.targetPush.handle
  fallthrough_push : lines.fallthroughPush.instruction.isIntPush = true
  jump_eq : lines.jump.instruction = .jump past
  target_push : lines.targetPush.instruction.isIntPush = true

theorem getLast?_segment (lines : ComparisonLines) :
    lines.segment.getLast? = some lines.targetPush := by
  have he : lines.segment = lines.right :: (lines.comparison.toList ++
      [lines.branch, lines.fallthroughPush, lines.jump]) ++ [lines.targetPush] := by
    simp [segment]
  rw [he, List.getLast?_concat]

end ComparisonLines

theorem ComparisonMatch.selection?_eq_some {count : Nat} {stream : List Line}
    {branch first jump second : Handle}
    (h : ComparisonMatch.selection? count stream = some (branch, first, jump, second)) :
    ∃ b f j s after tail condition, stream = b :: f :: j :: s :: after :: tail ∧
      branch = b.handle ∧ first = f.handle ∧ jump = j.handle ∧ second = s.handle ∧
      b.instruction = .branch condition s.handle ∧ f.instruction.isIntPush = true ∧
      j.instruction = .jump after.handle ∧ s.instruction.isIntPush = true := by
  unfold ComparisonMatch.selection? at h
  split at h
  case h_1 b condition target lb f j past lj s after tail =>
    split at h
    case isTrue hc =>
      cases h
      simp only [Bool.and_eq_true, decide_eq_true_eq] at hc
      obtain ⟨⟨⟨⟨-, hf⟩, hs⟩, rfl⟩, rfl⟩ := hc
      exact ⟨_, f, _, s, after, tail, condition, rfl, rfl, rfl, rfl, rfl, rfl, hf, rfl, hs⟩
    case isFalse => cases h
  case h_2 => cases h

theorem ComparisonMatch.at?_eq_some {stream : List Line} {found : ComparisonMatch}
    (h : ComparisonMatch.at? stream = some found) :
    ∃ (lines : ComparisonLines) (after : Line) (tail : List Line),
      stream = lines.left :: (lines.segment ++ after :: tail) ∧ lines.Named after.handle found := by
  simp only [ComparisonMatch.at?, Option.bind_eq_bind, Option.pure_def] at h
  obtain ⟨⟨l, rest⟩, hl, hrest⟩ := Option.bind_eq_some_iff.mp h
  obtain ⟨left, rfl, hleft, rfl⟩ := takeLine?_eq_some hl
  obtain ⟨⟨r, rest'⟩, hr, htail⟩ := Option.bind_eq_some_iff.mp hrest
  obtain ⟨right, he, hright, rfl⟩ := takeLine?_eq_some hr
  dsimp only at he htail
  rcases hc : takeOptional Instruction.isComparison rest' with ⟨c, rest''⟩
  obtain ⟨comparison, hrest', rfl, hcomparison⟩ := takeOptional_eq hc
  rw [hc] at htail
  obtain ⟨⟨b, f, j, s⟩, hs, hfields⟩ := Option.bind_eq_some_iff.mp htail
  obtain ⟨branch, first, jump, second, after, tail, condition, rfl, rfl, rfl, rfl, rfl, hb, hf,
    hj, ht⟩ := ComparisonMatch.selection?_eq_some hs
  cases hfields
  refine ⟨⟨left, right, comparison, branch, first, jump, second⟩, after, tail, ?_,
    rfl, rfl, rfl, rfl, rfl, rfl, rfl, hleft, hright, hcomparison, ⟨condition, hb⟩, hf, hj, ht⟩
  rw [he, hrest']
  simp [ComparisonLines.segment]

theorem Instruction.targets_of_isIntPush {τ : Type} {code : Instruction τ}
    (h : code.isIntPush = true) : code.targets = [] := by
  cases code <;> first | rfl | cases h

/-- Whether a branch on two numbers is taken, given the comparison in front of it, if any. -/
inductive ComparisonTaken (left right : Number) : Option Line → Condition → Bool → Prop where
  | direct (relation : Relation) : ComparisonTaken left right none (.intCompare relation)
      (relation.holds (compare left.toInt.toInt right.toInt.toInt))
  | threeWay (line : Line) (kind : CompareKind) (relation : Relation)
      (h : line.instruction = .compare kind) : ComparisonTaken left right (some line)
      (.zero relation) (relation.holds (compare (Number.compareThreeWay kind left right) 0))

theorem ComparisonMatch.taken_eq_ok {listing : Listing} {found : ComparisonMatch}
    {lines : ComparisonLines} {past : Handle} {left right : Number} {result : Bool}
    (hget : ∀ line ∈ lines.segment, listing.get? line.handle = some line.instruction)
    (named : lines.Named past found)
    (h : ComparisonMatch.taken listing found left right = .ok result) :
    ∃ condition, lines.branch.instruction = .branch condition lines.targetPush.handle ∧
      ComparisonTaken left right lines.comparison condition result := by
  obtain ⟨condition, hcondition⟩ := named.branch_eq
  refine ⟨condition, hcondition, ?_⟩
  rw [ComparisonMatch.taken, named.branch, named.comparison,
    hget lines.branch (by simp [ComparisonLines.segment]), hcondition] at h
  cases hc : lines.comparison with
  | none =>
    rw [hc] at h
    cases condition with
    | intCompare relation =>
      cases h
      exact .direct relation
    | _ => cases h
  | some line =>
    obtain ⟨kind, hk⟩ : ∃ kind, line.instruction = .compare kind := by
      have hk := named.comparison_kind line hc
      cases hi : line.instruction <;> simp [hi, Instruction.isComparison] at hk
      exact ⟨_, rfl⟩
    have hline : listing.get? line.handle = some line.instruction :=
      hget line (by simp [ComparisonLines.segment, hc])
    rw [hc, Option.map_some, Option.bind_some, hline, hk] at h
    cases condition with
    | zero relation =>
      cases h
      exact .threeWay line kind relation hk
    | _ => cases h

/-- What a successful fold of a comparison match did. -/
structure ComparisonFolded (listing : Listing) (pool : ConstantPool) (before : List Line)
    (lines : ComparisonLines) (tail : List Line) (result : Listing) (grown : ConstantPool) where
  left : Number × TypeTag
  right : Number × TypeTag
  condition : Condition
  taken : Bool
  left_eq : listing.operandValue pool lines.left.handle = .ok left
  right_eq : listing.operandValue pool lines.right.handle = .ok right
  branch_eq : lines.branch.instruction = .branch condition lines.targetPush.handle
  taken_eq : ComparisonTaken left.1 right.1 lines.comparison condition taken
  pool_eq : grown = pool
  replaced : listing.Replaced before lines.left lines.segment tail
    (if taken then lines.targetPush else lines.fallthroughPush).instruction result

theorem ComparisonMatch.fold_eq_folded {listing result : Listing} {pool grown : ConstantPool}
    {before tail : List Line} {lines : ComparisonLines} {past : Handle} {found : ComparisonMatch}
    {note : String} (cut : listing.Cut before lines.left (lines.segment ++ tail))
    (distinct : listing.Distinct) (named : lines.Named past found)
    (h : ComparisonMatch.fold listing pool found = .ok (.folded result grown note)) :
    Nonempty (ComparisonFolded listing pool before lines tail result grown) := by
  have hget : ∀ line ∈ lines.segment, listing.get? line.handle = some line.instruction := by
    intro line hm
    exact Listing.get?_of_mem distinct (cut.mem_after (List.mem_append_left _ hm))
  rw [ComparisonMatch.fold, named.left, named.right] at h
  obtain ⟨left, hl, h⟩ := Outcome.bind_eq_ok.mp h
  obtain ⟨right, hr, h⟩ := Outcome.bind_eq_ok.mp h
  obtain ⟨taken, ht, h⟩ := Outcome.bind_eq_ok.mp h
  obtain ⟨condition, hcondition, htaken⟩ := taken_eq_ok hget named ht
  have hselected : listing.get? (if taken then found.targetPush else found.fallthroughPush) =
      some (if taken then lines.targetPush else lines.fallthroughPush).instruction := by
    rw [named.targetPush, named.fallthroughPush]
    cases taken
    · exact hget _ (by simp [ComparisonLines.segment])
    · exact hget _ (by simp [ComparisonLines.segment])
  dsimp only at h
  rw [hselected] at h
  rw [named.targetPush] at h
  obtain ⟨code, hcode, hreplaced⟩ :=
    (replaceSegment_eq_folded cut lines.getLast?_segment distinct).mp h
  cases hcode
  exact ⟨⟨left, right, condition, taken, hl, hr, hcondition, htaken, rfl, hreplaced⟩⟩

end BytecodeFold
