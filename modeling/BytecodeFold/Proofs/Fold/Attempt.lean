import BytecodeFold.Proofs.ConstantPool.Growth
import BytecodeFold.Proofs.Fold.Scan
import BytecodeFold.Proofs.Fold.Shape

/-!
# What an attempt comes to

Both folds go about a match in the same way. They look up its two operands, decide by their values
whether there is something to fold, and replace the lines of the match unless one of them is
referred to from elsewhere. `AttemptEnds` says how this can end and under which conditions.
-/

namespace BytecodeFold

/-- How an attempt on a match ends. `verdict` tells by the values of the operands whether they can
be folded, and `free` says that nothing outside the match refers to the lines to be replaced. -/
inductive AttemptEnds (left right : Except Error (Number × TypeTag))
    (verdict : Number × TypeTag → Number × TypeTag → Except Error Bool) (free : Prop) :
    Except Error Attempt → Prop where
  | leftFails {e : Error} (hleft : left = .error e) : AttemptEnds left right verdict free (.error e)
  | rightFails {l : Number × TypeTag} {e : Error} (hleft : left = .ok l)
      (hright : right = .error e) :
      AttemptEnds left right verdict free (.error e)
  | unsupported {l r : Number × TypeTag} {e : Error} (hleft : left = .ok l) (hright : right = .ok r)
      (decided : verdict l r = .error e) : AttemptEnds left right verdict free (.error e)
  | declined {l r : Number × TypeTag} {reason : String} (hleft : left = .ok l)
      (hright : right = .ok r) (decided : verdict l r = .ok false) :
      AttemptEnds left right verdict free (.ok (.skipped reason))
  | referred {l r : Number × TypeTag} {reason : String} (hleft : left = .ok l)
      (hright : right = .ok r) (decided : verdict l r = .ok true) (shared : ¬ free) :
      AttemptEnds left right verdict free (.ok (.skipped reason))
  | overflowed {l r : Number × TypeTag} (hleft : left = .ok l) (hright : right = .ok r)
      (decided : verdict l r = .ok true) (unshared : free) :
      AttemptEnds left right verdict free (.error .poolOverflow)
  | folded {l r : Number × TypeTag} {listing : Listing} {pool : ConstantPool} {note : String}
      (hleft : left = .ok l) (hright : right = .ok r) (decided : verdict l r = .ok true)
      (unshared : free) : AttemptEnds left right verdict free (.ok (.folded listing pool note))

theorem AttemptEnds.of_replaceSegment {left right : Except Error (Number × TypeTag)}
    {verdict : Number × TypeTag → Number × TypeTag → Except Error Bool} {l r : Number × TypeTag}
    {listing : Listing} {before segment after : List Line} {first last : Line}
    {replacement : Except Error (Instruction Handle × ConstantPool × String)}
    (cut : listing.Cut before first (segment ++ after)) (hlast : segment.getLast? = some last)
    (distinct : listing.Distinct)
    (targets : ∀ code pool note, replacement = .ok (code, pool, note) → code.targets = [])
    (errors : ∀ e, replacement = .error e → e = .poolOverflow) (hleft : left = .ok l)
    (hright : right = .ok r) (decided : verdict l r = .ok true) :
    AttemptEnds left right verdict (listing.Unreferenced (segment.map (·.handle)))
      (replaceSegment listing first.handle last.handle replacement) := by
  rcases replaceSegment_cases cut hlast distinct targets with
    ⟨hshared, reason, hskipped⟩ | ⟨hfree, ⟨e, he, hfailed⟩ | ⟨result, pool, note, hfolded⟩⟩
  · rw [hskipped]
    exact .referred hleft hright decided hshared
  · rw [hfailed, errors e he]
    exact .overflowed hleft hright decided hfree
  · rw [hfolded]
    exact .folded hleft hright decided hfree

/-- An attempt fails where an operand does, for want of a verdict, or when the pool is full. -/
theorem AttemptEnds.error_cases {left right : Except Error (Number × TypeTag)}
    {verdict : Number × TypeTag → Number × TypeTag → Except Error Bool} {free : Prop} {e : Error}
    (h : AttemptEnds left right verdict free (.error e)) :
    left = .error e ∨ right = .error e ∨ (∃ l r, verdict l r = .error e) ∨ e = .poolOverflow := by
  cases h with
  | leftFails hleft => exact .inl hleft
  | rightFails _ hright => exact .inr (.inl hright)
  | unsupported _ _ decided => exact .inr (.inr (.inl ⟨_, _, decided⟩))
  | overflowed => exact .inr (.inr (.inr rfl))

/-- Errors for operations and comparisons that no constant folds. -/
def Error.isUnsupported : Error → Bool
  | unsupportedOperation _ | unsupportedComparison _ => true
  | _ => false

/-! ## Arithmetic -/

theorem Number.evaluate_eq_error {op : ArithmeticOp} {left right : Number} {type : TypeTag}
    {e : Error} (h : evaluate op left right type = .error e) : e.isUnsupported = true := by
  have hbitwise : ∀ op : ArithmeticOp, (bitwise op left right type).map some = .error e →
      e.isUnsupported = true := by
    intro op h
    unfold bitwise at h
    split at h
    · cases h
    · cases h
    · cases h
      rfl
  unfold evaluate at h
  dsimp only at h
  cases op with
  | add | sub | mul => cases h
  | div | rem =>
    dsimp only at h
    split at h <;> cases h
  | _ => exact hbitwise _ h

theorem Instruction.isArithmetic_eq {code : Instruction Handle} (h : code.isArithmetic = true) :
    ∃ op type, code = .arithmetic op type := by
  cases code <;> simp [isArithmetic] at h
  exact ⟨_, _, rfl⟩

/-- The value of an operand after the conversion at a handle, if there is one. -/
def Listing.convertedAt (listing : Listing) (conversion : Option Handle)
    (operand : Number × TypeTag) : Number × TypeTag :=
  match conversion.bind listing.get? with
  | some (.convert _ target) => (operand.1.convert target, target)
  | _ => operand

namespace ArithmeticMatch

variable {listing : Listing} {found : ArithmeticMatch}

/-- The handles after the left operand, through the operator. -/
def segment (found : ArithmeticMatch) : List Handle :=
  found.leftConversion.toList ++
    found.right :: (found.rightConversion.toList ++ [found.operator])

/-- Whether operands with these values can be folded: not at the end of another loop, and not when
the operation has no result. -/
def verdict (listing : Listing) (found : ArithmeticMatch) (left right : Number × TypeTag) :
    Except Error Bool :=
  if found.endsForeignLoop listing then .ok false
  else
    match listing.get? found.operator with
    | some (.arithmetic op _) =>
      let l := listing.convertedAt found.leftConversion left
      let r := listing.convertedAt found.rightConversion right
      Option.isSome <$> Number.evaluate op l.1 r.1 (l.2.join r.2)
    | _ => .ok false

theorem segment_eq {lines : ArithmeticLines} (named : lines.Named found) :
    found.segment = lines.segment.map (·.handle) := by
  rw [segment, named.leftConversion, named.right, named.rightConversion, named.operator,
    ArithmeticLines.segment]
  cases lines.leftConversion <;> cases lines.rightConversion <;> rfl

theorem operand_eq (pool : ConstantPool) (handle : Handle) (conversion : Option Handle) :
    ArithmeticMatch.operand listing pool handle conversion =
      listing.operandValue pool handle >>= fun value =>
        .ok (listing.convertedAt conversion value) := by
  unfold ArithmeticMatch.operand Listing.convertedAt
  cases conversion.bind listing.get? with
  | none => rfl
  | some code => cases code <;> rfl

/-- The conversion at a handle is that of the line it names. -/
theorem operand_eq_converted {pool : ConstantPool} {handle : Handle} {conversion : Option Line}
    {operand : Number × TypeTag} (hoperand : listing.operandValue pool handle = .ok operand)
    (hconversion : ∀ line ∈ conversion, listing.get? line.handle = some line.instruction) :
    ArithmeticMatch.operand listing pool handle (conversion.map (·.handle)) =
      .ok (converted conversion operand) := by
  rw [operand_eq, hoperand, Outcome.ok_bind, Listing.convertedAt, converted]
  cases conversion with
  | none => rfl
  | some line =>
    have hget := hconversion line rfl
    cases hcode : line.instruction <;>
      simp only [Option.map_some, Option.bind_some, hget, hcode]

theorem verdict_eq_error {left right : Number × TypeTag} {e : Error}
    (h : found.verdict listing left right = .error e) : e.isUnsupported = true := by
  unfold verdict at h
  split at h
  · cases h
  · split at h
    · exact Number.evaluate_eq_error (Outcome.map_eq_error.mp h)
    · cases h

theorem fold_ends (pool : ConstantPool) {before tail : List Line} {lines : ArithmeticLines}
    (cut : listing.Cut before lines.left (lines.segment ++ tail)) (distinct : listing.Distinct)
    (named : lines.Named found) :
    AttemptEnds (listing.operandValue pool found.left) (listing.operandValue pool found.right)
      (found.verdict listing) (listing.Unreferenced found.segment)
      (ArithmeticMatch.fold listing pool found) := by
  unfold ArithmeticMatch.fold
  simp only [operand_eq]
  cases hleft : listing.operandValue pool found.left with
  | error e => exact .leftFails rfl
  | ok left =>
    cases hright : listing.operandValue pool found.right with
    | error e => exact .rightFails rfl rfl
    | ok right =>
      simp only [Outcome.ok_bind]
      by_cases hloop : found.endsForeignLoop listing = true
      · rw [if_pos hloop]
        exact .declined rfl rfl (by rw [verdict, if_pos hloop])
      rw [if_neg hloop]
      obtain ⟨op, type, hop⟩ := Instruction.isArithmetic_eq named.operator_arithmetic
      have hget : listing.get? found.operator = some (.arithmetic op type) := by
        rw [named.operator, ← hop]
        exact Listing.get?_of_mem distinct (cut.mem_after (by simp [ArithmeticLines.segment]))
      have hverdict : found.verdict listing left right = Option.isSome <$> Number.evaluate op
          (listing.convertedAt found.leftConversion left).1
          (listing.convertedAt found.rightConversion right).1
          ((listing.convertedAt found.leftConversion left).2.join
            (listing.convertedAt found.rightConversion right).2) := by
        rw [verdict, if_neg hloop, hget]
      rw [hget]
      dsimp only
      cases hvalue : Number.evaluate op (listing.convertedAt found.leftConversion left).1
          (listing.convertedAt found.rightConversion right).1
          ((listing.convertedAt found.leftConversion left).2.join
            (listing.convertedAt found.rightConversion right).2) with
      | error e => exact .unsupported rfl rfl (by rw [hverdict, hvalue]; rfl)
      | ok value? =>
        rw [hvalue] at hverdict
        cases value? with
        | none => exact .declined rfl rfl hverdict
        | some value =>
          rw [named.left, named.operator, segment_eq named]
          refine .of_replaceSegment cut lines.getLast?_segment distinct ?_ ?_ rfl rfl hverdict
          · intro code pool' note h
            obtain ⟨index, -, h⟩ := Outcome.bind_eq_ok.mp h
            cases h
            rfl
          · intro e h
            rcases Outcome.bind_eq_error.mp h with h | ⟨index, -, h⟩
            · exact ConstantPool.eq_poolOverflow_of_intern h
            · cases h

end ArithmeticMatch

/-! ## Comparisons -/

namespace ComparisonMatch

variable {listing : Listing} {found : ComparisonMatch}

/-- The handles after the left operand, through the push the branch goes to. -/
def segment (found : ComparisonMatch) : List Handle :=
  found.right :: (found.comparison.toList ++
    [found.branch, found.fallthroughPush, found.jump, found.targetPush])

/-- Whether operands with these values can be folded: if it is known where the branch goes. -/
def verdict (listing : Listing) (found : ComparisonMatch) (left right : Number × TypeTag) :
    Except Error Bool :=
  (fun _ => true) <$> found.taken listing left.1 right.1

theorem segment_eq {lines : ComparisonLines} {past : Handle} (named : lines.Named past found) :
    found.segment = lines.segment.map (·.handle) := by
  rw [segment, named.right, named.comparison, named.branch, named.fallthroughPush, named.jump,
    named.targetPush, ComparisonLines.segment]
  cases lines.comparison <;> rfl

theorem verdict_eq_error {lines : ComparisonLines} {past : Handle} (named : lines.Named past found)
    (hbranch : listing.get? found.branch = some lines.branch.instruction)
    {left right : Number × TypeTag} {e : Error}
    (h : found.verdict listing left right = .error e) : e.isUnsupported = true := by
  obtain ⟨condition, hcondition⟩ := named.branch_eq
  rw [verdict, Outcome.map_eq_error, taken, hbranch, hcondition] at h
  dsimp only at h
  split at h <;> cases h
  rfl

theorem fold_ends (pool : ConstantPool) {before tail : List Line} {lines : ComparisonLines}
    {past : Handle}
    (cut : listing.Cut before lines.left (lines.segment ++ tail)) (distinct : listing.Distinct)
    (named : lines.Named past found) :
    AttemptEnds (listing.operandValue pool found.left) (listing.operandValue pool found.right)
      (found.verdict listing) (listing.Unreferenced found.segment)
      (ComparisonMatch.fold listing pool found) := by
  unfold ComparisonMatch.fold
  cases hleft : listing.operandValue pool found.left with
  | error e => exact .leftFails rfl
  | ok left =>
    cases hright : listing.operandValue pool found.right with
    | error e => exact .rightFails rfl rfl
    | ok right =>
      simp only [Outcome.ok_bind]
      cases htaken : found.taken listing left.1 right.1 with
      | error e => exact .unsupported rfl rfl (by rw [verdict, htaken]; rfl)
      | ok taken =>
        have hyes : found.verdict listing left right = .ok true := by
          rw [verdict, htaken]
          rfl
        simp only [Outcome.ok_bind]
        obtain ⟨code, hcode, htargets⟩ : ∃ code,
            listing.get? (if taken then found.targetPush else found.fallthroughPush) = some code ∧
              code.targets = [] := by
          rw [named.targetPush, named.fallthroughPush]
          cases taken
          · exact ⟨_,
              Listing.get?_of_mem distinct (cut.mem_after (by simp [ComparisonLines.segment])),
              Instruction.targets_of_isIntPush named.fallthrough_push⟩
          · exact ⟨_,
              Listing.get?_of_mem distinct (cut.mem_after (by simp [ComparisonLines.segment])),
              Instruction.targets_of_isIntPush named.target_push⟩
        rw [hcode]
        dsimp only
        rw [segment_eq named, named.left, named.targetPush]
        refine .of_replaceSegment cut lines.getLast?_segment distinct ?_ ?_ rfl rfl hyes
        · intro code' pool' note h
          cases h
          exact htargets
        · intro e h
          cases h

end ComparisonMatch

/-! ## The loops of the passes -/

theorem arithmeticFold_loops {session : Session} (distinct : session.listing.Distinct) :
    arithmeticFold.Loop (·.left) session.listing.head? session
      (arithmeticFold.pass.run session) := by
  refine FoldRule.run_loops (fun line rest found h => ?_) distinct
  obtain ⟨lines, tail, hstream, named, -⟩ := ArithmeticMatch.at?_eq_some h
  rw [named.left, (List.cons.inj hstream).1]

theorem comparisonFold_loops {session : Session} (distinct : session.listing.Distinct) :
    comparisonFold.Loop (·.left) session.listing.head? session
      (comparisonFold.pass.run session) := by
  refine FoldRule.run_loops (fun line rest found h => ?_) distinct
  obtain ⟨lines, after, tail, hstream, named⟩ := ComparisonMatch.at?_eq_some h
  rw [named.left, (List.cons.inj hstream).1]

end BytecodeFold
