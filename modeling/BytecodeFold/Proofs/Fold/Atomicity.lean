import BytecodeFold.Proofs.Execution.Preservation
import BytecodeFold.Proofs.Fold.Attempt

/-!
# Folds are atomic

A fold makes several edits: it adds a constant to the pool, replaces the left operand, and deletes
the lines after it. Here these edits are made in place, one by one, and none of them is undone when
a later one fails. A pass that works in this way still leaves listing and pool as they were unless
it folds, since after the checks at its start only the first of the edits can fail, and that one
leaves the pool alone if it does. A pass that folds has made one local rewrite.
-/

namespace BytecodeFold

/-! ## Editing in place -/

/-- The listing and the pool that folds edit. -/
structure Workspace where
  listing : Listing
  pool : ConstantPool

def Session.workspace (session : Session) : Workspace := ⟨session.listing, session.pool⟩

/-- Computations that edit a workspace. What was edited stays so after an error. -/
abbrev Editing := EStateM Error Workspace

namespace Editing

variable {α β : Type}

/-- A computation that edits nothing. -/
def lookUp (result : Except Error α) : Editing α := fun space =>
  match result with
  | .ok value => .ok value space
  | .error e => .error e space

def addNumber (number : Number) : Editing UInt16 := fun space =>
  match space.pool.addNumber number with
  | (.ok index, pool) => .ok index { space with pool }
  | (.error e, pool) => .error e { space with pool }

def set (handle : Handle) (code : Instruction Handle) : Editing Unit := fun space =>
  match space.listing.set handle code with
  | .ok (_, listing) => .ok () { space with listing }
  | .error e => .error e space

def deleteRange (start stop : Handle) : Editing Unit := fun space =>
  match space.listing.deleteRange start stop with
  | .ok listing => .ok () { space with listing }
  | .error e => .error e space

/-- Puts an instruction in the place of the lines from `first` through `last`, edit by edit. -/
def replaceSegment (first last : Handle) (produce : Editing (Instruction Handle)) :
    Editing Bool := do
  let listing := (← get).listing
  let some start := listing.next? first | throw (.invalidHandle first)
  let segment ← lookUp (listing.range start last)
  if (listing.externalReferrer? segment).isSome then
    return false
  let code ← produce
  set first code
  deleteRange start last
  return true

/-- Tries the matches in `lines` from the front until one is folded. -/
def scan (matchAt? : List Line → Option α) (attempt : α → Editing Bool) : List Line → Editing Bool
  | [] => return false
  | line :: rest => fun space =>
    match matchAt? (line :: rest) with
    | none => scan matchAt? attempt rest space
    | some found =>
      match attempt found space with
      | .ok true space => .ok true space
      | .ok false space => scan matchAt? attempt rest space
      | .error e space =>
        if e.isRecoverable then scan matchAt? attempt rest space else .error e space

/-- The pass of a rule whose attempts are made in place. -/
def pass (rule : FoldRule α) (attempt : α → Editing Bool) : Editing Bool := do
  scan rule.matchAt? attempt (← get).listing.lines.toList

theorem bind_of_ok {x : Editing α} {space next : Workspace} {value : α}
    (h : x space = .ok value next) (f : α → Editing β) : (x >>= f) space = f value next := by
  change EStateM.bind x f space = _
  rw [EStateM.bind, h]

theorem bind_of_error {x : Editing α} {space next : Workspace} {e : Error}
    (h : x space = .error e next) (f : α → Editing β) : (x >>= f) space = .error e next := by
  change EStateM.bind x f space = _
  rw [EStateM.bind, h]

theorem addNumber_of_ok {number : Number} {index : UInt16} {space : Workspace}
    {grown : ConstantPool} (h : space.pool.addNumber number = (.ok index, grown)) :
    addNumber number space = .ok index ⟨space.listing, grown⟩ := by
  rw [addNumber, h]

/-- A number that cannot be added leaves the pool as it was. -/
theorem addNumber_of_error {number : Number} {e : Error} {space : Workspace}
    (h : (space.pool.addNumber number).1 = .error e) : addNumber number space = .error e space := by
  obtain ⟨listing, pool⟩ := space
  rcases hadd : pool.addNumber number with ⟨added, grown⟩
  rw [hadd] at h
  cases h
  rw [addNumber, hadd, ConstantPool.eq_of_intern_error hadd]

theorem set_of_ok {handle : Handle} {code old : Instruction Handle} {space : Workspace}
    {listing : Listing} (h : space.listing.set handle code = .ok (old, listing)) :
    set handle code space = .ok () { space with listing } := by
  rw [set, h]

theorem deleteRange_of_ok {start stop : Handle} {space : Workspace} {listing : Listing}
    (h : space.listing.deleteRange start stop = .ok listing) :
    deleteRange start stop space = .ok () { space with listing } := by
  rw [deleteRange, h]

@[simp] theorem get_bind (f : Workspace → Editing β) (space : Workspace) :
    (get >>= f) space = f space space := rfl

@[simp] theorem lookUp_ok_bind (value : α) (f : α → Editing β) (space : Workspace) :
    (lookUp (.ok value) >>= f) space = f value space := rfl

end Editing

/-- The arithmetic fold, edit by edit. -/
def ArithmeticMatch.foldInPlace (found : ArithmeticMatch) : Editing Bool := do
  let ⟨listing, pool⟩ ← get
  let (left, leftType) ← Editing.lookUp (operand listing pool found.left found.leftConversion)
  let (right, rightType) ← Editing.lookUp (operand listing pool found.right found.rightConversion)
  if found.endsForeignLoop listing then
    return false
  let some (.arithmetic op _) := listing.get? found.operator
    | throw (.invalidOperand s!"{found.operator.text} is not an arithmetic instruction")
  let type := leftType.join rightType
  let some result ← Editing.lookUp (Number.evaluate op left right type) | return false
  Editing.replaceSegment found.left found.operator do
    return .loadConstant (← Editing.addNumber result) type.isWide

/-- The comparison fold, edit by edit. -/
def ComparisonMatch.foldInPlace (found : ComparisonMatch) : Editing Bool := do
  let ⟨listing, pool⟩ ← get
  let (left, _) ← Editing.lookUp (listing.operandValue pool found.left)
  let (right, _) ← Editing.lookUp (listing.operandValue pool found.right)
  let taken ← Editing.lookUp (found.taken listing left right)
  let selected := if taken then found.targetPush else found.fallthroughPush
  let some result := listing.get? selected | throw (.invalidHandle selected)
  Editing.replaceSegment found.left found.targetPush (return result)

/-! ## Edits that succeed or change nothing -/

/-- The outcome of an attempt as one of a computation in place. -/
def Workspace.settle (space : Workspace) :
    Except Error Attempt → EStateM.Result Error Workspace Bool
  | .ok (.folded listing pool _) => .ok true ⟨listing, pool⟩
  | .ok (.skipped _) => .ok false space
  | .error e => .error e space

variable {listing : Listing} {pool : ConstantPool} {session result : Session}

theorem Listing.Cut.get?_segment {before segment after : List Line} {line other : Line}
    (cut : listing.Cut before line (segment ++ after)) (distinct : listing.Distinct)
    (hm : other ∈ segment) : listing.get? other.handle = some other.instruction :=
  get?_of_mem distinct (cut.mem_after (List.mem_append_left _ hm))

open Listing in
/-- Once nothing refers to the lines that are to go, the edits after the replacement succeed. -/
theorem Editing.replaceSegment_eq {before segment after : List Line} {first last : Line}
    {replacement : Except Error (Instruction Handle × ConstantPool × String)}
    {produce : Editing (Instruction Handle)}
    (cut : listing.Cut before first (segment ++ after)) (hlast : segment.getLast? = some last)
    (distinct : listing.Distinct)
    (targets : ∀ code grown note, replacement = .ok (code, grown, note) → code.targets = [])
    (produces : ∀ code grown note, replacement = .ok (code, grown, note) →
      produce ⟨listing, pool⟩ = .ok code ⟨listing, grown⟩)
    (fails : ∀ e, replacement = .error e → produce ⟨listing, pool⟩ = .error e ⟨listing, pool⟩) :
    Editing.replaceSegment first.handle last.handle produce ⟨listing, pool⟩ =
      Workspace.settle ⟨listing, pool⟩
        (BytecodeFold.replaceSegment listing first.handle last.handle replacement) := by
  obtain ⟨start, hnext, hseg⟩ := cut.next_segment hlast distinct
  unfold Editing.replaceSegment
  simp only [get_bind, hnext, hseg.range_eq distinct, lookUp_ok_bind]
  rcases replaceSegment_cases cut hlast distinct targets with
    ⟨hshared, reason, hskipped⟩ | ⟨hfree, ⟨e, he, hfailed⟩ | ⟨folded, grown, note, hfolded⟩⟩
  · have hsome : (listing.externalReferrer? (segment.map (·.handle))).isSome = true := by
      rw [← Option.ne_none_iff_isSome]
      exact fun hnone => hshared (externalReferrer?_eq_none.mp hnone)
    rw [hskipped, if_pos hsome]
    rfl
  · rw [hfailed, externalReferrer?_eq_none.mpr hfree]
    exact bind_of_error (fails e he) _
  · rw [hfolded, externalReferrer?_eq_none.mpr hfree]
    -- the steps of the fold are those that the edits take
    simp only [BytecodeFold.replaceSegment, hnext, hseg.range_eq distinct, Outcome.ok_bind,
      externalReferrer?_eq_none.mpr hfree] at hfolded
    obtain ⟨⟨code, grown', note'⟩, hreplacement, hfolded⟩ := Outcome.bind_eq_ok.mp hfolded
    obtain ⟨⟨old, mid⟩, hset, hfolded⟩ := Outcome.bind_eq_ok.mp hfolded
    obtain ⟨rest, hdelete, hfolded⟩ := Outcome.bind_eq_ok.mp hfolded
    cases hfolded
    refine (bind_of_ok (produces code grown' note' hreplacement) _).trans ?_
    refine (bind_of_ok (set_of_ok hset) _).trans ?_
    exact bind_of_ok (deleteRange_of_ok hdelete) _

theorem ArithmeticMatch.foldInPlace_eq {before tail : List Line} {lines : ArithmeticLines}
    {found : ArithmeticMatch} (pool : ConstantPool)
    (cut : listing.Cut before lines.left (lines.segment ++ tail)) (distinct : listing.Distinct)
    (named : lines.Named found) :
    found.foldInPlace ⟨listing, pool⟩ =
      Workspace.settle ⟨listing, pool⟩ (ArithmeticMatch.fold listing pool found) := by
  unfold foldInPlace ArithmeticMatch.fold
  simp only [Editing.get_bind]
  cases operand listing pool found.left found.leftConversion with
  | error e => rfl
  | ok left =>
    cases operand listing pool found.right found.rightConversion with
    | error e => rfl
    | ok right =>
      simp only [Editing.lookUp_ok_bind, Outcome.ok_bind]
      by_cases hloop : found.endsForeignLoop listing = true
      · rw [if_pos hloop, if_pos hloop]
        rfl
      rw [if_neg hloop, if_neg hloop]
      obtain ⟨op, type, hop⟩ := Instruction.isArithmetic_eq named.operator_arithmetic
      have hget : listing.get? found.operator = some (.arithmetic op type) := by
        rw [named.operator, ← hop]
        exact cut.get?_segment distinct (by simp [ArithmeticLines.segment])
      rw [hget]
      dsimp only
      cases Number.evaluate op left.1 right.1 (left.2.join right.2) with
      | error e => rfl
      | ok value? =>
        cases value? with
        | none => rfl
        | some value =>
          simp only [Editing.lookUp_ok_bind, Outcome.ok_bind]
          rw [named.left, named.operator]
          refine Editing.replaceSegment_eq cut lines.getLast?_segment distinct ?_ ?_ ?_
          · intro code grown note h
            obtain ⟨index, -, h⟩ := Outcome.bind_eq_ok.mp h
            cases h
            rfl
          · intro code grown note h
            obtain ⟨index, hindex, h⟩ := Outcome.bind_eq_ok.mp h
            cases h
            exact Editing.bind_of_ok (Editing.addNumber_of_ok (Prod.ext hindex rfl)) _
          · intro e h
            rcases Outcome.bind_eq_error.mp h with h | ⟨index, -, h⟩
            · exact Editing.bind_of_error (Editing.addNumber_of_error h) _
            · cases h

theorem ComparisonMatch.foldInPlace_eq {before tail : List Line} {lines : ComparisonLines}
    {past : Handle} {found : ComparisonMatch} (pool : ConstantPool)
    (cut : listing.Cut before lines.left (lines.segment ++ tail)) (distinct : listing.Distinct)
    (named : lines.Named past found) :
    found.foldInPlace ⟨listing, pool⟩ =
      Workspace.settle ⟨listing, pool⟩ (ComparisonMatch.fold listing pool found) := by
  unfold foldInPlace ComparisonMatch.fold
  simp only [Editing.get_bind]
  cases listing.operandValue pool found.left with
  | error e => rfl
  | ok left =>
    cases listing.operandValue pool found.right with
    | error e => rfl
    | ok right =>
      simp only [Editing.lookUp_ok_bind, Outcome.ok_bind]
      cases found.taken listing left.1 right.1 with
      | error e => rfl
      | ok taken =>
        simp only [Editing.lookUp_ok_bind, Outcome.ok_bind]
        have hselected : ∃ code : Instruction Handle, code.targets = [] ∧
            listing.get? (if taken = true then found.targetPush else found.fallthroughPush) =
              some code := by
          rw [named.targetPush, named.fallthroughPush]
          cases taken with
          | true => exact ⟨_, Instruction.targets_of_isIntPush named.target_push,
              cut.get?_segment distinct (by simp [ComparisonLines.segment])⟩
          | false => exact ⟨_, Instruction.targets_of_isIntPush named.fallthrough_push,
              cut.get?_segment distinct (by simp [ComparisonLines.segment])⟩
        obtain ⟨code, htargets, hcode⟩ := hselected
        rw [hcode]
        dsimp only
        rw [named.left, named.targetPush]
        refine Editing.replaceSegment_eq cut lines.getLast?_segment distinct ?_ ?_ ?_
        · intro code' grown note h
          cases h
          exact htargets
        · intro code' grown note h
          cases h
          rfl
        · intro e h
          cases h

/-! ## Passes in place -/

/-- The outcome of a pass as one of a computation in place. -/
def Session.inPlace : Except Error Bool × Session → EStateM.Result Error Workspace Bool
  | (.ok folded, session) => .ok folded session.workspace
  | (.error e, session) => .error e session.workspace

/-- Attempts that change nothing unless they fold may be made in place. -/
theorem Editing.scan_eq {α : Type} {rule : FoldRule α} {attempt : α → Editing Bool}
    {lines : List Line}
    (attempts : ∀ skipped line rest found, lines = skipped ++ line :: rest →
      rule.matchAt? (line :: rest) = some found → attempt found session.workspace =
        session.workspace.settle (rule.attempt session.listing session.pool found)) :
    Editing.scan rule.matchAt? attempt lines session.workspace =
      Session.inPlace (rule.scan lines session) := by
  induction lines generalizing session with
  | nil => rfl
  | cons line rest ih =>
    have hrest : ∀ mid : Session, session.PassesOver mid →
        Editing.scan rule.matchAt? attempt rest session.workspace =
          Session.inPlace (rule.scan rest mid) := by
      intro mid hmid
      have hspace : mid.workspace = session.workspace := by
        rw [Session.workspace, Session.workspace, hmid.listing_eq, hmid.pool_eq]
      rw [← hspace]
      refine ih fun skipped other more found hlines hmatch => ?_
      rw [hspace, hmid.listing_eq, hmid.pool_eq]
      exact attempts (line :: skipped) other more found (congrArg (line :: ·) hlines) hmatch
    rw [Editing.scan, FoldRule.scan]
    cases hmatch : rule.matchAt? (line :: rest) with
    | none => exact hrest session (.refl session)
    | some found =>
      dsimp only
      rw [attempts [] line rest found rfl hmatch]
      cases rule.attempt session.listing session.pool found with
      | ok attempt =>
        cases attempt with
        | folded listing pool note => rfl
        | skipped reason => exact hrest _ (.skip session rule.name line.handle reason)
      | error e =>
        simp only [Workspace.settle]
        split
        · exact hrest _ (.skip session rule.name line.handle e.message)
        · rfl

theorem arithmeticFold_inPlace (distinct : session.listing.Distinct) :
    Editing.pass arithmeticFold ArithmeticMatch.foldInPlace session.workspace =
      Session.inPlace (arithmeticFold.pass.run session) := by
  rw [Editing.pass, Editing.get_bind]
  refine Editing.scan_eq fun before line rest found hlines hmatch => ?_
  obtain ⟨lines, tail, hshape, named, -⟩ := ArithmeticMatch.at?_eq_some hmatch
  rw [hshape] at hlines
  exact ArithmeticMatch.foldInPlace_eq session.pool hlines distinct named

theorem comparisonFold_inPlace (distinct : session.listing.Distinct) :
    Editing.pass comparisonFold ComparisonMatch.foldInPlace session.workspace =
      Session.inPlace (comparisonFold.pass.run session) := by
  rw [Editing.pass, Editing.get_bind]
  refine Editing.scan_eq fun before line rest found hlines hmatch => ?_
  obtain ⟨lines, after, tail, hshape, named⟩ := ComparisonMatch.at?_eq_some hmatch
  rw [hshape] at hlines
  exact ComparisonMatch.foldInPlace_eq session.pool hlines distinct named

/-- A pass that does not fold leaves listing and pool alone. -/
theorem FoldRule.workspace_eq {α : Type} {rule : FoldRule α} {outcome : Except Error Bool}
    (h : rule.pass.run session = (outcome, result)) (unfolded : outcome ≠ .ok true) :
    result.workspace = session.workspace := by
  have hover := passesOver_of_unfolded h unfolded
  rw [Session.workspace, Session.workspace, hover.listing_eq, hover.pool_eq]

/-! ## One local rewrite -/

/-- One line holds another instruction and the segment after it is gone. The lines around them are
as they were, and so are the exception handlers, and whatever is referred to is still there. -/
structure Listing.LocalRewrite (listing result : Listing) (before : List Line) (line : Line)
    (segment after : List Line) (code : Instruction Handle) : Prop where
  cut : listing.Cut before line (segment ++ after)
  result_cut : result.Cut before ⟨line.handle, code, false⟩ after
  handlers_eq : result.handlers = listing.handlers
  closed : ∀ handle, result.Mentions handle → handle ∈ result.handles

theorem Listing.Replaced.localRewrite {before segment after : List Line} {first : Line}
    {code : Instruction Handle} {folded : Listing}
    (replaced : listing.Replaced before first segment after code folded)
    (targets : code.targets = [])
    (closed : ∀ handle, listing.Mentions handle → handle ∈ listing.handles) :
    listing.LocalRewrite folded before first segment after code :=
  ⟨replaced.cut, replaced.result_cut, replaced.handlers_eq, replaced.closed targets closed⟩

/-- One arithmetic match became a load of its value from the pool, which has at most that value
more. -/
inductive ArithmeticRewrite (listing folded : Listing) (pool grown : ConstantPool) : Prop where
  | mk {before segment after : List Line} {line : Line} {found : ArithmeticMatch}
      {op : ArithmeticOp}
      {type : TypeTag} {left right : Number × TypeTag} {value : Number} {index : UInt16}
      (rewrite : listing.LocalRewrite folded before line segment after
        (.loadConstant index value.naturalType.isWide))
      (shape : ArithmeticMatch.at? (line :: (segment ++ after)) = some found)
      (start : found.left = line.handle) (removed : found.segment = segment.map (·.handle))
      (operator : listing.get? found.operator = some (.arithmetic op type))
      (left_eq : ArithmeticMatch.operand listing pool found.left found.leftConversion = .ok left)
      (right_eq : ArithmeticMatch.operand listing pool found.right found.rightConversion =
        .ok right)
      (value_eq : Number.evaluate op left.1 right.1 (left.2.join right.2) = .ok (some value))
      (held : grown.number index = .ok value)
      (growth : grown = pool ∨ pool.push (.ofNumber value) = (.ok index, grown)) :
      ArithmeticRewrite listing folded pool grown

/-- One comparison match became one of its two pushes. -/
inductive ComparisonRewrite (listing folded : Listing) : Prop where
  | mk {before segment after : List Line} {line : Line} {found : ComparisonMatch}
      {code : Instruction Handle}
      (rewrite : listing.LocalRewrite folded before line segment after code)
      (shape : ComparisonMatch.at? (line :: (segment ++ after)) = some found)
      (start : found.left = line.handle) (removed : found.segment = segment.map (·.handle))
      (push : code.isIntPush = true)
      (selected : listing.get? found.fallthroughPush = some code ∨
        listing.get? found.targetPush = some code) : ComparisonRewrite listing folded

theorem arithmeticFold_rewrites (distinct : session.listing.Distinct)
    (closed : ∀ handle, session.listing.Mentions handle → handle ∈ session.listing.handles)
    (built : session.pool.Built) (h : arithmeticFold.pass.run session = (.ok true, result)) :
    ArithmeticRewrite session.listing result.listing session.pool result.pool := by
  obtain ⟨before, line, rest, found, mid, note, hsplit, -, hmatch, hattempt, -⟩ :=
    FoldRule.scan_eq_true h
  obtain ⟨lines, tail, hlines, named, -⟩ := ArithmeticMatch.at?_eq_some hmatch
  rw [hlines] at hsplit hmatch
  have cut : session.listing.Cut before lines.left (lines.segment ++ tail) := hsplit
  obtain ⟨folded⟩ := ArithmeticMatch.fold_eq_folded cut distinct named hattempt
  have hrewrite := folded.replaced.localRewrite rfl closed
  rw [← Number.naturalType_of_join folded.value_eq] at hrewrite
  have hoperator :
      session.listing.get? found.operator = some (.arithmetic folded.op folded.type) := by
    rw [named.operator, cut.get?_segment distinct (by simp [ArithmeticLines.segment]),
      folded.operator_eq]
  refine .mk hrewrite hmatch named.left (ArithmeticMatch.segment_eq named) hoperator ?_ ?_
    folded.value_eq (ConstantPool.number_of_get? (ConstantPool.addNumber_spec built folded.added).2)
    (ConstantPool.intern_cases folded.added)
  · rw [named.left, named.leftConversion]
    exact ArithmeticMatch.operand_eq_converted folded.left_eq
      fun other hm => cut.get?_segment distinct
        (by simp [ArithmeticLines.segment, Option.mem_def.mp hm])
  · rw [named.right, named.rightConversion]
    exact ArithmeticMatch.operand_eq_converted folded.right_eq
      fun other hm => cut.get?_segment distinct
        (by simp [ArithmeticLines.segment, Option.mem_def.mp hm])

theorem comparisonFold_rewrites (distinct : session.listing.Distinct)
    (closed : ∀ handle, session.listing.Mentions handle → handle ∈ session.listing.handles)
    (h : comparisonFold.pass.run session = (.ok true, result)) :
    ComparisonRewrite session.listing result.listing ∧ result.pool = session.pool := by
  obtain ⟨before, line, rest, found, mid, note, hsplit, -, hmatch, hattempt, -⟩ :=
    FoldRule.scan_eq_true h
  obtain ⟨lines, following, tail, hlines, named⟩ := ComparisonMatch.at?_eq_some hmatch
  rw [hlines] at hsplit hmatch
  have cut : session.listing.Cut before lines.left (lines.segment ++ following :: tail) := hsplit
  obtain ⟨folded⟩ := ComparisonMatch.fold_eq_folded cut distinct named hattempt
  refine ⟨?_, folded.pool_eq⟩
  have hreplaced := folded.replaced
  cases htaken : folded.taken with
  | true =>
    rw [htaken] at hreplaced
    refine .mk (hreplaced.localRewrite (Instruction.targets_of_isIntPush named.target_push) closed)
      hmatch named.left (ComparisonMatch.segment_eq named) named.target_push (.inr ?_)
    rw [named.targetPush]
    exact cut.get?_segment distinct (by simp [ComparisonLines.segment])
  | false =>
    rw [htaken] at hreplaced
    refine .mk (hreplaced.localRewrite (Instruction.targets_of_isIntPush named.fallthrough_push)
      closed) hmatch named.left (ComparisonMatch.segment_eq named) named.fallthrough_push (.inl ?_)
    rw [named.fallthroughPush]
    exact cut.get?_segment distinct (by simp [ComparisonLines.segment])

/-- On a listing whose references are all to its own lines, both passes come to the same when their
edits are made in place. They change neither listing nor pool unless they fold, and then they have
made one local rewrite. -/
theorem passes_atomic (distinct : session.listing.Distinct)
    (closed : ∀ handle, session.listing.Mentions handle → handle ∈ session.listing.handles)
    (built : session.pool.Built) :
    (∀ outcome result, arithmeticFold.pass.run session = (outcome, result) →
      Editing.pass arithmeticFold ArithmeticMatch.foldInPlace session.workspace =
        Session.inPlace (outcome, result) ∧
      (outcome ≠ .ok true → result.workspace = session.workspace) ∧
      (outcome = .ok true →
        ArithmeticRewrite session.listing result.listing session.pool result.pool)) ∧
    ∀ outcome result, comparisonFold.pass.run session = (outcome, result) →
      Editing.pass comparisonFold ComparisonMatch.foldInPlace session.workspace =
        Session.inPlace (outcome, result) ∧
      (outcome ≠ .ok true → result.workspace = session.workspace) ∧
      (outcome = .ok true →
        ComparisonRewrite session.listing result.listing ∧ result.pool = session.pool) := by
  constructor
  · intro outcome result h
    refine ⟨h ▸ arithmeticFold_inPlace distinct, FoldRule.workspace_eq h, ?_⟩
    rintro rfl
    exact arithmeticFold_rewrites distinct closed built h
  · intro outcome result h
    refine ⟨h ▸ comparisonFold_inPlace distinct, FoldRule.workspace_eq h, ?_⟩
    rintro rfl
    exact comparisonFold_rewrites distinct closed h

theorem passes_atomic_mask : ∃ result,
    arithmeticFold.pass.run (.start maskListing .empty {} "mask()I") = (.ok true, result) ∧
      result.listing = maskFolded ∧
      ArithmeticRewrite maskListing result.listing .empty result.pool := by
  obtain ⟨result, hrun, hlisting⟩ := run_maskListing
  have regular := Listing.regular_of_decode decode_maskCode
  have hdistinct : (Session.start maskListing .empty {} "mask()I").listing.Distinct :=
    regular.distinct
  have hatomic := (passes_atomic hdistinct regular.closed .empty).1 _ _ hrun
  exact ⟨result, hrun, hlisting, hatomic.2.2 rfl⟩

end BytecodeFold
