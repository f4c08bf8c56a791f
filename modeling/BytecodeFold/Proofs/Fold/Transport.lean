import BytecodeFold.Proofs.Fold.Attempt
import BytecodeFold.Proofs.Fold.Resolve
import BytecodeFold.Proofs.Fold.Run

/-!
# Idle passes under new handles

Whether a match is passed over does not depend on what the handles are called, nor on what a pool
holds besides the entries that are looked at. A pass that is idle on a listing stays idle when the
handles are replaced and the pool grows.
-/

namespace BytecodeFold

variable {f : Handle → Handle} {pool grown : ConstantPool}

/-- The computation succeeds, or fails with an error that a scan passes over. -/
def Recoverable {α : Type} (outcome : Except Error α) : Prop :=
  ∀ e, outcome = .error e → e.isRecoverable = true

theorem Error.isRecoverable_of_isUnsupported {e : Error} (h : e.isUnsupported = true) :
    e.isRecoverable = false := by
  cases e <;> first | rfl | cases h

/-! ## Attempts that are passed over -/

/-- Why a scan passes over an attempt. -/
inductive Blocked (left right : Except Error (Number × TypeTag))
    (verdict : Number × TypeTag → Number × TypeTag → Except Error Bool) (free : Prop) : Prop where
  | leftFails {e : Error} (hleft : left = .error e) (recoverable : e.isRecoverable = true)
  | rightFails {l : Number × TypeTag} {e : Error} (hleft : left = .ok l) (hright : right = .error e)
      (recoverable : e.isRecoverable = true)
  | declined {l r : Number × TypeTag} (hleft : left = .ok l) (hright : right = .ok r)
      (decided : verdict l r = .ok false)
  | referred {l r : Number × TypeTag} (hleft : left = .ok l) (hright : right = .ok r)
      (decided : verdict l r = .ok true) (shared : ¬ free)

section

variable {left right left' right' : Except Error (Number × TypeTag)}
  {verdict verdict' : Number × TypeTag → Number × TypeTag → Except Error Bool} {free free' : Prop}
  {outcome : Except Error Attempt}

theorem AttemptEnds.blocked (h : AttemptEnds left right verdict free outcome)
    (unsupported : ∀ l r e, verdict l r = .error e → e.isUnsupported = true)
    (passed : PassedOver outcome) : Blocked left right verdict free := by
  cases passed with
  | skipped reason =>
    cases h with
    | declined hleft hright decided => exact .declined hleft hright decided
    | referred hleft hright decided shared => exact .referred hleft hright decided shared
  | failed recoverable =>
    cases h with
    | leftFails hleft => exact .leftFails hleft recoverable
    | rightFails hleft hright => exact .rightFails hleft hright recoverable
    | unsupported _ _ decided =>
      rw [Error.isRecoverable_of_isUnsupported (unsupported _ _ _ decided)] at recoverable
      cases recoverable
    | overflowed => cases recoverable

theorem AttemptEnds.passedOver (h : AttemptEnds left right verdict free outcome)
    (blocked : Blocked left right verdict free) : PassedOver outcome := by
  cases h with
  | declined => exact .skipped _
  | referred => exact .skipped _
  | leftFails hl =>
    cases blocked with
    | leftFails hleft recoverable =>
      cases hl.symm.trans hleft
      exact .failed recoverable
    | _ hleft => cases hl.symm.trans hleft
  | rightFails hl hr =>
    cases blocked with
    | rightFails hleft hright recoverable =>
      cases hr.symm.trans hright
      exact .failed recoverable
    | leftFails hleft => cases hl.symm.trans hleft
    | _ hleft hright => cases hr.symm.trans hright
  | unsupported hl hr hd =>
    -- the verdict was an error, and what blocks is a verdict or an operand that fails
    cases blocked <;> grind
  | overflowed hl hr hd hfree | folded hl hr hd hfree =>
    cases blocked <;> grind

/-- What blocks an attempt blocks every attempt with the same operands, verdict and references. -/
theorem Blocked.transport (h : Blocked left right verdict free)
    (hleft : Recoverable left → left' = left) (hright : Recoverable right → right' = right)
    (hfree : free' ↔ free) : Blocked left' right' verdict free' := by
  have hok : ∀ (x : Except Error (Number × TypeTag)) (l : Number × TypeTag), x = .ok l →
      Recoverable x := by
    intro x l hx e he
    cases hx.symm.trans he
  have herror : ∀ (x : Except Error (Number × TypeTag)) (e : Error), x = .error e →
      e.isRecoverable = true → Recoverable x := by
    intro x e hx hrecoverable e' he
    cases hx.symm.trans he
    exact hrecoverable
  cases h with
  | leftFails hl recoverable =>
    exact .leftFails ((hleft (herror _ _ hl recoverable)).trans hl) recoverable
  | rightFails hl hr recoverable =>
    exact .rightFails ((hleft (hok _ _ hl)).trans hl)
      ((hright (herror _ _ hr recoverable)).trans hr) recoverable
  | declined hl hr decided =>
    exact .declined ((hleft (hok _ _ hl)).trans hl) ((hright (hok _ _ hr)).trans hr) decided
  | referred hl hr decided shared =>
    exact .referred ((hleft (hok _ _ hl)).trans hl) ((hright (hok _ _ hr)).trans hr) decided
      fun hfree' => shared (hfree.mp hfree')

end

/-! ## Operands -/

theorem ConstantPool.Extends.number_eq (extended : pool.Extends grown) {index : UInt16}
    (recoverable : Recoverable (pool.number index)) : grown.number index = pool.number index := by
  cases hentry : pool.entry index with
  | ok entry => rw [number, number, hentry, extended.entry_eq_ok hentry]
  | error e =>
    have he : e.isRecoverable = true := recoverable e (by rw [number, hentry]; rfl)
    unfold entry at hentry
    split at hentry <;> cases hentry
    cases he

namespace Listing

variable {listing renamed : Listing} {handle : Handle} {slot : UInt16}

theorem literal?_renames (extended : pool.Extends grown) {code : Instruction Handle}
    (recoverable : Recoverable (literal? pool code)) :
    literal? grown (code.mapTargets f) = literal? pool code := by
  cases code with
  | loadConstant index wide =>
    have hnumber : Recoverable (pool.number index) := fun e he => recoverable e (by
      rw [literal?, he]
      rfl)
    rw [Instruction.mapTargets, literal?, literal?, extended.number_eq hnumber]
  | _ => rfl

namespace Renames

theorem mergePoint_iff (h : Renames f listing renamed) (mentions : listing.Mentions handle) :
    renamed.MergePoint (f handle) ↔ listing.MergePoint handle := by
  constructor
  · intro hpoint
    generalize hg : f handle = handle' at hpoint
    cases hpoint with
    | target hm' ht' =>
      obtain ⟨line, hm, hline⟩ := Outcome.exists_of_mem_right h.lines hm'
      rw [hline.2, Instruction.targets_mapTargets] at ht'
      obtain ⟨target, ht, he⟩ := List.mem_map.mp ht'
      rw [← h.injective target handle (.target hm ht) mentions (he.trans hg.symm)]
      exact .target hm ht
    | handler hm' =>
      rw [h.handlers] at hm'
      obtain ⟨entry, hm, rfl⟩ := List.mem_map.mp hm'
      have hentry : listing.Mentions entry.handler :=
        .handler hm (by simp [ExceptionHandler.handles])
      rw [h.injective handle entry.handler mentions hentry hg]
      exact .handler hm
    | afterCall cut' call' =>
      obtain ⟨before, line, after, cut, hline, -, hafter⟩ := h.cut_of_renamed cut'
      cases hafter with
      | cons hnext _ =>
        rw [hline.2] at call'
        rw [h.injective handle _ mentions (.line cut.forth.mem) (hg.trans hnext.1)]
        cases hi : line.instruction <;> rw [hi] at call' <;> cases call'
        exact .afterCall cut hi
  · intro hpoint
    cases hpoint with
    | target hm ht =>
      obtain ⟨line', hm', hline⟩ := Outcome.exists_of_mem_right h.lines.flip hm
      refine .target hm' ?_
      rw [hline.2, Instruction.targets_mapTargets]
      exact List.mem_map_of_mem ht
    | @handler entry hm =>
      have hm' : entry.rename f ∈ renamed.handlers.toList := by
        rw [h.handlers]
        exact List.mem_map_of_mem hm
      exact .handler hm'
    | afterCall cut call =>
      obtain ⟨before', line', after', cut', hline, -, hafter⟩ := h.cut cut
      have hcall := hline.2
      rw [call] at hcall
      cases hafter with
      | cons hnext _ =>
        rw [← hnext.1]
        exact .afterCall cut' hcall

/-- The search for a definition goes the same way. -/
theorem definition?_rel {points points' : Std.HashSet Handle} {lines lines' : List Line}
    (hlines : List.Forall₂ (Line.Renames f) lines lines')
    (hpoints : ∀ line ∈ lines, points'.contains (f line.handle) = points.contains line.handle) :
    Option.Rel (List.Forall₂ (Line.Renames f)) (definition? points slot lines)
      (definition? points' slot lines') := by
  induction hlines with
  | nil => exact .none
  | @cons line line' lines lines' hline hrest ih =>
    obtain ⟨hpoint, hothers⟩ := List.forall_mem_cons.mp hpoints
    have hcontains : points'.contains line'.handle = points.contains line.handle := by
      rw [hline.1, hpoint]
    have hwrites : writesAcross slot line'.instruction = writesAcross slot line.instruction := by
      rw [hline.2]
      cases line.instruction <;> rfl
    have hskip : Option.Rel (List.Forall₂ (Line.Renames f))
        (if writesAcross slot line.instruction || points.contains line.handle then none
          else definition? points slot lines)
        (if writesAcross slot line'.instruction || points'.contains line'.handle then none
          else definition? points' slot lines') := by
      rw [hcontains, hwrites]
      split
      · exact .none
      · exact ih hothers
    have hcode := hline.2
    cases hi : line.instruction with
    | store stored type =>
      rw [hi] at hcode hskip
      rw [hcode] at hskip
      simp only [definition?, hi, hcode, Instruction.mapTargets]
      split
      · rw [hcontains]
        split
        · exact .none
        · exact .some hrest
      · exact hskip
    | _ =>
      rw [hi] at hcode hskip
      rw [hcode] at hskip
      simp only [definition?, hi, hcode, Instruction.mapTargets]
      exact hskip

theorem loadValue_eq (h : Renames f listing renamed) (distinct : listing.Distinct)
    (extended : pool.Extends grown) {line : Line} (hm : line ∈ listing.lines.toList)
    (recoverable : Recoverable (listing.loadValue pool line.handle slot)) :
    renamed.loadValue grown (f line.handle) slot = listing.loadValue pool line.handle slot := by
  obtain ⟨before, after, cut⟩ := cut_of_mem hm
  obtain ⟨before', line', after', cut', hline, hbefore, -⟩ := h.cut cut
  have hpoints : ∀ other ∈ listing.lines.toList,
      renamed.mergePoints.contains (f other.handle) =
        listing.mergePoints.contains other.handle := by
    intro other ho
    rw [Bool.eq_iff_iff, ← Std.HashSet.mem_iff_contains, ← Std.HashSet.mem_iff_contains,
      mem_mergePoints, mem_mergePoints]
    exact h.mergePoint_iff (.line ho)
  have hdefinition : Option.Rel (List.Forall₂ (Line.Renames f))
      (definition? listing.mergePoints slot (listing.linesBefore line.handle))
      (definition? renamed.mergePoints slot (renamed.linesBefore (f line.handle))) := by
    rw [← hline.1, cut.linesBefore distinct, cut'.linesBefore (h.distinct distinct)]
    refine definition?_rel (List.rel_reverse hbefore) fun other ho => hpoints other ?_
    rw [show listing.lines.toList = _ from cut]
    exact List.mem_append_left _ (List.mem_reverse.mp ho)
  unfold loadValue at recoverable ⊢
  dsimp only at recoverable ⊢
  rw [hpoints line hm]
  split
  · rfl
  next hpoint =>
  rw [if_neg hpoint] at recoverable
  generalize definition? listing.mergePoints slot (listing.linesBefore line.handle) = found
    at hdefinition recoverable
  generalize definition? renamed.mergePoints slot (renamed.linesBefore (f line.handle)) = found'
    at hdefinition
  cases hdefinition with
  | none => rfl
  | some hrel =>
    cases hrel with
    | nil => rfl
    | @cons source source' _ _ hsource _ =>
      dsimp only at recoverable ⊢
      have hliteral : Recoverable (literal? pool source.instruction) := fun e he =>
        recoverable e (Outcome.bind_eq_error.mpr (.inl he))
      rw [hsource.2, literal?_renames extended hliteral]

theorem operandValue_eq (h : Renames f listing renamed) (distinct : listing.Distinct)
    (extended : pool.Extends grown) {line : Line} (hm : line ∈ listing.lines.toList)
    (operand : line.instruction.isOperand = true)
    (recoverable : Recoverable (listing.operandValue pool line.handle)) :
    renamed.operandValue grown (f line.handle) = listing.operandValue pool line.handle := by
  have hget := get?_of_mem distinct hm
  have hget' := h.get?_eq distinct (.line hm)
  rw [hget, Option.map_some] at hget'
  unfold operandValue at recoverable ⊢
  rw [hget] at recoverable ⊢
  rw [hget']
  cases hi : line.instruction with
  | push value type => rfl
  | load slot type =>
    rw [hi] at recoverable
    exact h.loadValue_eq distinct extended hm recoverable
  | loadConstant index wide =>
    rw [hi] at recoverable
    have hliteral : Recoverable (literal? pool (.loadConstant index wide)) := fun e he =>
      recoverable e (Outcome.bind_eq_error.mpr (.inl he))
    have heq : literal? grown ((Instruction.loadConstant index wide).mapTargets f) =
        literal? pool (.loadConstant index wide) := literal?_renames extended hliteral
    change (literal? grown ((Instruction.loadConstant index wide).mapTargets f) >>= _) =
      (literal? pool (.loadConstant index wide) >>= _)
    rw [heq]
    cases hl : literal? pool (.loadConstant index wide) with
    | error e => rfl
    | ok value =>
      obtain ⟨number, -, hvalue⟩ := Outcome.bind_eq_ok.mp hl
      cases hvalue
      rfl
  | _ =>
    rw [hi] at operand
    cases operand

end Renames

end Listing

/-! ## Matches -/

section

variable {lines lines' : List Line} {accept : Instruction Handle → Bool}

theorem takeLine?_rel (haccept : ∀ code, accept (code.mapTargets f) = accept code)
    (h : List.Forall₂ (Line.Renames f) lines lines') :
    Option.Rel (fun taken taken' => taken'.1 = f taken.1 ∧
        List.Forall₂ (Line.Renames f) taken.2 taken'.2)
      (takeLine? accept lines) (takeLine? accept lines') := by
  cases h with
  | nil => exact .none
  | cons hline hrest =>
    rw [takeLine?, takeLine?, hline.2, haccept]
    split
    · exact .some ⟨hline.1, hrest⟩
    · exact .none

theorem takeOptional_rel (haccept : ∀ code, accept (code.mapTargets f) = accept code)
    (h : List.Forall₂ (Line.Renames f) lines lines') :
    (takeOptional accept lines').1 = (takeOptional accept lines).1.map f ∧
      List.Forall₂ (Line.Renames f)
        (takeOptional accept lines).2 (takeOptional accept lines').2 := by
  have hrel := takeLine?_rel haccept h
  unfold takeOptional
  generalize takeLine? accept lines = taken at hrel
  generalize takeLine? accept lines' = taken' at hrel
  cases hrel with
  | none => exact ⟨rfl, h⟩
  | some htaken => exact ⟨congrArg some htaken.1, htaken.2⟩

theorem takeLine?_of_renamed {handle' : Handle} {rest' : List Line}
    (haccept : ∀ code, accept (code.mapTargets f) = accept code)
    (h : List.Forall₂ (Line.Renames f) lines lines')
    (htaken : takeLine? accept lines' = some (handle', rest')) :
    ∃ handle rest, takeLine? accept lines = some (handle, rest) ∧ handle' = f handle ∧
      List.Forall₂ (Line.Renames f) rest rest' := by
  have hrel := takeLine?_rel haccept h
  rw [htaken] at hrel
  generalize takeLine? accept lines = taken at hrel
  cases hrel with
  | some htaken => exact ⟨_, _, rfl, htaken⟩

theorem dropWhile_rel (haccept : ∀ code, accept (code.mapTargets f) = accept code)
    (h : List.Forall₂ (Line.Renames f) lines lines') :
    List.Forall₂ (Line.Renames f) (lines.dropWhile (accept ·.instruction))
      (lines'.dropWhile (accept ·.instruction)) := by
  induction h with
  | nil => exact .nil
  | cons hline hrest ih =>
    rw [List.dropWhile_cons, List.dropWhile_cons, hline.2, haccept]
    split
    · exact ih
    · exact .cons hline hrest

theorem loopTail?_renames (h : List.Forall₂ (Line.Renames f) lines lines')
    (found : Option (Handle × Handle)) :
    loopTail? lines' (found.map (Prod.map f f)) = (loopTail? lines found).map (Prod.map f f) := by
  fun_induction loopTail? lines found generalizing lines' with
  | case1 increment slot amount long jump target long' rest found ih =>
    cases h with
    | @cons _ first _ _ hfirst h =>
      cases h with
      | @cons _ second _ _ hsecond hrest =>
        obtain ⟨firstHandle, firstCode, firstLong⟩ := first
        obtain ⟨secondHandle, secondCode, secondLong⟩ := second
        obtain ⟨rfl, rfl⟩ := hfirst
        obtain ⟨rfl, rfl⟩ := hsecond
        exact ih hrest
  | case2 lines found hno =>
    unfold loopTail?
    split
    case h_1 =>
      -- the old lines would match as well
      cases h with
      | @cons first _ _ _ hfirst h =>
        cases h with
        | @cons second _ _ _ hsecond _ =>
          obtain ⟨firstHandle, firstCode, firstLong⟩ := first
          obtain ⟨secondHandle, secondCode, secondLong⟩ := second
          have hincrement := hfirst.2
          have hjump := hsecond.2
          cases firstCode <;> cases hincrement
          cases secondCode <;> cases hjump
          exact (hno _ _ _ _ _ _ _ _ rfl).elim
    case h_2 => rfl

/-- The jump of a loop tail is one of the lines. -/
theorem loopTail?_mem {found : Option (Handle × Handle)} {pair : Handle × Handle}
    (h : loopTail? lines found = some pair) :
    found = some pair ∨ ∃ line ∈ lines, line.handle = pair.2 := by
  fun_induction loopTail? lines found with
  | case1 increment slot amount long jump target long' rest found ih =>
    rcases ih h with hfound | ⟨line, hm, hh⟩
    · cases hfound
      exact .inr ⟨_, List.mem_cons_of_mem _ List.mem_cons_self, rfl⟩
    · exact .inr ⟨line, List.mem_cons_of_mem _ (List.mem_cons_of_mem _ hm), hh⟩
  | case2 lines found hno => exact .inl h

end

/-! ## Arithmetic -/

namespace ArithmeticMatch

variable {listing renamed : Listing} {lines lines' : List Line} {found found' : ArithmeticMatch}

/-- The second match is the first under new handles. -/
structure Renames (f : Handle → Handle) (found renamed : ArithmeticMatch) : Prop where
  left : renamed.left = f found.left
  leftConversion : renamed.leftConversion = found.leftConversion.map f
  right : renamed.right = f found.right
  rightConversion : renamed.rightConversion = found.rightConversion.map f
  operator : renamed.operator = f found.operator
  loopTail : renamed.loopTail = found.loopTail.map (Prod.map f f)

theorem at?_of_renamed (h : List.Forall₂ (Line.Renames f) lines lines')
    (hm : ArithmeticMatch.at? lines' = some found') :
    ∃ found, ArithmeticMatch.at? lines = some found ∧ found.Renames f found' := by
  have hoperand : ∀ code : Instruction Handle, (code.mapTargets f).isOperand = code.isOperand :=
    fun code => by cases code <;> rfl
  have hconversion : ∀ code : Instruction Handle,
      (code.mapTargets f).isConversion = code.isConversion :=
    fun code => by cases code <;> rfl
  have harithmetic : ∀ code : Instruction Handle,
      (code.mapTargets f).isArithmetic = code.isArithmetic :=
    fun code => by cases code <;> rfl
  have hinvoke : ∀ code : Instruction Handle,
      (code.mapTargets f).isInvokeVirtual = code.isInvokeVirtual :=
    fun code => by cases code <;> rfl
  simp only [ArithmeticMatch.at?, Option.bind_eq_bind, Option.pure_def] at hm ⊢
  obtain ⟨⟨left', rest'⟩, hl', hm⟩ := Option.bind_eq_some_iff.mp hm
  obtain ⟨left, rest, hl, rfl, h⟩ := takeLine?_of_renamed hoperand h hl'
  obtain ⟨hleftConversion, h⟩ := takeOptional_rel hconversion h
  obtain ⟨⟨right', rest'⟩, hr', hm⟩ := Option.bind_eq_some_iff.mp hm
  obtain ⟨right, rest, hr, rfl, h⟩ := takeLine?_of_renamed hoperand h hr'
  obtain ⟨hrightConversion, h⟩ := takeOptional_rel hconversion h
  obtain ⟨⟨operator', rest'⟩, ho', hm⟩ := Option.bind_eq_some_iff.mp hm
  obtain ⟨operator, rest, ho, rfl, h⟩ := takeLine?_of_renamed harithmetic h ho'
  have htail := loopTail?_renames (dropWhile_rel hinvoke h) none
  cases hm
  simp only [hl, hr, ho, Option.bind_some]
  exact ⟨_, rfl, rfl, hleftConversion, rfl, hrightConversion, rfl, htail⟩

theorem Renames.endsForeignLoop_eq (hr : found.Renames f found')
    (h : Listing.Renames f listing renamed)
    (distinct : listing.Distinct) (left : listing.Mentions found.left)
    (right : listing.Mentions found.right)
    (tail : ∀ pair ∈ found.loopTail, listing.Mentions pair.2) :
    found'.endsForeignLoop renamed = found.endsForeignLoop listing := by
  unfold endsForeignLoop
  rw [hr.loopTail, hr.left, hr.right]
  cases htail : found.loopTail with
  | none => rfl
  | some pair =>
    obtain ⟨increment, jump⟩ := pair
    simp only [Option.map_some, Prod.map_apply]
    rw [h.get?_eq distinct (tail _ htail)]
    cases hget : listing.get? jump with
    | none => rfl
    | some code =>
      cases code with
      | jump target =>
        obtain ⟨before, line, after, cut, -, hcode⟩ := Listing.exists_cut_of_get? hget distinct
        have htarget : listing.Mentions target :=
          .target cut.mem (by rw [hcode]; exact List.mem_singleton_self _)
        have hne : ∀ handle, listing.Mentions handle →
            (f target != f handle) = (target != handle) := by
          intro handle hh
          rw [Bool.eq_iff_iff, bne_iff_ne, bne_iff_ne]
          exact not_congr ⟨h.injective _ _ htarget hh, congrArg f⟩
        simp only [Option.map_some, Instruction.mapTargets, hne _ left, hne _ right]
      | _ => rfl

theorem Renames.verdict_eq (hr : found.Renames f found') (h : Listing.Renames f listing renamed)
    (distinct : listing.Distinct) (mentions : ∀ handle ∈ found.left :: found.segment,
      listing.Mentions handle) (tail : ∀ pair ∈ found.loopTail, listing.Mentions pair.2) :
    found'.verdict renamed = found.verdict listing := by
  have hmem : ∀ handle ∈ found.segment, listing.Mentions handle :=
    fun handle hh => mentions handle (List.mem_cons_of_mem _ hh)
  have hconverted : ∀ conversion : Option Handle, (∀ handle ∈ conversion, listing.Mentions handle) →
      ∀ value, renamed.convertedAt (conversion.map f) value =
        listing.convertedAt conversion value := by
    intro conversion hc value
    cases conversion with
    | none => rfl
    | some handle =>
      simp only [Listing.convertedAt, Option.map_some, Option.bind_some,
        h.get?_eq distinct (hc handle rfl)]
      cases listing.get? handle with
      | none => rfl
      | some code => cases code <;> rfl
  funext left right
  unfold verdict
  rw [hr.endsForeignLoop_eq h distinct (mentions _ List.mem_cons_self)
    (hmem _ (by simp [segment])) tail,
    hr.operator, h.get?_eq distinct (hmem _ (by simp [segment])), hr.leftConversion,
    hr.rightConversion,
    hconverted _ fun handle hh => hmem handle (by simp [segment, Option.mem_def.mp hh]),
    hconverted _ fun handle hh => hmem handle (by simp [segment, Option.mem_def.mp hh])]
  cases listing.get? found.operator with
  | none => rfl
  | some code => cases code <;> rfl

theorem Renames.segment_eq (hr : found.Renames f found') :
    found'.segment = found.segment.map f := by
  rw [segment, segment, hr.leftConversion, hr.right, hr.rightConversion, hr.operator]
  cases found.leftConversion <;> cases found.rightConversion <;> rfl

/-- A match that is passed over is passed over under new handles. -/
theorem passedOver_of_renamed (h : Listing.Renames f listing renamed) (distinct : listing.Distinct)
    (extended : pool.Extends grown) {before before' : List Line}
    (hlisting : listing.lines.toList = before ++ lines)
    (hrenamed : renamed.lines.toList = before' ++ lines')
    (hlines : List.Forall₂ (Line.Renames f) lines lines')
    (hm' : ArithmeticMatch.at? lines' = some found') :
    ∃ found, ArithmeticMatch.at? lines = some found ∧
      (PassedOver (ArithmeticMatch.fold listing pool found) →
        PassedOver (ArithmeticMatch.fold renamed grown found')) := by
  obtain ⟨found, hm, hr⟩ := at?_of_renamed hlines hm'
  refine ⟨found, hm, fun hpassed => ?_⟩
  obtain ⟨shape, tail, rfl, named, htail⟩ := ArithmeticMatch.at?_eq_some hm
  obtain ⟨shape', tail', rfl, named', -⟩ := ArithmeticMatch.at?_eq_some hm'
  have hends := fold_ends pool hlisting distinct named
  have hends' := fold_ends grown hrenamed (h.distinct distinct) named'
  have hmem : ∀ line ∈ shape.left :: (shape.segment ++ tail), line ∈ listing.lines.toList := by
    intro line hl
    rw [hlisting]
    exact List.mem_append_right _ hl
  have hmentions : ∀ handle ∈ found.left :: found.segment, listing.Mentions handle := by
    rw [named.left, segment_eq named, ← List.map_cons]
    intro handle hh
    obtain ⟨line, hl, rfl⟩ := List.mem_map.mp hh
    exact .line (hmem line (List.mem_append_left tail hl))
  have hjump : ∀ pair ∈ found.loopTail, listing.Mentions pair.2 := by
    intro pair hp
    rw [htail] at hp
    rcases loopTail?_mem hp with hnone | ⟨line, hl, hh⟩
    · cases hnone
    · have hline := (List.dropWhile_sublist _).subset hl
      exact hh ▸ .line (hmem line (List.mem_cons_of_mem _ (List.mem_append_right _ hline)))
  refine hends'.passedOver ?_
  rw [hr.verdict_eq h distinct hmentions hjump, hr.left, hr.right, hr.segment_eq]
  refine (hends.blocked (fun _ _ _ => verdict_eq_error) hpassed).transport ?_ ?_
    (h.unreferenced fun handle hh => hmentions handle (List.mem_cons_of_mem _ hh)).symm
  · rw [named.left]
    exact h.operandValue_eq distinct extended (hmem _ List.mem_cons_self) named.left_operand
  · rw [named.right]
    exact h.operandValue_eq distinct extended (hmem _ (by simp [ArithmeticLines.segment]))
      named.right_operand

end ArithmeticMatch

/-! ## Comparisons -/

namespace ComparisonMatch

variable {listing renamed : Listing} {lines lines' : List Line} {found found' : ComparisonMatch}

def rename (f : Handle → Handle) (found : ComparisonMatch) : ComparisonMatch where
  left := f found.left
  right := f found.right
  comparison := found.comparison.map f
  branch := f found.branch
  fallthroughPush := f found.fallthroughPush
  jump := f found.jump
  targetPush := f found.targetPush

theorem selection?_of_renamed {count : Nat} {branch' first' jump' second' : Handle}
    (h : List.Forall₂ (Line.Renames f) lines lines')
    (injective : ∀ line ∈ lines, ∀ target ∈ line.instruction.targets, ∀ other ∈ lines,
      f target = f other.handle → target = other.handle)
    (hm : selection? count lines' = some (branch', first', jump', second')) :
    ∃ branch first jump second, selection? count lines = some (branch, first, jump, second) ∧
      branch' = f branch ∧ first' = f first ∧ jump' = f jump ∧ second' = f second := by
  have hpush : ∀ code : Instruction Handle, (code.mapTargets f).isIntPush = code.isIntPush :=
    fun code => by cases code <;> rfl
  unfold selection? at hm
  split at hm
  case h_2 => cases hm
  case h_1 b' condition target' lb' f' j' past' lj' s' after' tail' =>
    -- the five lines before they were renamed
    obtain ⟨b, rest₁, hb, h₁, rfl⟩ := List.forall₂_cons_right_iff.mp h
    obtain ⟨first, rest₂, hfirst, h₂, rfl⟩ := List.forall₂_cons_right_iff.mp h₁
    obtain ⟨j, rest₃, hj, h₃, rfl⟩ := List.forall₂_cons_right_iff.mp h₂
    obtain ⟨second, rest₄, hsecond, h₄, rfl⟩ := List.forall₂_cons_right_iff.mp h₃
    obtain ⟨after, tail, hafter, -, rfl⟩ := List.forall₂_cons_right_iff.mp h₄
    obtain ⟨branch, branchCode, branchLong⟩ := b
    obtain ⟨jump, jumpCode, jumpLong⟩ := j
    obtain ⟨hbranch, hbranchCode⟩ := hb
    obtain ⟨hjump, hjumpCode⟩ := hj
    cases branchCode <;> cases hbranchCode
    cases jumpCode <;> cases hjumpCode
    rename_i target past
    split at hm
    case isFalse => cases hm
    case isTrue hc =>
      cases hm
      simp only [Bool.and_eq_true, decide_eq_true_eq, hfirst.2, hsecond.2, hpush, hsecond.1,
        hafter.1] at hc
      obtain ⟨⟨⟨⟨hcount, hfirstPush⟩, hsecondPush⟩, htarget⟩, hpast⟩ := hc
      have htarget : target = second.handle := by
        refine injective ⟨branch, .branch condition target, branchLong⟩ (by simp) target ?_ second
          (by simp) htarget
        exact List.mem_singleton_self _
      have hpast : past = after.handle := by
        refine injective ⟨jump, .jump past, jumpLong⟩ (by simp) past ?_ after (by simp) hpast
        exact List.mem_singleton_self _
      refine ⟨branch, first.handle, jump, second.handle, ?_, hbranch, hfirst.1, hjump, hsecond.1⟩
      simp [selection?, hcount, hfirstPush, hsecondPush, htarget, hpast]

theorem at?_of_renamed (h : List.Forall₂ (Line.Renames f) lines lines')
    (injective : ∀ line ∈ lines, ∀ target ∈ line.instruction.targets, ∀ other ∈ lines,
      f target = f other.handle → target = other.handle)
    (hm : ComparisonMatch.at? lines' = some found') :
    ∃ found, ComparisonMatch.at? lines = some found ∧ found' = found.rename f := by
  have hoperand : ∀ code : Instruction Handle, (code.mapTargets f).isOperand = code.isOperand :=
    fun code => by cases code <;> rfl
  have hcomparison : ∀ code : Instruction Handle,
      (code.mapTargets f).isComparison = code.isComparison :=
    fun code => by cases code <;> rfl
  simp only [ComparisonMatch.at?, Option.bind_eq_bind, Option.pure_def] at hm ⊢
  obtain ⟨⟨left', rest'⟩, hl', hm⟩ := Option.bind_eq_some_iff.mp hm
  obtain ⟨left, rest, hl, rfl, h⟩ := takeLine?_of_renamed hoperand h hl'
  obtain ⟨⟨right', more'⟩, hr', hm⟩ := Option.bind_eq_some_iff.mp hm
  obtain ⟨right, more, hr, rfl, h⟩ := takeLine?_of_renamed hoperand h hr'
  obtain ⟨hfound, h⟩ := takeOptional_rel hcomparison h
  have hsub : ∀ line ∈ (takeOptional Instruction.isComparison more).2, line ∈ lines := by
    obtain ⟨first, rfl, -, -⟩ := takeLine?_eq_some hl
    obtain ⟨second, rfl, -, -⟩ := takeLine?_eq_some hr
    rcases ho : takeOptional Instruction.isComparison more with ⟨comparison, others⟩
    obtain ⟨optional, rfl, -, -⟩ := takeOptional_eq ho
    intro line hline
    simp [show line ∈ others from hline]
  obtain ⟨⟨branch', first', jump', second'⟩, hs', hm⟩ := Option.bind_eq_some_iff.mp hm
  rw [hfound, Option.isSome_map] at hs'
  obtain ⟨branch, first, jump, second, hs, rfl, rfl, rfl, rfl⟩ := selection?_of_renamed h
    (fun line hline target ht other ho => injective line (hsub line hline) target ht other
      (hsub other ho))
    hs'
  cases hm
  simp only [hl, hr, hs, Option.bind_some]
  refine ⟨_, rfl, ?_⟩
  rw [rename, hfound]

theorem segment_rename (f : Handle → Handle) (found : ComparisonMatch) :
    (found.rename f).segment = found.segment.map f := by
  rw [segment, segment, rename]
  cases found.comparison <;> rfl

theorem verdict_rename (h : Listing.Renames f listing renamed) (distinct : listing.Distinct)
    {condition : Condition} {target : Handle}
    (hbranch : listing.get? found.branch = some (.branch condition target))
    (mentions : ∀ handle ∈ found.segment, listing.Mentions handle) :
    (found.rename f).verdict renamed = found.verdict listing := by
  have hbranch' : renamed.get? (f found.branch) = some (.branch condition (f target)) := by
    rw [h.get?_eq distinct (mentions _ (by simp [segment])), hbranch]
    rfl
  funext left right
  unfold verdict taken
  simp only [rename, hbranch, hbranch']
  cases hc : found.comparison with
  | none => rfl
  | some handle =>
    simp only [Option.map_some, Option.bind_some,
      h.get?_eq distinct (mentions handle (by simp [segment, hc]))]
    cases listing.get? handle with
    | none => rfl
    | some code => cases condition <;> cases code <;> rfl

/-- A match that is passed over is passed over under new handles. -/
theorem passedOver_of_renamed (h : Listing.Renames f listing renamed) (distinct : listing.Distinct)
    (extended : pool.Extends grown) {before before' : List Line}
    (hlisting : listing.lines.toList = before ++ lines)
    (hrenamed : renamed.lines.toList = before' ++ lines')
    (hlines : List.Forall₂ (Line.Renames f) lines lines')
    (hm' : ComparisonMatch.at? lines' = some found') :
    ∃ found, ComparisonMatch.at? lines = some found ∧
      (PassedOver (ComparisonMatch.fold listing pool found) →
        PassedOver (ComparisonMatch.fold renamed grown found')) := by
  have hmem : ∀ line ∈ lines, line ∈ listing.lines.toList := by
    intro line hl
    rw [hlisting]
    exact List.mem_append_right _ hl
  obtain ⟨found, hm, rfl⟩ := at?_of_renamed hlines (fun line hl target ht other ho =>
    h.injective _ _ (.target (hmem line hl) ht) (.line (hmem other ho))) hm'
  refine ⟨found, hm, fun hpassed => ?_⟩
  obtain ⟨shape, following, tail, rfl, named⟩ := ComparisonMatch.at?_eq_some hm
  obtain ⟨shape', following', tail', rfl, named'⟩ := ComparisonMatch.at?_eq_some hm'
  have hends := fold_ends pool hlisting distinct named
  have hends' := fold_ends grown hrenamed (h.distinct distinct) named'
  have hmentions : ∀ handle ∈ found.segment, listing.Mentions handle := by
    rw [segment_eq named]
    intro handle hh
    obtain ⟨line, hl, rfl⟩ := List.mem_map.mp hh
    exact .line (hmem line (List.mem_cons_of_mem _ (List.mem_append_left _ hl)))
  have hget : listing.get? found.branch = some shape.branch.instruction := by
    rw [named.branch]
    exact Listing.get?_of_mem distinct (hmem _ (by simp [ComparisonLines.segment]))
  obtain ⟨condition, hcondition⟩ := named.branch_eq
  refine hends'.passedOver ?_
  rw [verdict_rename h distinct (hget.trans (congrArg some hcondition)) hmentions, segment_rename]
  refine (hends.blocked (fun _ _ _ => verdict_eq_error named hget) hpassed).transport ?_ ?_
    (h.unreferenced hmentions).symm
  · rw [rename, named.left]
    exact h.operandValue_eq distinct extended (hmem _ List.mem_cons_self) named.left_operand
  · rw [rename, named.right]
    exact h.operandValue_eq distinct extended (hmem _ (by simp [ComparisonLines.segment]))
      named.right_operand

end ComparisonMatch

/-! ## Passes -/

variable {listing renamed : Listing}

theorem FoldRule.exhausted_of_renamed {α : Type} {rule : FoldRule α}
    (h : Listing.Renames f listing renamed)
    (hrule : ∀ before lines before' lines' found', listing.lines.toList = before ++ lines →
      renamed.lines.toList = before' ++ lines' → List.Forall₂ (Line.Renames f) lines lines' →
      rule.matchAt? lines' = some found' → ∃ found, rule.matchAt? lines = some found ∧
        (PassedOver (rule.attempt listing pool found) →
          PassedOver (rule.attempt renamed grown found')))
    (exhausted : rule.Exhausted listing pool listing.lines.toList) :
    rule.Exhausted renamed grown renamed.lines.toList := by
  intro before' line' after' hsplit' found' hm'
  obtain ⟨before, line, after, cut, hline, -, hafter⟩ := h.cut_of_renamed hsplit'
  obtain ⟨found, hm, htransport⟩ :=
    hrule before (line :: after) before' (line' :: after') found' cut hsplit'
      (.cons hline hafter) hm'
  exact htransport (exhausted before line after cut found hm)

/-- A pass that is idle stays idle when handles are replaced and the pool grows. -/
theorem FoldPass.Idle.renames {pass : FoldPass} (mem : pass ∈ foldPasses)
    (h : Listing.Renames f listing renamed) (distinct : listing.Distinct)
    (extended : pool.Extends grown) (idle : pass.Idle listing pool) : pass.Idle renamed grown := by
  rcases List.mem_pair.mp mem with rfl | rfl
  · rw [FoldRule.idle_iff] at idle ⊢
    rw [h.size_eq]
    exact fun hsize => FoldRule.exhausted_of_renamed h (fun _ _ _ _ _ hl hr hlines hm =>
      ArithmeticMatch.passedOver_of_renamed h distinct extended hl hr hlines hm) (idle hsize)
  · rw [FoldRule.idle_iff] at idle ⊢
    rw [h.size_eq]
    exact fun hsize => FoldRule.exhausted_of_renamed h (fun _ _ _ _ _ hl hr hlines hm =>
      ComparisonMatch.passedOver_of_renamed h distinct extended hl hr hlines hm) (idle hsize)

end BytecodeFold
