import BytecodeFold.Proofs.Execution.Replacement
import BytecodeFold.Proofs.StackDepth.Levels

/-!
# Depths around a replaced segment

An instruction that takes the place of a line and the segment after it is balanced if it puts on the
stack what the lines did. Such a replacement keeps the depths of a consistent listing: control
reaches nothing it did not reach before, each line with the depth it had, and the one new way, from
the new line past the segment, leads to the depth that is there. So the stack still covers every
instruction and is not deeper than before.
-/

namespace BytecodeFold

theorem Instruction.stackEffect_of_fixed {code : Instruction Handle} {effect : StackEffect}
    (h : code.stackEffect? = some effect) (pool : ConstantPool) :
    code.stackEffect pool = .ok effect := by
  unfold stackEffect
  rw [h]

theorem Instruction.fallsThrough_of_isOperand {code : Instruction Handle}
    (h : code.isOperand = true) :
    code.targets = [] ∧ code.fallsThrough = true ∧ ∀ target, code ≠ .subroutine target := by
  cases code with
  | push | loadConstant | load => exact ⟨rfl, rfl, fun target he => by cases he⟩
  | _ => cases h

namespace Listing

variable {listing result : Listing} {pool grown : ConstantPool} {depth : Handle → Int}
  {before segment after : List Line} {first : Line} {code : Instruction Handle}
  {handle next : Handle} {effect : StackEffect} {slots : Nat}

/-! ## Ways around the segment -/

namespace Replaced

/-- The ways that lead on from a line outside the segment are those from before, and one from the
new line past the segment. -/
theorem continues_cases (replaced : listing.Replaced before first segment after code result)
    (operand : code.isOperand = true) (outside : handle ∉ segment.map (·.handle))
    (h : result.Continues handle next) :
    (handle = first.handle ∧ ∃ line ∈ after.head?, line.handle = next) ∨
      (handle ≠ first.handle ∧ listing.Continues handle next ∧ next ∉ segment.map (·.handle)) := by
  by_cases hfirst : handle = first.handle
  · refine .inl ⟨hfirst, ?_⟩
    have cut := replaced.result_cut
    have hnew : result.get? handle = some code := by
      rw [hfirst]
      exact cut.get? replaced.result_distinct
    cases h with
    | target code_eq mem =>
      cases hnew.symm.trans code_eq
      rw [(Instruction.fallsThrough_of_isOperand operand).1] at mem
      cases mem
    | next _ _ _ next_eq =>
      have hnext := cut.next? replaced.result_distinct
      rw [hfirst, show result.next? first.handle = _ from hnext] at next_eq
      exact Option.map_eq_some_iff.mp next_eq
  · refine .inr ⟨hfirst, ?_⟩
    have hget := replaced.get?_eq outside hfirst
    cases h with
    | target code_eq mem =>
      rw [hget] at code_eq
      obtain ⟨_, line, _, cut, rfl, rfl⟩ := exists_cut_of_get? code_eq replaced.distinct
      exact ⟨.target code_eq mem, replaced.unreferenced.lines line cut.mem outside next mem⟩
    | next code_eq falls ordinary next_eq =>
      rw [hget] at code_eq
      rw [replaced.next?_eq outside hfirst] at next_eq
      exact ⟨.next code_eq falls ordinary next_eq, replaced.next?_not_mem outside hfirst next_eq⟩

theorem resumes_cases (replaced : listing.Replaced before first segment after code result)
    (operand : code.isOperand = true) (outside : handle ∉ segment.map (·.handle))
    (h : result.Resumes handle next) :
    listing.Resumes handle next ∧ next ∉ segment.map (·.handle) := by
  obtain ⟨⟨target, hcall⟩, hnext⟩ := h
  have hfirst : handle ≠ first.handle := by
    rintro rfl
    have hnew := replaced.result_cut.get? replaced.result_distinct
    rw [hcall] at hnew
    exact (Instruction.fallsThrough_of_isOperand operand).2.2 target (Option.some.inj hnew).symm
  rw [replaced.get?_eq outside hfirst] at hcall
  rw [replaced.next?_eq outside hfirst] at hnext
  exact ⟨⟨⟨target, hcall⟩, hnext⟩, replaced.next?_not_mem outside hfirst hnext⟩

end Replaced

/-! ## Balanced replacements -/

/-- In the place of the lines up to `after`, an instruction puts on the stack what they did: control
that comes to the first of them gets past them with as many slots more as the instruction pushes. -/
structure Balanced (listing : Listing) (pool : ConstantPool) (depth : Handle → Int) (first : Handle)
    (after : List Line) (code : Instruction Handle) (slots : Nat) : Prop where
  operand : code.isOperand = true
  untouched : code.localSlot? = none
  fixed : code.stackEffect? = some ⟨0, slots⟩
  reached : listing.Reachable first → depth first + slots ∈ listing.reachedDepths pool depth
  following : listing.Reachable first → ∀ line ∈ after.head?,
    listing.Reachable line.handle ∧ depth line.handle = depth first + slots

namespace Replaced

/-- What control reaches after the replacement it reached before. -/
theorem reachable (replaced : listing.Replaced before first segment after code result)
    (balanced : listing.Balanced pool depth first.handle after code slots)
    (h : result.Reachable handle) :
    listing.Reachable handle ∧ handle ∉ segment.map (·.handle) := by
  induction h with
  | head h =>
    rw [replaced.head?_eq] at h
    exact ⟨.head h, replaced.head?_not_mem h⟩
  | handler mem =>
    rw [replaced.handlers_eq] at mem
    exact ⟨.handler mem,
      replaced.unreferenced.handlers _ mem _ (by simp [ExceptionHandler.handles])⟩
  | continues _ hway ih =>
    obtain ⟨hreachable, houtside⟩ := ih
    rcases replaced.continues_cases balanced.operand houtside hway with
      ⟨rfl, line, hline, rfl⟩ | ⟨-, hway, hnext⟩
    · refine ⟨(balanced.following hreachable line hline).1, replaced.handle_not_mem ?_⟩
      exact List.mem_append_right _ (List.mem_of_mem_head? hline)
    · exact ⟨.continues hreachable hway, hnext⟩
  | resumes _ hway ih =>
    obtain ⟨hreachable, houtside⟩ := ih
    obtain ⟨hway, hnext⟩ := replaced.resumes_cases balanced.operand houtside hway
    exact ⟨.resumes hreachable hway, hnext⟩

/-- The effect of a line after the replacement is that of the new line or the one from before. -/
theorem hasEffect_cases (replaced : listing.Replaced before first segment after code result)
    (balanced : listing.Balanced pool depth first.handle after code slots)
    (extended : pool.Extends grown) (levels : listing.Levels pool depth)
    (reachable : result.Reachable handle) (h : result.HasEffect grown handle effect) :
    (handle = first.handle ∧ effect = ⟨0, slots⟩) ∨
      (handle ≠ first.handle ∧ listing.HasEffect pool handle effect) := by
  obtain ⟨hreachable, houtside⟩ := replaced.reachable balanced reachable
  obtain ⟨new, hnew, heffect⟩ := h
  by_cases hfirst : handle = first.handle
  · refine .inl ⟨hfirst, ?_⟩
    rw [hfirst, show result.get? first.handle = _ from
      replaced.result_cut.get? replaced.result_distinct] at hnew
    cases hnew
    rw [Instruction.stackEffect_of_fixed balanced.fixed] at heffect
    exact (Except.ok.inj heffect).symm
  · refine .inr ⟨hfirst, ?_⟩
    obtain ⟨effect', old, hold, heffect'⟩ := levels.known handle hreachable
    have hsame : old = new := Option.some.inj
      (hold.symm.trans ((replaced.get?_eq houtside hfirst).symm.trans hnew))
    have hgrown := Instruction.stackEffect_mapTargets extended id heffect'
    rw [Instruction.mapTargets_id, hsame, heffect] at hgrown
    exact ⟨old, hold, by rw [heffect', Except.ok.inj hgrown]⟩

/-- A balanced replacement keeps the depths. -/
theorem levels (replaced : listing.Replaced before first segment after code result)
    (balanced : listing.Balanced pool depth first.handle after code slots)
    (extended : pool.Extends grown) (levels : listing.Levels pool depth) :
    result.Levels grown depth where
  known handle h := by
    obtain ⟨hreachable, houtside⟩ := replaced.reachable balanced h
    by_cases hfirst : handle = first.handle
    · refine ⟨⟨0, slots⟩, code, ?_, Instruction.stackEffect_of_fixed balanced.fixed grown⟩
      rw [hfirst]
      exact replaced.result_cut.get? replaced.result_distinct
    · obtain ⟨effect, old, hold, heffect⟩ := levels.known handle hreachable
      refine ⟨effect, old, (replaced.get?_eq houtside hfirst).trans hold, ?_⟩
      have hgrown := Instruction.stackEffect_mapTargets extended id heffect
      rwa [Instruction.mapTargets_id] at hgrown
  head handle h := levels.head handle (replaced.head?_eq ▸ h)
  handler entry h := levels.handler entry (replaced.handlers_eq ▸ h)
  continues {handle next effect} h heffect hway := by
    obtain ⟨hreachable, houtside⟩ := replaced.reachable balanced h
    rcases replaced.continues_cases balanced.operand houtside hway with
      ⟨rfl, line, hline, rfl⟩ | ⟨hfirst, hway, -⟩
    · rcases replaced.hasEffect_cases balanced extended levels h heffect with ⟨-, rfl⟩ | ⟨hne, -⟩
      · have hdepth := (balanced.following hreachable line hline).2
        dsimp only
        omega
      · exact absurd rfl hne
    · rcases replaced.hasEffect_cases balanced extended levels h heffect with ⟨he, -⟩ | ⟨-, hold⟩
      · exact absurd he hfirst
      · exact levels.continues hreachable hold hway
  resumes {handle next} h hway := by
    obtain ⟨hreachable, houtside⟩ := replaced.reachable balanced h
    exact levels.resumes hreachable (replaced.resumes_cases balanced.operand houtside hway).1

/-- A balanced replacement takes no more from the stack than the code before it. -/
theorem covered (replaced : listing.Replaced before first segment after code result)
    (balanced : listing.Balanced pool depth first.handle after code slots)
    (extended : pool.Extends grown) (levels : listing.Levels pool depth)
    (covered : listing.Covered pool depth) : result.Covered grown depth := by
  intro handle effect h heffect
  obtain ⟨hreachable, -⟩ := replaced.reachable balanced h
  rcases replaced.hasEffect_cases balanced extended levels h heffect with ⟨-, rfl⟩ | ⟨-, hold⟩
  · -- the lines before it were covered, so the depth is not negative
    obtain ⟨old, hold⟩ := levels.known handle hreachable
    have := covered handle old hreachable hold
    dsimp only
    omega
  · exact covered handle effect hreachable hold

/-- Every depth after a balanced replacement was there before it. -/
theorem mem_reachedDepths (replaced : listing.Replaced before first segment after code result)
    (balanced : listing.Balanced pool depth first.handle after code slots)
    (extended : pool.Extends grown) (levels : listing.Levels pool depth) {level : Int}
    (h : level ∈ result.reachedDepths grown depth) : level ∈ listing.reachedDepths pool depth := by
  obtain ⟨handle, effect, h, heffect, hlevel⟩ := h
  obtain ⟨hreachable, -⟩ := replaced.reachable balanced h
  rcases replaced.hasEffect_cases balanced extended levels h heffect with ⟨rfl, rfl⟩ | ⟨-, hold⟩
  · rcases hlevel with rfl | rfl
    · obtain ⟨old, hold⟩ := levels.known _ hreachable
      exact ⟨first.handle, old, hreachable, hold, .inl rfl⟩
    · simpa using balanced.reached hreachable
  · exact ⟨handle, effect, hreachable, hold, hlevel⟩

/-- A balanced replacement does not make the stack deeper. -/
theorem maxStack_le (replaced : listing.Replaced before first segment after code result)
    (balanced : listing.Balanced pool depth first.handle after code slots)
    (extended : pool.Extends grown) (levels : listing.Levels pool depth)
    (covered : listing.Covered pool depth) {deepest : UInt16}
    (h : listing.maxStack pool = .ok deepest) :
    ∃ deepest' ≤ deepest, result.maxStack grown = .ok deepest' := by
  have hfits : ∀ level ∈ listing.reachedDepths pool depth, level ≤ 65535 := by
    by_contra hdeep
    obtain ⟨cause, herror⟩ :=
      maxStack_eq_malformed replaced.distinct levels (fun hfits => hdeep hfits.2)
    rw [h] at herror
    cases herror
  obtain ⟨old, hold, hbound, -⟩ := maxStack_of_levels replaced.distinct levels covered hfits
  rw [h] at hold
  cases hold
  obtain ⟨new, hnew, -, hattained⟩ := maxStack_of_levels replaced.result_distinct
    (replaced.levels balanced extended levels) (replaced.covered balanced extended levels covered)
    (fun level hm => hfits level (replaced.mem_reachedDepths balanced extended levels hm))
  refine ⟨new, UInt16.le_iff_toNat_le.mpr ?_, hnew⟩
  rcases hattained with hzero | hattained
  · omega
  · have := hbound _ (replaced.mem_reachedDepths balanced extended levels hattained)
    omega

end Replaced

/-! ## Locals -/

/-- The slots that a method with these lines needs. -/
def neededLocals (lines : List Line) (argumentSlots : Nat) : Nat :=
  lines.foldl
    (fun needed line =>
      match line.instruction.localSlot? with
      | some (slot, size) => max needed (slot.toNat + size)
      | none => needed)
    argumentSlots

theorem neededLocals_le {lines : List Line} {argumentSlots limit : Nat} :
    neededLocals lines argumentSlots ≤ limit ↔ argumentSlots ≤ limit ∧ ∀ line ∈ lines, ∀ slot size,
      line.instruction.localSlot? = some (slot, size) → slot.toNat + size ≤ limit := by
  induction lines generalizing argumentSlots with
  | nil => simp [neededLocals]
  | cons line lines ih =>
    rw [neededLocals, List.foldl_cons, ← neededLocals, ih, List.forall_mem_cons]
    cases hslot : line.instruction.localSlot? with
    | none => simp
    | some pair =>
      obtain ⟨slot, size⟩ := pair
      simp only [Nat.max_le, Option.some.injEq, Prod.mk.injEq]
      grind

theorem maxLocals_eq_ok {argumentSlots : Nat} {locals : UInt16} :
    listing.maxLocals argumentSlots = .ok locals ↔
      neededLocals listing.lines.toList argumentSlots = locals.toNat := by
  have hneeded : listing.maxLocals argumentSlots =
      if neededLocals listing.lines.toList argumentSlots ≤ 65535 then
        .ok (UInt16.ofNat (neededLocals listing.lines.toList argumentSlots))
      else .error
        (.malformed (.tooManyLocals (neededLocals listing.lines.toList argumentSlots))) := by
    rw [maxLocals, ← Array.foldl_toList]
    rfl
  rw [hneeded]
  have hlt := locals.toNat_lt
  by_cases hfits : neededLocals listing.lines.toList argumentSlots ≤ 65535
  · rw [if_pos hfits, Except.ok.injEq, ← UInt16.toNat_inj,
      UInt16.toNat_ofNat_of_lt' (Nat.lt_succ_of_le hfits)]
  · rw [if_neg hfits]
    constructor
    · intro h
      cases h
    · intro h
      omega

/-- A replacement that touches no local needs no more of them than the code before it. -/
theorem Replaced.maxLocals_le (replaced : listing.Replaced before first segment after code result)
    (untouched : code.localSlot? = none) {argumentSlots : Nat} {locals : UInt16}
    (h : listing.maxLocals argumentSlots = .ok locals) :
    ∃ locals' ≤ locals, result.maxLocals argumentSlots = .ok locals' := by
  rw [maxLocals_eq_ok] at h
  obtain ⟨harguments, hlines⟩ := neededLocals_le.mp (Nat.le_of_eq h)
  have hle : neededLocals result.lines.toList argumentSlots ≤ locals.toNat := by
    refine neededLocals_le.mpr ⟨harguments, fun line hm slot size hslot => ?_⟩
    rcases replaced.line_cases hm with rfl | ⟨hold, -⟩
    · rw [show _ = none from untouched] at hslot
      cases hslot
    · exact hlines line hold slot size hslot
  have hround : (UInt16.ofNat (neededLocals result.lines.toList argumentSlots)).toNat =
      neededLocals result.lines.toList argumentSlots :=
    UInt16.toNat_ofNat_of_lt' (Nat.lt_of_le_of_lt hle locals.toNat_lt)
  exact ⟨_, UInt16.le_iff_toNat_le.mpr (hround.symm ▸ hle), maxLocals_eq_ok.mpr hround.symm⟩

end Listing

end BytecodeFold
