import BytecodeFold.Proofs.ConstantPool.Growth
import BytecodeFold.Proofs.Execution.Control
import BytecodeFold.Proofs.Execution.Simulation
import BytecodeFold.Proofs.Listing.Edit

/-!
# Running around a replaced segment

Replacing a line and the segment after it changes neither the other lines nor their order, so a
machine takes the same steps on the new listing as long as it is outside of them. Nothing leads
into the segment but the line before it. What remains is that the new line does in one step what
the old lines did.
-/

namespace BytecodeFold

namespace Listing.Replaced

variable {listing result : Listing} {before segment after : List Line} {first : Line}
  {code : Instruction Handle} {handle : Handle}

theorem head?_eq (replaced : listing.Replaced before first segment after code result) :
    result.head? = listing.head? := by
  rw [head?, head?, ← Array.getElem?_toList, ← Array.getElem?_toList,
    show result.lines.toList = _ from replaced.result_cut,
    show listing.lines.toList = _ from replaced.cut]
  cases before <;> rfl

/-- Where a handle outside the segment stands before and after the replacement. -/
inductive Place (listing result : Listing) (before : List Line) (first : Line)
    (segment after : List Line) (handle : Handle) : Prop where
  | before {front rest : List Line} {line : Line} (split : before = front ++ line :: rest)
      (named : line.handle = handle)
      (cut : listing.Cut front line (rest ++ first :: (segment ++ after)))
      (result_cut : ∃ code, result.Cut front line (rest ++ ⟨first.handle, code, false⟩ :: after))
  | first (named : first.handle = handle)
  | after {front rest : List Line} {line : Line} (split : after = front ++ line :: rest)
      (named : line.handle = handle)
      (cut : listing.Cut (before ++ first :: (segment ++ front)) line rest)
      (result_cut : ∃ code, result.Cut (before ++ ⟨first.handle, code, false⟩ :: front) line rest)
  | absent (old : handle ∉ listing.handles) (new : handle ∉ result.handles)

theorem place (replaced : listing.Replaced before first segment after code result)
    (h : handle ∉ segment.map (·.handle)) :
    Place listing result before first segment after handle := by
  have hcut := replaced.cut
  have hresult := replaced.result_cut
  by_cases hm : handle ∈ listing.handles
  · rw [hcut.handles_eq] at hm
    simp only [List.map_append, List.mem_append, List.mem_cons, List.mem_map] at hm h
    rcases hm with ⟨line, hl, hn⟩ | rfl | ⟨line, hl, hn⟩ | ⟨line, hl, hn⟩
    · obtain ⟨front, rest, hs⟩ := List.append_of_mem hl
      refine .before hs hn ?_ ⟨code, ?_⟩
      · rw [Cut, show listing.lines.toList = _ from hcut, hs]
        simp
      · rw [Cut, show result.lines.toList = _ from hresult, hs]
        simp
    · exact .first rfl
    · exact absurd ⟨line, hl, hn⟩ h
    · obtain ⟨front, rest, hs⟩ := List.append_of_mem hl
      refine .after hs hn ?_ ⟨code, ?_⟩
      · rw [Cut, show listing.lines.toList = _ from hcut, hs]
        simp
      · rw [Cut, show result.lines.toList = _ from hresult, hs]
        simp
  · refine .absent hm ?_
    rw [hresult.handles_eq]
    rw [hcut.handles_eq] at hm
    simp only [List.map_append, List.mem_append, List.mem_cons, not_or] at hm ⊢
    exact ⟨hm.1, hm.2.1, hm.2.2.2⟩

theorem get?_eq (replaced : listing.Replaced before first segment after code result)
    (h : handle ∉ segment.map (·.handle)) (hne : handle ≠ first.handle) :
    result.get? handle = listing.get? handle := by
  cases replaced.place h with
  | before _ named cut result_cut =>
    obtain ⟨code, hresult⟩ := result_cut
    rw [← named, cut.get? replaced.distinct, hresult.get? replaced.result_distinct]
  | first named => exact absurd named.symm hne
  | after _ named cut result_cut =>
    obtain ⟨code, hresult⟩ := result_cut
    rw [← named, cut.get? replaced.distinct, hresult.get? replaced.result_distinct]
  | absent old new => rw [get?_eq_none old, get?_eq_none new]

theorem next?_eq (replaced : listing.Replaced before first segment after code result)
    (h : handle ∉ segment.map (·.handle)) (hne : handle ≠ first.handle) :
    result.next? handle = listing.next? handle := by
  cases replaced.place h with
  | @before front rest line _ named cut result_cut =>
    obtain ⟨code, hresult⟩ := result_cut
    rw [← named, cut.next? replaced.distinct, hresult.next? replaced.result_distinct]
    cases rest <;> rfl
  | first named => exact absurd named.symm hne
  | after _ named cut result_cut =>
    obtain ⟨code, hresult⟩ := result_cut
    rw [← named, cut.next? replaced.distinct, hresult.next? replaced.result_distinct]
  | absent old new =>
    rw [next?, next?, indexOf?_eq_none old, indexOf?_eq_none new]
    rfl

theorem handle_not_mem (replaced : listing.Replaced before first segment after code result)
    {line : Line} (hm : line ∈ before ++ [first] ++ after) :
    line.handle ∉ segment.map (·.handle) := by
  cases segment with
  | nil => simp
  | cons head rest =>
    have hseg : listing.Segment (before ++ [first]) (head :: rest) after head
        ((head :: rest).getLast (by simp)) :=
      ⟨by rw [show listing.lines.toList = _ from replaced.cut]; simp, rfl,
        List.getLast?_eq_some_getLast (by simp)⟩
    exact hseg.handle_not_mem replaced.distinct hm

theorem head?_not_mem (replaced : listing.Replaced before first segment after code result)
    (h : listing.head? = some handle) : handle ∉ segment.map (·.handle) := by
  obtain ⟨line, hline, rfl⟩ := Option.map_eq_some_iff.mp h
  rw [← Array.getElem?_toList, show listing.lines.toList = _ from replaced.cut] at hline
  apply replaced.handle_not_mem
  cases before with
  | nil => simp_all
  | cons head rest => simp_all

/-- Only the line before it leads into the segment. -/
theorem next?_not_mem (replaced : listing.Replaced before first segment after code result)
    (h : handle ∉ segment.map (·.handle)) (hne : handle ≠ first.handle) {next : Handle}
    (hn : listing.next? handle = some next) : next ∉ segment.map (·.handle) := by
  cases replaced.place h with
  | @before front rest line split named cut _ =>
    rw [← named, cut.next? replaced.distinct] at hn
    cases rest with
    | nil =>
      cases hn
      exact replaced.handle_not_mem (by simp)
    | cons head rest =>
      cases hn
      exact replaced.handle_not_mem (by simp [split])
  | first named => exact absurd named.symm hne
  | @after front rest line split named cut _ =>
    rw [← named, cut.next? replaced.distinct] at hn
    obtain ⟨head, hhead, rfl⟩ := Option.map_eq_some_iff.mp hn
    obtain ⟨more, rfl⟩ := List.head?_eq_some_iff.mp hhead
    exact replaced.handle_not_mem (by simp [split])
  | absent old =>
    rw [next?, indexOf?_eq_none old] at hn
    cases hn

/-! ## Exception handlers -/

/-- The place in the stream that a line outside the segment moves to. -/
def shifted (before segment : List Line) (index : Nat) : Nat :=
  if index ≤ before.length then index else index - segment.length

theorem indexOf?_eq (replaced : listing.Replaced before first segment after code result)
    (h : handle ∉ segment.map (·.handle)) :
    result.indexOf? handle = (listing.indexOf? handle).map (shifted before segment) ∧
      ∀ index, listing.indexOf? handle = some index →
        index ≤ before.length ∨ before.length + segment.length < index := by
  cases replaced.place h with
  | @before front rest line split named cut result_cut =>
    obtain ⟨code, hresult⟩ := result_cut
    have hlen : front.length ≤ before.length := by
      rw [split]
      simp
    rw [← named, cut.indexOf? replaced.distinct, hresult.indexOf? replaced.result_distinct]
    refine ⟨by simp [shifted, hlen], ?_⟩
    rintro index ⟨⟩
    exact .inl hlen
  | first named =>
    have hnew := replaced.result_cut.indexOf? replaced.result_distinct
    rw [← named, replaced.cut.indexOf? replaced.distinct, hnew]
    refine ⟨by simp [shifted], ?_⟩
    rintro index ⟨⟩
    exact .inl (Nat.le_refl _)
  | @after front rest line split named cut result_cut =>
    obtain ⟨code, hresult⟩ := result_cut
    rw [← named, cut.indexOf? replaced.distinct, hresult.indexOf? replaced.result_distinct]
    constructor
    · simp only [shifted, List.length_append, List.length_cons, Option.map_some, Option.some.injEq]
      rw [if_neg (by omega)]
      omega
    · rintro index ⟨⟩
      simp only [List.length_append, List.length_cons]
      omega
  | absent old new =>
    rw [indexOf?_eq_none old, indexOf?_eq_none new]
    exact ⟨rfl, fun index h => by cases h⟩

theorem shifted_le_iff {start index : Nat}
    (hs : start ≤ before.length ∨ before.length + segment.length < start)
    (hi : index ≤ before.length ∨ before.length + segment.length < index) :
    shifted before segment start ≤ shifted before segment index ↔ start ≤ index := by
  unfold shifted
  split <;> split <;> omega

/-- A handler covers the same lines outside the segment. -/
theorem covers_eq (replaced : listing.Replaced before first segment after code result)
    {entry : ExceptionHandler} (hm : entry ∈ listing.handlers.toList)
    (h : handle ∉ segment.map (·.handle)) :
    result.covers entry handle = listing.covers entry handle := by
  have hout : ∀ mentioned ∈ entry.handles, mentioned ∉ segment.map (·.handle) :=
    replaced.unreferenced.handlers entry hm
  obtain ⟨hhandle, hhandleBound⟩ := replaced.indexOf?_eq h
  obtain ⟨hstart, hstartBound⟩ :=
    replaced.indexOf?_eq (hout entry.start (by simp [ExceptionHandler.handles]))
  unfold covers
  rw [hhandle, hstart]
  cases hs : listing.indexOf? entry.start with
  | none => simp
  | some start =>
    cases hi : listing.indexOf? handle with
    | none => simp
    | some index =>
      simp only [Option.map_some]
      rw [decide_eq_decide.mpr (shifted_le_iff (hstartBound start hs) (hhandleBound index hi))]
      cases hstop : entry.stop with
      | none => rfl
      | some stop =>
        obtain ⟨hst, hstopBound⟩ :=
          replaced.indexOf?_eq (hout stop (by simp [ExceptionHandler.handles, hstop]))
        simp only [hst]
        cases ht : listing.indexOf? stop with
        | none => rfl
        | some last =>
          have hlt : shifted before segment index < shifted before segment last ↔ index < last := by
            rw [← Nat.not_le, ← Nat.not_le,
              shifted_le_iff (hstopBound last ht) (hhandleBound index hi)]
          simp only [Option.map_some, Option.any_some]
          rw [decide_eq_decide.mpr hlt]

end Listing.Replaced

variable {W : Type} {listing result : Listing} {pool grown : ConstantPool}
  {environment : Environment W} {before segment after : List Line} {first : Line}
  {code : Instruction Handle} {state next : State W} {handle : Handle}

/-! ## Steps outside the segment -/

/-- An instruction does the same with a pool that has grown. -/
theorem Instruction.effect_extends {stack : List Value} {locals : Locals} (h : pool.Extends grown)
    (hne : code.effect pool stack locals ≠ .stuck) :
    code.effect grown stack locals = code.effect pool stack locals := by
  cases code with
  | loadConstant index wide =>
    cases hg : pool.get? index with
    | none => simp [effect, hg] at hne
    | some entry => simp only [effect, hg, h index entry hg]
  | _ => rfl

namespace Listing.Replaced

/-- At a line outside the segment both machines find the same handler. -/
theorem handler?_eq (replaced : listing.Replaced before first segment after code result)
    (h : handle ∉ segment.map (·.handle)) (pool grown : ConstantPool) (exception : Reference) :
    Machine.handler? ⟨result, grown, environment⟩ handle exception =
      Machine.handler? ⟨listing, pool, environment⟩ handle exception := by
  unfold Machine.handler?
  simp only [replaced.handlers_eq]
  rw [← Array.find?_toList, ← Array.find?_toList]
  rw [← List.head?_filter, ← List.head?_filter]
  congr 2
  apply List.filter_congr
  intro entry hm
  rw [replaced.covers_eq hm h]

theorem apply_eq (replaced : listing.Replaced before first segment after code result)
    (h : handle ∉ segment.map (·.handle)) (hne : handle ≠ first.handle) (effect : Effect) :
    Machine.apply ⟨result, grown, environment⟩ handle state effect =
      Machine.apply ⟨listing, pool, environment⟩ handle state effect := by
  have hthrow : ∀ (state : State W) (exception : Reference),
      Machine.throw ⟨result, grown, environment⟩ handle state exception =
        Machine.throw ⟨listing, pool, environment⟩ handle state exception := by
    intro state exception
    simp only [Machine.throw, replaced.handler?_eq h pool grown]
  cases effect with
  | advance => simp only [Machine.apply, replaced.next?_eq h hne]
  | call => simp only [Machine.apply, replaced.next?_eq h hne]
  | request => simp only [Machine.apply, Machine.ask, replaced.next?_eq h hne, hthrow]
  | divisionByZero => simp only [Machine.apply, hthrow]
  | _ => rfl

/-- Control is not inside the segment. -/
def Outside (segment : List Line) (state : State W) : Prop :=
  ∀ handle, state.current = some handle → handle ∉ segment.map (·.handle)

theorem step_eq (replaced : listing.Replaced before first segment after code result)
    (extend : pool.Extends grown) (hout : Outside segment state)
    (hne : state.current ≠ some first.handle)
    (hstuck : Machine.step ⟨listing, pool, environment⟩ state ≠ .stuck) :
    Machine.step ⟨result, grown, environment⟩ state =
      Machine.step ⟨listing, pool, environment⟩ state := by
  cases hc : state.current with
  | none => simp [Machine.step, hc]
  | some handle =>
    have h := hout handle hc
    have hfirst : handle ≠ first.handle := fun he => hne (by rw [hc, he])
    simp only [Machine.step, hc, Option.bind_some, replaced.get?_eq h hfirst] at hstuck ⊢
    cases hg : listing.get? handle with
    | none => rfl
    | some code =>
      simp only [hg, Option.map_some] at hstuck ⊢
      have heffect : code.effect pool state.stack state.locals ≠ .stuck := by
        intro he
        rw [he] at hstuck
        exact hstuck rfl
      rw [Instruction.effect_extends extend heffect, replaced.apply_eq h hfirst]

theorem returnPoint_not_mem (replaced : listing.Replaced before first segment after code result)
    (hcalls : ∀ line ∈ first :: segment, ∀ target, line.instruction ≠ .subroutine target)
    (h : listing.ReturnPoint handle) : handle ∉ segment.map (·.handle) := by
  obtain ⟨call, target, hget, hnext⟩ := h
  have hcall : call ∉ (first :: segment).map (·.handle) := by
    intro hm
    obtain ⟨line, hline, rfl⟩ := List.mem_map.mp hm
    obtain ⟨front, rest, hs⟩ := List.append_of_mem hline
    have cut : listing.Cut (before ++ front) line (rest ++ after) := by
      rw [Cut, show listing.lines.toList = _ from replaced.cut, ← List.cons_append, hs]
      simp
    rw [cut.get? replaced.distinct] at hget
    exact hcalls line hline target (Option.some.inj hget)
  rw [List.map_cons, List.mem_cons, not_or] at hcall
  exact replaced.next?_not_mem hcall.2 hcall.1 hnext

/-- A step outside the segment stays outside. -/
theorem outside_step (replaced : listing.Replaced before first segment after code result)
    (hcalls : ∀ line ∈ first :: segment, ∀ target, line.instruction ≠ .subroutine target)
    (genuine : state.Genuine listing) (hout : Outside segment state)
    (hne : state.current ≠ some first.handle)
    (hstep : Machine.step ⟨listing, pool, environment⟩ state = .next next) :
    Outside segment next := by
  obtain ⟨handle, code, hcurrent, hcode, hmove⟩ := Machine.step_eq_next hstep
  have h := hout handle hcurrent
  have hfirst : handle ≠ first.handle := fun he => hne (by rw [hcurrent, he])
  obtain ⟨_, line, _, cut, rfl, rfl⟩ := exists_cut_of_get? hcode replaced.distinct
  intro target htarget
  cases hmove with
  | advance => exact replaced.next?_not_mem h hfirst htarget
  | proceed => exact replaced.next?_not_mem h hfirst htarget
  | goto effect =>
    cases htarget
    exact replaced.unreferenced.lines line cut.mem h _ (Instruction.effect_goto effect).1
  | call effect =>
    cases htarget
    refine replaced.unreferenced.lines line cut.mem h _ ?_
    simp [Instruction.effect_call effect, Instruction.targets]
  | ret effect =>
    obtain ⟨slot, hslot⟩ := Instruction.effect_ret effect
    cases htarget
    exact replaced.returnPoint_not_mem hcalls (genuine.locals slot target hslot)
  | caught mem =>
    cases htarget
    exact replaced.unreferenced.handlers _ mem _ (by simp [ExceptionHandler.handles])

/-- The replacement is right if the new line does in one step what the old ones did. -/
theorem sameBehaviour (replaced : listing.Replaced before first segment after code result)
    (extend : pool.Extends grown)
    (hcalls : ∀ line ∈ first :: segment, ∀ target, line.instruction ≠ .subroutine target)
    {initial : Locals} {world : W}
    (genuine : Machine.Genuine ⟨listing, pool, environment⟩ initial)
    (never : Machine.NeverStuck ⟨listing, pool, environment⟩
      (Machine.start ⟨listing, pool, environment⟩ initial world))
    (hfirst : ∀ state : State W, Machine.Reaches ⟨listing, pool, environment⟩
        (Machine.start ⟨listing, pool, environment⟩ initial world) state →
      state.current = some first.handle →
      ∃ final, Machine.step ⟨result, grown, environment⟩ state = .next final ∧
        Outside segment final ∧ Machine.Silently ⟨listing, pool, environment⟩ final state) :
    SameBehaviour ⟨listing, pool, environment⟩ ⟨result, grown, environment⟩ initial world := by
  have hstart : Machine.start ⟨result, grown, environment⟩ initial world =
      Machine.start ⟨listing, pool, environment⟩ initial world := by
    simp only [Machine.start, replaced.head?_eq]
  refine sameBehaviour_of_inStep hstart (Machine.InStep.mk ?_ ?_ :
    Machine.InStep _ _ _ (Outside segment)) never
  · exact fun handle hh => replaced.head?_not_mem hh
  · intro state hreach hout
    by_cases hne : state.current = some first.handle
    · exact .inr (hfirst state hreach hne)
    · refine .inl ⟨replaced.step_eq extend hout hne (never state hreach), ?_⟩
      intro next hstep
      exact replaced.outside_step hcalls (genuine.reaches hreach) hout hne hstep

end Listing.Replaced

end BytecodeFold
