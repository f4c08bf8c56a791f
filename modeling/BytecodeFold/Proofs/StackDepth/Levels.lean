import BytecodeFold.Proofs.StackDepth
import Mathlib.Order.Bounds.Basic
import Mathlib.Order.MinMax

/-!
# Consistent depths

A listing is consistent if every instruction that control can reach has one depth, whatever the way
to it: none at the start, the thrown exception at a handler, the depth an instruction leaves at its
targets and at the line after it, and the depth before a call at the line after the call. The walk
visits an instruction once, in an order that is its own affair. On a consistent listing the order
does not matter: the walk comes to every instruction that control reaches, each time with its one
depth, and so `maxStack` is the greatest depth there is.

The walk is also followed pop by pop, which bounds the length of its run by the number of entries
and edges.
-/

namespace BytecodeFold

namespace Listing

variable {listing : Listing} {pool : ConstantPool} {depth : Handle → Int} {handle next : Handle}
  {effect : StackEffect}

/-! ## Where control goes -/

/-- Control goes on to another handle, with the stack that the instruction leaves. -/
inductive Continues (listing : Listing) (handle : Handle) : Handle → Prop where
  | target {target : Handle} {code : Instruction Handle} (code_eq : listing.get? handle = some code)
      (mem : target ∈ code.targets) : Continues listing handle target
  | next {next : Handle} {code : Instruction Handle} (code_eq : listing.get? handle = some code)
      (falls : code.fallsThrough = true) (ordinary : ∀ target, code ≠ .subroutine target)
      (next_eq : listing.next? handle = some next) : Continues listing handle next

/-- Control comes back from a subroutine to the line after the call, with the stack from before
the call. -/
structure Resumes (listing : Listing) (handle next : Handle) : Prop where
  call : ∃ target, listing.get? handle = some (.subroutine target)
  next_eq : listing.next? handle = some next

/-- What control can reach from the head and from the exception handlers. -/
inductive Reachable (listing : Listing) : Handle → Prop where
  | head {handle : Handle} (h : listing.head? = some handle) : Reachable listing handle
  | handler {entry : ExceptionHandler} (mem : entry ∈ listing.handlers.toList) :
      Reachable listing entry.handler
  | continues {handle next : Handle} (source : Reachable listing handle)
      (h : listing.Continues handle next) : Reachable listing next
  | resumes {handle next : Handle} (source : Reachable listing handle)
      (h : listing.Resumes handle next) : Reachable listing next

/-- The instruction under a handle has this effect. -/
def HasEffect (listing : Listing) (pool : ConstantPool) (handle : Handle) (effect : StackEffect) :
    Prop :=
  ∃ code, listing.get? handle = some code ∧ code.stackEffect pool = .ok effect

/-- A depth for every instruction that control reaches, the same on every way to it. Control only
reaches handles of the stream, and the effects of the instructions there are known. -/
structure Levels (listing : Listing) (pool : ConstantPool) (depth : Handle → Int) : Prop where
  known : ∀ handle, listing.Reachable handle → ∃ effect, listing.HasEffect pool handle effect
  head : ∀ handle, listing.head? = some handle → depth handle = 0
  handler : ∀ entry ∈ listing.handlers.toList, depth entry.handler = 1
  continues : ∀ {handle next : Handle} {effect : StackEffect}, listing.Reachable handle →
    listing.HasEffect pool handle effect → listing.Continues handle next →
      depth next = depth handle - effect.pops + effect.pushes
  resumes : ∀ {handle next : Handle}, listing.Reachable handle → listing.Resumes handle next →
    depth next = depth handle

/-- Nothing that control reaches takes more from the stack than there is. -/
def Covered (listing : Listing) (pool : ConstantPool) (depth : Handle → Int) : Prop :=
  ∀ handle effect, listing.Reachable handle → listing.HasEffect pool handle effect →
    (effect.pops : Int) ≤ depth handle

/-- The depths before and after every instruction that control reaches. -/
def reachedDepths (listing : Listing) (pool : ConstantPool) (depth : Handle → Int) : Set Int :=
  fun level => ∃ handle effect, listing.Reachable handle ∧ listing.HasEffect pool handle effect ∧
    (level = depth handle ∨ level = depth handle - effect.pops + effect.pushes)

theorem HasEffect.unique {other : StackEffect} (h : listing.HasEffect pool handle effect)
    (h' : listing.HasEffect pool handle other) : effect = other := by
  obtain ⟨code, hcode, heffect⟩ := h
  obtain ⟨code', hcode', heffect'⟩ := h'
  rw [hcode] at hcode'
  cases hcode'
  rw [heffect] at heffect'
  exact Except.ok.inj heffect'

theorem HasEffect.live (h : listing.HasEffect pool handle effect) : handle ∈ listing.handles := by
  obtain ⟨code, hcode, -⟩ := h
  by_contra habsent
  rw [get?_eq_none habsent] at hcode
  cases hcode

theorem HasEffect.head?_ne_none (h : listing.HasEffect pool handle effect) :
    listing.head? ≠ none := by
  obtain ⟨line, hm, -⟩ := List.mem_map.mp h.live
  rw [head?_eq_head?]
  intro hnone
  rw [Option.map_eq_none_iff, List.head?_eq_none_iff] at hnone
  rw [hnone] at hm
  cases hm

/-! ## What the walk pushes -/

theorem sites_eq_some_iff (distinct : listing.Distinct) {site : Site} :
    listing.sites[handle]? = some site ↔
      listing.get? handle = some site.instruction ∧ listing.next? handle = site.next := by
  constructor
  · intro h
    obtain ⟨before, line, after, cut, rfl, rfl⟩ := (sites_eq_some distinct).mp h
    exact ⟨cut.get? distinct, cut.next? distinct⟩
  · rintro ⟨hcode, hnext⟩
    obtain ⟨before, line, after, cut, rfl, hline⟩ := exists_cut_of_get? hcode distinct
    rw [cut.next? distinct] at hnext
    rw [cut.sites_eq distinct, hline, hnext]

/-- The entries that a visit pushes are the handles control goes to, each with its depth. -/
theorem mem_successors (distinct : listing.Distinct) {site : Site}
    (h : listing.sites[handle]? = some site) {before after level : Nat} :
    (next, level) ∈ site.successors before after ↔
      listing.Continues handle next ∧ level = after ∨ listing.Resumes handle next ∧
        level = before := by
  obtain ⟨hcode, hnext⟩ := (sites_eq_some_iff distinct).mp h
  obtain ⟨code, following⟩ := site
  dsimp only at hcode hnext
  by_cases hcall : ∃ target, code = .subroutine target
  · obtain ⟨target, rfl⟩ := hcall
    have hmem : (next, level) ∈ (Site.mk (.subroutine target) following).successors before after ↔
        following = some next ∧ level = before ∨ next = target ∧ level = after := by
      simp [Site.successors, eq_comm]
    rw [hmem]
    constructor
    · rintro (⟨hf, hl⟩ | ⟨rfl, hl⟩)
      · exact .inr ⟨⟨⟨target, hcode⟩, hnext.trans hf⟩, hl⟩
      · exact .inl ⟨.target hcode (List.mem_singleton_self _), hl⟩
    · rintro (⟨hcontinues, hl⟩ | ⟨hresumes, hl⟩)
      · cases hcontinues with
        | target code_eq mem =>
          cases hcode.symm.trans code_eq
          exact .inr ⟨List.mem_singleton.mp mem, hl⟩
        | next code_eq _ ordinary _ =>
          cases hcode.symm.trans code_eq
          exact absurd rfl (ordinary target)
      · exact .inl ⟨hnext.symm.trans hresumes.next_eq, hl⟩
  · have hordinary : ∀ target, code ≠ .subroutine target := fun target he => hcall ⟨target, he⟩
    have hmem : (next, level) ∈ (Site.mk code following).successors before after ↔
        (code.fallsThrough = true ∧ following = some next ∨ next ∈ code.targets) ∧
          level = after := by
      unfold Site.successors
      split
      case h_1 target he => exact absurd he (hordinary target)
      case h_2 =>
        cases code.fallsThrough <;> simp only [Bool.false_eq_true, if_true, if_false, List.mem_map,
          List.mem_append, List.mem_reverse, Option.mem_toList, Prod.mk.injEq,
          List.nil_append] <;> grind
    rw [hmem]
    constructor
    · rintro ⟨⟨hfalls, hf⟩ | ht, hl⟩
      · exact .inl ⟨.next hcode hfalls hordinary (hnext.trans hf), hl⟩
      · exact .inl ⟨.target hcode ht, hl⟩
    · rintro (⟨hcontinues, hl⟩ | ⟨hresumes, -⟩)
      · refine ⟨?_, hl⟩
        cases hcontinues with
        | target code_eq mem =>
          cases hcode.symm.trans code_eq
          exact .inr mem
        | next code_eq falls _ next_eq =>
          cases hcode.symm.trans code_eq
          exact .inl ⟨falls, hnext.symm.trans next_eq⟩
      · obtain ⟨target, hcall⟩ := hresumes.call
        cases hcode.symm.trans hcall
        exact absurd rfl (hordinary target)

theorem mem_entryPoints {level : Nat} : (handle, level) ∈ listing.entryPoints ↔
    (∃ entry ∈ listing.handlers.toList, entry.handler = handle ∧ level = 1) ∨
      listing.head? = some handle ∧ level = 0 := by
  simp only [entryPoints, List.mem_append, List.mem_map, List.mem_reverse, Option.mem_toList,
    Prod.mk.injEq]
  constructor
  · rintro (⟨entry, hm, rfl, rfl⟩ | ⟨head, hh, rfl, rfl⟩)
    · exact .inl ⟨entry, hm, rfl, rfl⟩
    · exact .inr ⟨hh, rfl⟩
  · rintro (⟨entry, hm, rfl, rfl⟩ | ⟨hh, rfl⟩)
    · exact .inl ⟨entry, hm, rfl, rfl⟩
    · exact .inr ⟨handle, hh, rfl, rfl⟩

/-! ## The walk on a consistent listing -/

section

variable {pending : Std.HashMap Handle Site} {agenda : List (Handle × Nat)} {deepest level : Nat}

/-- The walk has been at a handle or is still to come to it. -/
def Scheduled (pending : Std.HashMap Handle Site) (agenda : List (Handle × Nat)) (handle : Handle) :
    Prop :=
  pending[handle]? = none ∨ ∃ level, (handle, level) ∈ agenda

/-- Where the walk stands. What it has been at is covered and not deeper than the greatest depth so
far, and no way leads out of it but to handles that the walk is still to come to. -/
structure Stage (listing : Listing) (pool : ConstantPool) (depth : Handle → Int)
    (pending : Std.HashMap Handle Site) (agenda : List (Handle × Nat)) (deepest : Nat) : Prop where
  sites : ∀ (handle : Handle) (site : Site), pending[handle]? = some site →
    listing.sites[handle]? = some site
  due : ∀ handle level, (handle, level) ∈ agenda → listing.Reachable handle ∧ depth handle = level
  entries : ∀ handle level, (handle, level) ∈ listing.entryPoints → Scheduled pending agenda handle
  ways : ∀ handle next, pending[handle]? = none →
    listing.Continues handle next ∨ listing.Resumes handle next → Scheduled pending agenda next
  bounded : ∀ handle effect, pending[handle]? = none → listing.HasEffect pool handle effect →
    (effect.pops : Int) ≤ depth handle ∧ depth handle ≤ deepest ∧
      depth handle - effect.pops + effect.pushes ≤ deepest
  attained : deepest = 0 ∨ (deepest : Int) ∈ listing.reachedDepths pool depth

theorem Scheduled.pop (h : Scheduled pending ((handle, level) :: agenda) next)
    (visited : pending[handle]? = none) : Scheduled pending agenda next := by
  rcases h with h | ⟨level', hm⟩
  · exact .inl h
  · rcases List.mem_cons.mp hm with he | hm
    · cases he
      exact .inl visited
    · exact .inr ⟨level', hm⟩

theorem Scheduled.visit (h : Scheduled pending ((handle, level) :: agenda) next)
    (pushed : List (Handle × Nat)) : Scheduled (pending.erase handle) (pushed ++ agenda) next := by
  by_cases he : handle = next
  · exact .inl (by simp [he])
  · rcases h with h | ⟨level', hm⟩
    · exact .inl (by simp [Std.HashMap.getElem?_erase, h])
    · rcases List.mem_cons.mp hm with heq | hm
      · cases heq
        exact absurd rfl he
      · exact .inr ⟨level', List.mem_append_right _ hm⟩

theorem getElem?_erase_eq_none {other : Handle} (h : (pending.erase handle)[other]? = none) :
    other = handle ∨ pending[other]? = none := by
  rw [Std.HashMap.getElem?_erase] at h
  by_cases he : handle = other
  · exact .inl he.symm
  · exact .inr (by simpa [he] using h)

theorem Stage.start (distinct : listing.Distinct) (levels : listing.Levels pool depth) :
    listing.Stage pool depth listing.sites listing.entryPoints 0 := by
  have hunseen : ∀ {handle : Handle}, listing.sites[handle]? = none →
      listing.get? handle = none := by
    intro handle hnone
    apply get?_eq_none
    rw [← contains_sites distinct, ← Std.HashMap.isSome_getElem?_eq_contains, hnone]
    simp
  refine ⟨fun _ _ h => h, ?_, fun _ level h => .inr ⟨level, h⟩, ?_, ?_, .inl rfl⟩
  · intro handle level hm
    rcases mem_entryPoints.mp hm with ⟨entry, he, rfl, rfl⟩ | ⟨hh, rfl⟩
    · exact ⟨.handler he, levels.handler entry he⟩
    · exact ⟨.head hh, levels.head handle hh⟩
  · rintro handle next hnone (hcontinues | hresumes)
    · cases hcontinues with
      | target code_eq _ => cases (hunseen hnone).symm.trans code_eq
      | next code_eq _ _ _ => cases (hunseen hnone).symm.trans code_eq
    · obtain ⟨target, hcall⟩ := hresumes.call
      cases (hunseen hnone).symm.trans hcall
  · rintro handle effect hnone ⟨code, hcode, -⟩
    cases (hunseen hnone).symm.trans hcode

/-- Popping an entry of an instruction that has been visited. -/
theorem Stage.pop (stage : listing.Stage pool depth pending ((handle, level) :: agenda) deepest)
    (visited : pending[handle]? = none) : listing.Stage pool depth pending agenda deepest where
  sites := stage.sites
  due other level' hm := stage.due other level' (List.mem_cons_of_mem _ hm)
  entries other level' hm := (stage.entries other level' hm).pop visited
  ways other next hnone hway := (stage.ways other next hnone hway).pop visited
  bounded := stage.bounded
  attained := stage.attained

/-- Visiting an instruction. -/
theorem Stage.visit (distinct : listing.Distinct) (levels : listing.Levels pool depth)
    (stage : listing.Stage pool depth pending ((handle, level) :: agenda) deepest) {site : Site}
    (found : pending[handle]? = some site) (known : site.instruction.stackEffect pool = .ok effect)
    (enough : effect.pops ≤ level) :
    listing.Stage pool depth (pending.erase handle)
      (site.successors level (level - effect.pops + effect.pushes) ++ agenda)
      (max (max deepest level) (level - effect.pops + effect.pushes)) := by
  obtain ⟨hreachable, hdepth⟩ := stage.due handle level List.mem_cons_self
  have hsite := stage.sites handle site found
  have heffect : listing.HasEffect pool handle effect :=
    ⟨_, ((sites_eq_some_iff distinct).mp hsite).1, known⟩
  have hafter : ((level - effect.pops + effect.pushes : Nat) : Int) =
      depth handle - effect.pops + effect.pushes := by omega
  refine ⟨fun other _ h => stage.sites other _ (getElem?_of_erase h), ?_,
    fun other level' hm => (stage.entries other level' hm).visit _, ?_, ?_, ?_⟩
  · intro other level' hm
    rcases List.mem_append.mp hm with hm | hm
    · rcases (mem_successors distinct hsite).mp hm with ⟨hway, rfl⟩ | ⟨hway, rfl⟩
      · exact ⟨.continues hreachable hway,
          (levels.continues hreachable heffect hway).trans hafter.symm⟩
      · exact ⟨.resumes hreachable hway, (levels.resumes hreachable hway).trans hdepth⟩
    · exact stage.due other level' (List.mem_cons_of_mem _ hm)
  · intro other next hnone hway
    rcases getElem?_erase_eq_none hnone with rfl | hold
    · rcases hway with hway | hway
      · exact .inr ⟨_,
          List.mem_append_left _ ((mem_successors distinct hsite).mpr (.inl ⟨hway, rfl⟩))⟩
      · exact .inr ⟨_,
          List.mem_append_left _ ((mem_successors distinct hsite).mpr (.inr ⟨hway, rfl⟩))⟩
    · exact (stage.ways other next hold hway).visit _
  · intro other effect' hnone heffect'
    rcases getElem?_erase_eq_none hnone with rfl | hold
    · cases heffect.unique heffect'
      omega
    · have := stage.bounded other effect' hold heffect'
      omega
  · rcases max_choice (max deepest level) (level - effect.pops + effect.pushes) with hmax | hmax
    · rw [hmax]
      rcases max_choice deepest level with hmax' | hmax'
      · rw [hmax']
        exact stage.attained
      · rw [hmax']
        exact .inr ⟨handle, effect, hreachable, heffect, .inl hdepth.symm⟩
    · rw [hmax]
      exact .inr ⟨handle, effect, hreachable, heffect, .inr hafter⟩

/-- A walk with nothing left to visit has been everywhere. -/
theorem Stage.visited (stage : listing.Stage pool depth pending [] deepest)
    (reachable : listing.Reachable handle) : pending[handle]? = none := by
  have hdone : ∀ {other : Handle}, Scheduled pending [] other → pending[other]? = none := by
    rintro other (h | ⟨level, hm⟩)
    · exact h
    · cases hm
  induction reachable with
  | @head handle h => exact hdone (stage.entries handle 0 (mem_entryPoints.mpr (.inr ⟨h, rfl⟩)))
  | @handler entry mem =>
    exact hdone (stage.entries _ 1 (mem_entryPoints.mpr (.inl ⟨entry, mem, rfl, rfl⟩)))
  | continues _ h ih => exact hdone (stage.ways _ _ ih (.inl h))
  | resumes _ h ih => exact hdone (stage.ways _ _ ih (.inr h))

/-- The walk ends with the greatest depth if the stack covers every instruction, and with a
complaint if it does not. -/
theorem Stage.walk (distinct : listing.Distinct) (levels : listing.Levels pool depth)
    (stage : listing.Stage pool depth pending agenda deepest) :
    (∃ cause, walk listing.sites pool pending agenda deepest = .error (.malformed cause) ∧
      ¬ listing.Covered pool depth) ∨
    ∃ final : Nat, walk listing.sites pool pending agenda deepest = .ok final ∧
      listing.Covered pool depth ∧ (∀ level ∈ listing.reachedDepths pool depth, level ≤ final) ∧
      (final = 0 ∨ (final : Int) ∈ listing.reachedDepths pool depth) := by
  fun_induction Listing.walk listing.sites pool pending agenda deepest with
  | case1 pending deepest =>
    refine .inr ⟨deepest, rfl, ?_, ?_, stage.attained⟩
    · intro handle effect hreachable heffect
      exact (stage.bounded handle effect (stage.visited hreachable) heffect).1
    · rintro level ⟨handle, effect, hreachable, heffect, rfl | rfl⟩
      · exact (stage.bounded handle effect (stage.visited hreachable) heffect).2.1
      · exact (stage.bounded handle effect (stage.visited hreachable) heffect).2.2
  | case2 pending deepest handle level agenda hfound hcontains ih => exact ih (stage.pop hfound)
  | case3 pending deepest handle level agenda hfound hcontains =>
    obtain ⟨effect, heffect⟩ := levels.known handle (stage.due handle level List.mem_cons_self).1
    exact absurd ((contains_sites distinct).mpr heffect.live) hcontains
  | case4 pending deepest handle level agenda site hfound e he =>
    obtain ⟨effect, code, hcode, heffect⟩ :=
      levels.known handle (stage.due handle level List.mem_cons_self).1
    have hsite := ((sites_eq_some_iff distinct).mp (stage.sites handle site hfound)).1
    cases hsite.symm.trans hcode
    cases he.symm.trans heffect
  | case5 pending deepest handle level agenda site hfound effect he hunder =>
    obtain ⟨hreachable, hdepth⟩ := stage.due handle level List.mem_cons_self
    have hsite := ((sites_eq_some_iff distinct).mp (stage.sites handle site hfound)).1
    refine .inl ⟨_, rfl, fun covered => ?_⟩
    have := covered handle effect hreachable ⟨_, hsite, he⟩
    omega
  | case6 pending deepest handle level agenda site hfound effect he hunder after =>
    rename_i ih
    exact ih (stage.visit distinct levels hfound he (Nat.le_of_not_lt hunder))

end

theorem maxStack_eq (listing : Listing) (pool : ConstantPool) :
    listing.maxStack pool = (do
      let deepest ← walk listing.sites pool listing.sites listing.entryPoints 0
      if deepest ≤ 65535 then return UInt16.ofNat deepest
      else throw (.malformed (.stackTooDeep deepest))) :=
  rfl

/-- On a consistent listing the result is the greatest depth, if the stack covers every instruction
and the depth has a place in the code array. -/
theorem maxStack_of_levels (distinct : listing.Distinct) (levels : listing.Levels pool depth)
    (covered : listing.Covered pool depth)
    (fits : ∀ level ∈ listing.reachedDepths pool depth, level ≤ 65535) :
    ∃ deepest : UInt16, listing.maxStack pool = .ok deepest ∧
      (∀ level ∈ listing.reachedDepths pool depth, level ≤ deepest.toNat) ∧
      (deepest.toNat = 0 ∨ (deepest.toNat : Int) ∈ listing.reachedDepths pool depth) := by
  rcases (Stage.start distinct levels).walk distinct levels with
    ⟨cause, -, huncovered⟩ | ⟨final, hwalk, -, hbound, hattained⟩
  · exact absurd covered huncovered
  have hle : final ≤ 65535 := by
    rcases hattained with rfl | hattained
    · exact Nat.zero_le _
    · have := fits _ hattained
      omega
  have hround : (UInt16.ofNat final).toNat = final :=
    UInt16.toNat_ofNat_of_lt' (Nat.lt_succ_of_le hle)
  refine ⟨UInt16.ofNat final, ?_, by rwa [hround], by rwa [hround]⟩
  exact Outcome.bind_eq_ok.mpr ⟨final, hwalk, if_pos hle⟩

/-- Otherwise the code is malformed. -/
theorem maxStack_eq_malformed (distinct : listing.Distinct) (levels : listing.Levels pool depth)
    (bad : ¬ (listing.Covered pool depth ∧
      ∀ level ∈ listing.reachedDepths pool depth, level ≤ 65535)) :
    ∃ cause, listing.maxStack pool = .error (.malformed cause) := by
  rcases (Stage.start distinct levels).walk distinct levels with
    ⟨cause, hwalk, -⟩ | ⟨final, hwalk, hcovered, hbound, -⟩
  · exact ⟨cause, by rw [maxStack_eq, hwalk]; rfl⟩
  · have hdeep : ¬ final ≤ 65535 := by
      intro hle
      refine bad ⟨hcovered, fun level hm => ?_⟩
      have := hbound level hm
      omega
    refine ⟨.stackTooDeep final, ?_⟩
    rw [maxStack_eq, hwalk, Outcome.ok_bind, if_neg hdeep]
    rfl

/-! ## How long the walk takes -/

/-- The walk, stopped when it has popped this many entries. -/
def walkWithin (sites : Std.HashMap Handle Site) (pool : ConstantPool) :
    Nat → Std.HashMap Handle Site → List (Handle × Nat) → Nat → Option (Except Error Nat)
  | _, _, [], deepest => some (.ok deepest)
  | 0, _, _ :: _, _ => none
  | pops + 1, pending, (handle, depth) :: agenda, deepest =>
    match pending[handle]? with
    | none =>
      if sites.contains handle then walkWithin sites pool pops pending agenda deepest
      else some (.error (.invalidHandle handle))
    | some site =>
      match site.instruction.stackEffect pool with
      | .error e => some (.error e)
      | .ok effect =>
        if depth < effect.pops then
          some (.error (.malformed
            (.stackUnderflow handle site.instruction.text depth effect.pops)))
        else
          let after := depth - effect.pops + effect.pushes
          walkWithin sites pool pops (pending.erase handle)
            (site.successors depth after ++ agenda) (max (max deepest depth) after)

/-- The most entries that the lines which are still pending can push. -/
def pushesLeft (pending : Std.HashMap Handle Site) : List Line → Nat
  | [] => 0
  | line :: rest =>
    (if pending.contains line.handle then 1 + line.instruction.targets.length else 0) +
      pushesLeft pending rest

theorem Site.length_successors_le (site : Site) (depth after : Nat) :
    (site.successors depth after).length ≤ 1 + site.instruction.targets.length := by
  have hnext : site.next.toList.length ≤ 1 := by cases site.next <;> simp
  unfold successors
  split
  case h_1 target he => simp [he, Instruction.targets]
  case h_2 =>
    simp only [List.length_map, List.length_append, List.length_reverse]
    split
    · omega
    · simp

theorem pushesLeft_erase_le (pending : Std.HashMap Handle Site) (handle : Handle)
    (lines : List Line) :
    pushesLeft (pending.erase handle) lines ≤ pushesLeft pending lines := by
  induction lines with
  | nil => exact Nat.le_refl _
  | cons first rest ih =>
    simp only [pushesLeft, Std.HashMap.contains_erase]
    by_cases he : handle = first.handle
    · simp only [he, beq_self_eq_true, Bool.not_true, Bool.false_and, Bool.false_eq_true, if_false]
      rw [he] at ih
      omega
    · simp only [beq_false_of_ne he, Bool.not_false, Bool.true_and]
      omega

/-- Visiting a line gives back what it can push. -/
theorem pushesLeft_visit {pending : Std.HashMap Handle Site} {lines : List Line} {line : Line}
    (mem : line ∈ lines) (present : pending.contains line.handle = true) :
    pushesLeft (pending.erase line.handle) lines + (1 + line.instruction.targets.length) ≤
      pushesLeft pending lines := by
  induction lines with
  | nil => cases mem
  | cons first rest ih =>
    rcases List.mem_cons.mp mem with rfl | mem
    · have hrest := pushesLeft_erase_le pending line.handle rest
      simp only [pushesLeft, Std.HashMap.contains_erase, beq_self_eq_true, Bool.not_true,
        Bool.false_and, Bool.false_eq_true, if_false, present, if_true]
      omega
    · have hrest := ih mem
      have hfirst := pushesLeft_erase_le pending line.handle [first]
      simp only [pushesLeft] at hfirst ⊢
      omega

/-- The walk is over when it has popped what is on the agenda and what the pending lines push. -/
theorem walkWithin_eq_walk (distinct : listing.Distinct) {pending : Std.HashMap Handle Site}
    {agenda : List (Handle × Nat)} {deepest pops : Nat}
    (hsites : ∀ (handle : Handle) (site : Site), pending[handle]? = some site →
      listing.sites[handle]? = some site)
    (enough : agenda.length + pushesLeft pending listing.lines.toList ≤ pops) :
    walkWithin listing.sites pool pops pending agenda deepest =
      some (walk listing.sites pool pending agenda deepest) := by
  induction pops generalizing pending agenda deepest with
  | zero =>
    cases agenda with
    | nil => rw [walkWithin, walk]
    | cons entry agenda =>
      rw [List.length_cons] at enough
      omega
  | succ pops ih =>
    cases agenda with
    | nil => rw [walkWithin, walk]
    | cons entry agenda =>
      obtain ⟨handle, level⟩ := entry
      rw [List.length_cons] at enough
      rw [walk]
      split
      case h_1 hfound =>
        simp only [walkWithin, hfound]
        by_cases hcontains : listing.sites.contains handle = true
        · rw [if_pos hcontains, if_pos hcontains]
          exact ih hsites (by omega)
        · rw [if_neg hcontains, if_neg hcontains]
      case h_2 site hfound =>
        simp only [walkWithin, hfound]
        cases site.instruction.stackEffect pool with
        | error e => rfl
        | ok effect =>
          by_cases hunder : level < effect.pops
          · simp only [if_pos hunder]
          · simp only [if_neg hunder]
            refine ih (fun other site hs => hsites other site (getElem?_of_erase hs)) ?_
            -- what the visit pushes was counted as long as the line was pending
            obtain ⟨before, line, following, cut, rfl, rfl⟩ :=
              (sites_eq_some distinct).mp (hsites handle site hfound)
            have hpresent : pending.contains line.handle = true := by
              rw [← Std.HashMap.isSome_getElem?_eq_contains, hfound]
              rfl
            have hleft := pushesLeft_visit cut.mem hpresent
            have hpushed := Site.length_successors_le
              ⟨line.instruction, following.head?.map (·.handle)⟩ level
              (level - effect.pops + effect.pushes)
            rw [List.length_append]
            dsimp only at hpushed
            omega

/-- The most entries that the walk of a listing can pop: one for each exception handler and for the
head, one for each line to go on to the next, and one for each target. -/
def workload (listing : Listing) : Nat :=
  listing.handlers.size + 1 + listing.size +
    (listing.lines.toList.flatMap (·.instruction.targets)).length

theorem pushesLeft_le (pending : Std.HashMap Handle Site) (lines : List Line) :
    pushesLeft pending lines ≤ lines.length + (lines.flatMap (·.instruction.targets)).length := by
  induction lines with
  | nil => exact Nat.le_refl _
  | cons first rest ih =>
    simp only [pushesLeft, List.flatMap_cons, List.length_append, List.length_cons]
    split
    · omega
    · omega

theorem walkWithin_workload (distinct : listing.Distinct) (pool : ConstantPool) :
    walkWithin listing.sites pool listing.workload listing.sites listing.entryPoints 0 =
      some (walk listing.sites pool listing.sites listing.entryPoints 0) := by
  apply walkWithin_eq_walk distinct (fun _ _ h => h)
  have hhead : listing.head?.toList.length ≤ 1 := by cases listing.head? <;> simp
  have hpushes := pushesLeft_le listing.sites listing.lines.toList
  simp only [entryPoints, workload, size, List.length_append, List.length_map, List.length_reverse,
    Array.length_toList] at hpushes ⊢
  omega

/-! ## Checking depths -/

/-- Whether the depths around a line agree, the stack covers it and is not deeper than `limit`. -/
def levelCheckAt (listing : Listing) (pool : ConstantPool) (depth : Handle → Int) (limit : Int)
    (line : Line) : Bool :=
  match line.instruction.stackEffect pool with
  | .error _ => false
  | .ok effect =>
    let before := depth line.handle
    let after := before - effect.pops + effect.pushes
    let resumed := match line.instruction with
      | .subroutine _ => before
      | _ => after
    effect.pops ≤ before && before ≤ limit && after ≤ limit &&
      line.instruction.targets.all
        (fun target => listing.contains target && depth target == after) &&
      (!line.instruction.fallsThrough || (listing.next? line.handle).all (depth · == resumed))

/-- Whether these depths are consistent at every line. -/
def levelCheck (listing : Listing) (pool : ConstantPool) (depth : Handle → Int) (limit : Int) :
    Bool :=
  listing.lines.toList.all (listing.levelCheckAt pool depth limit) &&
    listing.handlers.toList.all (fun entry => listing.contains entry.handler &&
    depth entry.handler == 1) && listing.head?.all (depth · == 0)

/-- What the check of a line finds. -/
structure Agrees (listing : Listing) (pool : ConstantPool) (depth : Handle → Int) (limit : Int)
    (line : Line) (effect : StackEffect) : Prop where
  known : line.instruction.stackEffect pool = .ok effect
  covered : (effect.pops : Int) ≤ depth line.handle
  before_le : depth line.handle ≤ limit
  after_le : depth line.handle - effect.pops + effect.pushes ≤ limit
  targets : ∀ target ∈ line.instruction.targets, target ∈ listing.handles ∧
    depth target = depth line.handle - effect.pops + effect.pushes
  next : ∀ next, (∀ target, line.instruction ≠ .subroutine target) →
    line.instruction.fallsThrough = true → listing.next? line.handle = some next →
      depth next = depth line.handle - effect.pops + effect.pushes
  resumed : ∀ target next, line.instruction = .subroutine target →
    listing.next? line.handle = some next → depth next = depth line.handle

/-- What the check of a listing finds. -/
structure Checked (listing : Listing) (pool : ConstantPool) (depth : Handle → Int) (limit : Int) :
    Prop where
  distinct : listing.Distinct
  lines : ∀ line ∈ listing.lines.toList, ∃ effect, listing.Agrees pool depth limit line effect
  handlers : ∀ entry ∈ listing.handlers.toList, entry.handler ∈ listing.handles ∧
    depth entry.handler = 1
  head : ∀ handle, listing.head? = some handle → depth handle = 0

section

variable {limit : Int} {line : Line}

theorem agrees_of_check (h : listing.levelCheckAt pool depth limit line = true) :
    ∃ effect, listing.Agrees pool depth limit line effect := by
  unfold levelCheckAt at h
  split at h
  case h_1 => cases h
  case h_2 effect heffect =>
    simp only [Bool.and_eq_true, decide_eq_true_eq, List.all_eq_true, beq_iff_eq, contains_iff,
      Bool.or_eq_true, Bool.not_eq_true'] at h
    obtain ⟨⟨⟨⟨hcovered, hbefore⟩, hafter⟩, htargets⟩, hnext⟩ := h
    refine ⟨effect, heffect, hcovered, hbefore, hafter, htargets, ?_, ?_⟩
    · intro next hordinary hfalls hn
      rw [hfalls, hn] at hnext
      have hlevel := hnext.resolve_left Bool.noConfusion
      split at hlevel
      case h_1 target hcall => exact absurd hcall (hordinary target)
      case h_2 => simpa using hlevel
    · intro target next hcall hn
      simpa [hcall, hn, Instruction.fallsThrough, Instruction.flow] using hnext

theorem checked_of_check (distinct : listing.Distinct)
    (h : listing.levelCheck pool depth limit = true) : listing.Checked pool depth limit := by
  simp only [levelCheck, Bool.and_eq_true, List.all_eq_true, beq_iff_eq, contains_iff] at h
  obtain ⟨⟨hlines, hhandlers⟩, hhead⟩ := h
  refine ⟨distinct, fun line hm => agrees_of_check (hlines line hm), hhandlers, fun handle hh => ?_⟩
  simpa [hh] using hhead

theorem mem_handles_of_next? (distinct : listing.Distinct) (h : listing.next? handle = some next) :
    next ∈ listing.handles := by
  by_cases hm : handle ∈ listing.handles
  · obtain ⟨before, line, after, cut, rfl⟩ := exists_cut hm
    rw [cut.next? distinct] at h
    obtain ⟨other, ho, rfl⟩ := Option.map_eq_some_iff.mp h
    exact List.mem_map_of_mem (cut.mem_after (List.mem_of_mem_head? ho))
  · rw [Listing.next?, indexOf?_eq_none hm] at h
    cases h

namespace Checked

theorem agrees (checked : listing.Checked pool depth limit) {code : Instruction Handle}
    (h : listing.get? handle = some code) : ∃ line effect, line.handle = handle ∧
      line.instruction = code ∧ listing.Agrees pool depth limit line effect := by
  obtain ⟨before, line, after, cut, hhandle, hcode⟩ := exists_cut_of_get? h checked.distinct
  obtain ⟨effect, hagrees⟩ := checked.lines line cut.mem
  exact ⟨line, effect, hhandle, hcode, hagrees⟩

theorem agrees_of_hasEffect (checked : listing.Checked pool depth limit)
    (h : listing.HasEffect pool handle effect) : ∃ line, line.handle = handle ∧
      listing.get? handle = some line.instruction ∧
        listing.Agrees pool depth limit line effect := by
  obtain ⟨code, hcode, hknown⟩ := h
  obtain ⟨line, effect', rfl, rfl, hagrees⟩ := checked.agrees hcode
  cases hagrees.known.symm.trans hknown
  exact ⟨line, rfl, hcode, hagrees⟩

/-- Control does not leave the stream. -/
theorem live (checked : listing.Checked pool depth limit) (h : listing.Reachable handle) :
    handle ∈ listing.handles := by
  induction h with
  | head h =>
    rw [head?_eq_head?] at h
    obtain ⟨line, hl, rfl⟩ := Option.map_eq_some_iff.mp h
    exact List.mem_map_of_mem (List.mem_of_mem_head? hl)
  | handler mem => exact (checked.handlers _ mem).1
  | continues _ hway _ =>
    cases hway with
    | target code_eq mem =>
      obtain ⟨line, effect, -, rfl, hagrees⟩ := checked.agrees code_eq
      exact (hagrees.targets _ mem).1
    | next _ _ _ next_eq => exact mem_handles_of_next? checked.distinct next_eq
  | resumes _ hway _ => exact mem_handles_of_next? checked.distinct hway.next_eq

theorem levels (checked : listing.Checked pool depth limit) : listing.Levels pool depth where
  known handle h := by
    obtain ⟨before, line, after, cut, rfl⟩ := exists_cut (checked.live h)
    obtain ⟨effect, hagrees⟩ := checked.lines line cut.mem
    exact ⟨effect, _, cut.get? checked.distinct, hagrees.known⟩
  head := checked.head
  handler entry hm := (checked.handlers entry hm).2
  continues _ heffect hway := by
    obtain ⟨line, rfl, hcode, hagrees⟩ := checked.agrees_of_hasEffect heffect
    cases hway with
    | target code_eq mem =>
      cases hcode.symm.trans code_eq
      exact (hagrees.targets _ mem).2
    | next code_eq falls ordinary next_eq =>
      cases hcode.symm.trans code_eq
      exact hagrees.next _ ordinary falls next_eq
  resumes _ hway := by
    obtain ⟨target, hcall⟩ := hway.call
    obtain ⟨line, effect, rfl, hcode, hagrees⟩ := checked.agrees hcall
    exact hagrees.resumed target _ hcode hway.next_eq

theorem covered (checked : listing.Checked pool depth limit) : listing.Covered pool depth := by
  intro handle effect _ heffect
  obtain ⟨line, rfl, -, hagrees⟩ := checked.agrees_of_hasEffect heffect
  exact hagrees.covered

theorem depth_le (checked : listing.Checked pool depth limit) :
    ∀ level ∈ listing.reachedDepths pool depth, level ≤ limit := by
  rintro level ⟨handle, effect, -, heffect, hlevel⟩
  obtain ⟨line, rfl, -, hagrees⟩ := checked.agrees_of_hasEffect heffect
  rcases hlevel with rfl | rfl
  · exact hagrees.before_le
  · exact hagrees.after_le

end Checked

end

/-! ## The greatest depth -/

/-- The walk of a consistent listing ends after at most `workload` pops. If the stack covers every
instruction that control reaches and is never deeper than a code array can say, the result is the
greatest of the depths before and after these instructions, and of a listing without lines it is 0.
Otherwise the listing is malformed. -/
theorem maxStack_eq_greatest_depth (distinct : listing.Distinct)
    (levels : listing.Levels pool depth) :
    walkWithin listing.sites pool listing.workload listing.sites listing.entryPoints 0 =
      some (walk listing.sites pool listing.sites listing.entryPoints 0) ∧
    ((listing.Covered pool depth ∧ ∀ level ∈ listing.reachedDepths pool depth, level ≤ 65535) →
      ∃ deepest : UInt16, listing.maxStack pool = .ok deepest ∧
        (listing.head? = none → deepest = 0) ∧
        (listing.head? ≠ none →
          IsGreatest (listing.reachedDepths pool depth) (deepest.toNat : Int))) ∧
    (¬ (listing.Covered pool depth ∧ ∀ level ∈ listing.reachedDepths pool depth, level ≤ 65535) →
      ∃ cause, listing.maxStack pool = .error (.malformed cause)) := by
  refine ⟨walkWithin_workload distinct pool, ?_, maxStack_eq_malformed distinct levels⟩
  rintro ⟨covered, fits⟩
  obtain ⟨deepest, hmax, hbound, hattained⟩ := maxStack_of_levels distinct levels covered fits
  refine ⟨deepest, hmax, ?_, ?_⟩
  · intro hempty
    rcases hattained with hzero | ⟨handle, effect, hreachable, heffect, -⟩
    · exact UInt16.toNat.inj hzero
    · exact absurd hempty heffect.head?_ne_none
  · intro hne
    obtain ⟨head, hhead⟩ := Option.ne_none_iff_exists'.mp hne
    obtain ⟨effect, heffect⟩ := levels.known head (.head hhead)
    refine ⟨?_, hbound⟩
    rcases hattained with hzero | hattained
    · refine ⟨head, effect, .head hhead, heffect, .inl ?_⟩
      rw [hzero, levels.head head hhead]
      rfl
    · exact hattained

def callingThrow : Verbatim := ⟨0xBF, false, [], ⟨1, 0⟩, .throw⟩

/-- Calls a subroutine with a number on the stack, and goes back to the start or returns. -/
def calling : Listing where
  lines := #[⟨⟨0⟩, .push (.int 3) .int, false⟩, ⟨⟨1⟩, .subroutine ⟨5⟩, false⟩,
    ⟨⟨2⟩, .branch (.zero .eq) ⟨0⟩, false⟩, ⟨⟨3⟩, .other .voidReturn, false⟩,
    ⟨⟨4⟩, .other callingThrow, false⟩, ⟨⟨5⟩, .store 1 .reference, false⟩,
    ⟨⟨6⟩, .other .retOne, false⟩]
  fresh := 7
  handlers := #[⟨⟨0⟩, some ⟨3⟩, ⟨4⟩, 0⟩]
  laidOut := false

def callingDepth (handle : Handle) : Int := [0, 1, 1, 0, 1, 2, 1].getD handle.index 0

theorem maxStack_eq_greatest_depth_calling : calling.Levels .empty callingDepth ∧
    ∃ deepest : UInt16, calling.maxStack .empty = .ok deepest ∧
      IsGreatest (calling.reachedDepths .empty callingDepth) (deepest.toNat : Int) := by
  have distinct : calling.Distinct := by unfold Distinct; decide
  have checked : calling.Checked .empty callingDepth 65535 :=
    checked_of_check distinct (by decide +kernel)
  obtain ⟨-, hfits, -⟩ := maxStack_eq_greatest_depth distinct checked.levels
  obtain ⟨deepest, hmax, -, hgreatest⟩ := hfits ⟨checked.covered, checked.depth_le⟩
  exact ⟨checked.levels, deepest, hmax, hgreatest (by decide)⟩

end Listing

end BytecodeFold
