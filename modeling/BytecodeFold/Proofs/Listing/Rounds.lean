import BytecodeFold.Proofs.Listing.History
import BytecodeFold.Proofs.Listing.Positions

/-!
# Rounds of a layout

A round of a layout is followed by another as long as there are short jumps that do not reach their
targets. It makes these jumps long and changes nothing else, and no round makes a jump short again.
So at most as many rounds as there are jumps are followed by another, and one more ends the layout,
with the length of the code or with an error. The distances give no such bound: the padding of a
switch depends on its offset, so a distance across it may become shorter when a jump is widened.
-/

namespace BytecodeFold

namespace Listing

variable {handlers : Array ExceptionHandler} {first lines wider : Array Line} {line : Line}
  {offset length count : Nat}

/-! ## One round -/

/-- A jump in its short form that is too far away from its target. -/
def Strained (offsets : Handle → Option Nat) (line : Line) (offset : Nat) : Prop :=
  line.instruction.isJump = true ∧ line.long = false ∧
    ∃ target ∈ line.instruction.targets, ∃ goal : Nat, offsets target = some goal ∧
      ¬ (-32768 ≤ (goal : Int) - offset ∧ (goal : Int) - offset ≤ 32767)

/-- A round on these lines that is followed by another, which starts with the wider ones. -/
def Widens (handlers : Array ExceptionHandler) (lines wider : Array Line) : Prop :=
  (∃ length, layoutRound handlers lines = .ok (length, wider)) ∧
    ∃ pair ∈ (place lines).placed, Strained (place lines).offsets pair.1 pair.2

/-- The lines are the same but for short jumps that have become long, at least one of them. -/
structure Lengthened (lines wider : List Line) : Prop where
  each : List.Forall₂ (fun line wide => wide = line ∨
    line.instruction.isJump = true ∧ line.long = false ∧
    wide = { line with long := true }) lines wider
  some : ∃ (i : Nat) (line : Line), lines[i]? = some line ∧ line.instruction.isJump = true ∧
    line.long = false ∧ wider[i]? = some { line with long := true }

theorem tooFar_eq_true_iff {offsets : Handle → Option Nat} {target : Handle} :
    tooFar offsets line offset target = .ok true ↔ line.instruction.isJump = true ∧
      line.long = false ∧ ∃ goal : Nat, offsets target = some goal ∧
        ¬ (-32768 ≤ (goal : Int) - offset ∧ (goal : Int) - offset ≤ 32767) := by
  constructor
  · intro h
    have hshort := tooFar_eq_true h
    rw [Line.isShortJump, Bool.and_eq_true, Bool.not_eq_true'] at hshort
    refine ⟨hshort.1, hshort.2, ?_⟩
    unfold tooFar at h
    split at h
    case h_1 => cases h
    case h_2 goal hgoal =>
      refine ⟨goal, hgoal, fun hnear => ?_⟩
      rw [if_pos (fitsSigned_sixteen_iff.mpr hnear)] at h
      cases h
  · rintro ⟨hjump, hshort, goal, hgoal, hfar⟩
    have hfits : ¬ fitsSigned 16 ((goal : Int) - offset) = true :=
      fun hfits => hfar (fitsSigned_sixteen_iff.mp hfits)
    cases hi : line.instruction with
    | jump | subroutine => simp only [tooFar, hgoal, if_neg hfits, hi, hshort, Bool.not_false]
    | _ =>
      rw [hi] at hjump
      cases hjump

/-- Widening makes a strained jump long and leaves every other line as it is. -/
theorem widen_strained {offsets : Handle → Option Nat} {wide : Line}
    (h : widen offsets line offset = .ok wide) :
    Strained offsets line offset ∧ wide = { line with long := true } ∨
      ¬ Strained offsets line offset ∧ wide = line := by
  obtain ⟨far, hfar, h⟩ := Outcome.bind_eq_ok.mp h
  have hanswers := Outcome.list_mapM_eq_ok.mp hfar
  have hany : far.any id = true ↔ Strained offsets line offset := by
    rw [List.any_eq_true]
    constructor
    · rintro ⟨answer, hm, rfl⟩
      obtain ⟨target, ht, hanswer⟩ := Outcome.exists_of_mem_right hanswers hm
      obtain ⟨hjump, hshort, hgoal⟩ := tooFar_eq_true_iff.mp hanswer
      exact ⟨hjump, hshort, target, ht, hgoal⟩
    · rintro ⟨hjump, hshort, target, ht, hgoal⟩
      obtain ⟨answer, hm, hanswer⟩ := Outcome.exists_of_mem_right hanswers.flip ht
      cases hanswer.symm.trans (tooFar_eq_true_iff.mpr ⟨hjump, hshort, hgoal⟩)
      exact ⟨true, hm, rfl⟩
  cases h
  by_cases hstrained : Strained offsets line offset
  · rw [hany.mpr hstrained, Bool.or_true]
    exact .inl ⟨hstrained, rfl⟩
  · rw [Bool.eq_false_iff.mpr fun h => hstrained (hany.mp h), Bool.or_false]
    exact .inr ⟨hstrained, rfl⟩

theorem Widens.lengthened (h : Widens handlers lines wider) :
    Lengthened lines.toList wider.toList := by
  obtain ⟨⟨length, hround⟩, pair, hpair, hstrained⟩ := h
  obtain ⟨-, -, hwide, -⟩ := layoutRound_eq_ok.mp hround
  have hlines := map_placedFrom 0 lines.toList
  constructor
  · conv => arg 2; rw [← hlines]
    refine List.forall₂_map_left_iff.mpr (hwide.imp fun pair wide hw => ?_)
    rcases widen_strained hw with ⟨⟨hjump, hshort, -⟩, hlong⟩ | ⟨-, hsame⟩
    · exact .inr ⟨hjump, hshort, hlong⟩
    · exact .inl hsame
  · rw [place_eq, List.mem_toArray] at hpair
    obtain ⟨i, hi⟩ := List.mem_iff_getElem?.mp hpair
    have hlt : i < wider.toList.length := by
      rw [← hwide.length_eq]
      exact (List.getElem?_eq_some_iff.mp hi).1
    have hwider := List.getElem?_eq_getElem hlt
    refine ⟨i, pair.1, ?_, hstrained.1, hstrained.2.1, ?_⟩
    · rw [← hlines, List.getElem?_map, hi]
      rfl
    · rcases widen_strained (Outcome.forall₂_getElem? hwide hi hwider) with ⟨-, hlong⟩ | ⟨hnot, -⟩
      · rw [hwider, hlong]
      · exact absurd hstrained hnot

/-- A round that succeeds is followed by another exactly when it changes a line. -/
theorem widens_iff (h : layoutRound handlers lines = .ok (length, wider)) :
    Widens handlers lines wider ↔ wider ≠ lines := by
  constructor
  · intro hwidens hsame
    obtain ⟨i, line, hline, -, hshort, hlong⟩ := hwidens.lengthened.some
    rw [hsame, hline, Option.some.injEq] at hlong
    rw [hlong] at hshort
    cases hshort
  · refine fun hchanged => ⟨⟨length, h⟩, ?_⟩
    by_contra hcalm
    obtain ⟨-, -, hwide, -⟩ := layoutRound_eq_ok.mp h
    -- without a strained jump the round gives back the lines it was given
    have hsame : List.Forall₂ (fun pair line => pair.1 = line) (placedFrom 0 lines.toList)
        wider.toList := by
      refine Outcome.forall₂_imp_of_mem hwide fun pair hm wide hw => ?_
      rcases widen_strained hw with ⟨hstrained, -⟩ | ⟨-, hwide⟩
      · refine absurd ⟨pair, ?_, hstrained⟩ hcalm
        rw [place_eq]
        exact List.mem_toArray.mpr hm
      · exact hwide.symm
    have hlines : lines.toList = wider.toList := by
      conv => lhs; rw [← map_placedFrom 0 lines.toList]
      rw [Outcome.map_eq_of_forall₂ (g := id) hsame, List.map_id]
    exact hchanged (Array.toList_inj.mp hlines).symm

theorem Widens.shortJumps_lt (h : Widens handlers lines wider) :
    shortJumps wider < shortJumps lines := by
  obtain ⟨length, hround⟩ := h.1
  exact (layoutRound_cases hround).resolve_left ((widens_iff hround).mp h)

/-! ## All rounds -/

/-- This many rounds, one after another, each of which is followed by another. -/
inductive Rounds (handlers : Array ExceptionHandler) (first : Array Line) :
    Nat → Array Line → Prop where
  | start : Rounds handlers first 0 first
  | again {count : Nat} {lines wider : Array Line} (rounds : Rounds handlers first count lines)
      (widens : Widens handlers lines wider) : Rounds handlers first (count + 1) wider

/-- Every round that is followed by another uses up a short jump. -/
theorem Rounds.shortJumps_le (h : Rounds handlers first count lines) :
    count + shortJumps lines ≤ shortJumps first := by
  induction h with
  | start => exact Nat.le_of_eq (Nat.zero_add _)
  | again _ widens ih =>
    have hlt := widens.shortJumps_lt
    omega

def jumps (lines : Array Line) : Nat := lines.countP (·.instruction.isJump)

theorem shortJumps_le_jumps (lines : Array Line) : shortJumps lines ≤ jumps lines := by
  rw [shortJumps, jumps, ← Array.countP_toList, ← Array.countP_toList]
  exact List.countP_mono_left fun line _ h => (Bool.and_eq_true_iff.mp h).1

theorem Rounds.count_le (h : Rounds handlers first count lines) : count ≤ jumps first := by
  have hshort := h.shortJumps_le
  have hjumps := shortJumps_le_jumps first
  omega

/-- A layout goes through rounds that are followed by another, and its outcome is that of the round
after them. -/
theorem rounds_of_layoutLines (before : Rounds handlers first count lines) :
    ∃ total last, Rounds handlers first total last ∧ (∀ wider, ¬ Widens handlers last wider) ∧
      layoutLines handlers lines = ((layoutRound handlers last).map Prod.fst, last) := by
  fun_induction layoutLines handlers lines generalizing count with
  | case1 lines e he =>
    refine ⟨count, lines, before, fun wider hwidens => ?_, by rw [he]; rfl⟩
    obtain ⟨length, hround⟩ := hwidens.1
    cases he.symm.trans hround
  | case2 length lines hr =>
    refine ⟨count, lines, before, fun wider hwidens => ?_, by rw [hr]; rfl⟩
    obtain ⟨length', hround⟩ := hwidens.1
    cases hr.symm.trans hround
    exact (widens_iff hr).mp hwidens rfl
  | case3 lines length wider hr hne ih => exact ih (before.again ((widens_iff hr).mpr hne))

/-! ## Distances -/

/-- The distance from a line to a target, with the lines placed as they stand. -/
def distance? (lines : Array Line) (source target : Handle) : Option Int := do
  let goal ← (place lines).offsets[target]?
  let start ← (place lines).offsets[source]?
  return (goal : Int) - start

/-- The distance from some line to one of its targets is related to what it is later. -/
def SomeDistance (r : Nat → Nat → Prop) (lines later : Array Line) : Prop :=
  ∃ line ∈ lines, ∃ target ∈ line.instruction.targets, ∃ before after : Int,
    distance? lines line.handle target = some before ∧
    distance? later line.handle target = some after ∧ r before.natAbs after.natAbs

/-- A switch of 8188 cases. -/
def paddedSwitch : Instruction Handle :=
  .switch .table ⟨5⟩ ((List.range 8188).map fun key => (Int32.ofNat key, ⟨5⟩))

def aroundLines (long : Bool) : Array Line :=
  #[⟨⟨0⟩, .nop, false⟩, ⟨⟨1⟩, .jump ⟨5⟩, long⟩, ⟨⟨2⟩, paddedSwitch, false⟩, ⟨⟨3⟩, .nop, false⟩,
    ⟨⟨4⟩, .jump ⟨2⟩, long⟩, ⟨⟨5⟩, .nop, false⟩]

/-- A jump across the switch and one back to it, both a little too far for their short forms. -/
def around : Listing := ⟨aroundLines false, 6, #[], false⟩

theorem size_table (target : Handle) (cases : List (Int32 × Handle)) (offset : Nat) (long : Bool) :
    (Instruction.switch .table target cases).size offset long =
      1 + switchPadding offset + 12 + 4 * cases.length := rfl

theorem size_paddedSwitch (offset : Nat) (long : Bool) :
    paddedSwitch.size offset long = 32765 + switchPadding offset := by
  simp only [paddedSwitch, size_table, List.length_map, List.length_range]
  omega

theorem size_nop (offset : Nat) (long : Bool) :
    (Instruction.nop : Instruction Handle).size offset long = 1 := rfl

theorem size_jump (target : Handle) (offset : Nat) (long : Bool) :
    (Instruction.jump target).size offset long = if long then 5 else 3 := rfl

theorem placedFrom_aroundLines (long : Bool) : placedFrom 0 (aroundLines long).toList =
    [(⟨⟨0⟩, .nop, false⟩, 0), (⟨⟨1⟩, .jump ⟨5⟩, long⟩, 1),
      (⟨⟨2⟩, paddedSwitch, false⟩, if long then 6 else 4), (⟨⟨3⟩, .nop, false⟩, 32772),
      (⟨⟨4⟩, .jump ⟨2⟩, long⟩, 32773), (⟨⟨5⟩, .nop, false⟩, if long then 32778 else 32776)] := by
  cases long <;>
    simp [aroundLines, placedFrom, size_paddedSwitch, size_nop, size_jump, switchPadding]

theorem offsets_aroundLines (long : Bool) :
    (place (aroundLines long)).offsets[(⟨1⟩ : Handle)]? = some 1 ∧
    (place (aroundLines long)).offsets[(⟨2⟩ : Handle)]? = some (if long then 6 else 4) ∧
    (place (aroundLines long)).offsets[(⟨4⟩ : Handle)]? = some 32773 ∧
    (place (aroundLines long)).offsets[(⟨5⟩ : Handle)]? = some (if long then 32778 else 32776) := by
  have hdistinct : ((aroundLines long).toList.map (·.handle)).Nodup := by
    cases long <;> decide
  have hplace : ∀ line offset, (line, offset) ∈ placedFrom 0 (aroundLines long).toList →
      (place (aroundLines long)).offsets[line.handle]? = some offset :=
    fun line offset hm => (offsets_eq_some hdistinct).mpr ⟨line, hm, rfl⟩
  rw [placedFrom_aroundLines] at hplace
  exact ⟨hplace ⟨⟨1⟩, .jump ⟨5⟩, long⟩ _ (by simp), hplace ⟨⟨2⟩, paddedSwitch, false⟩ _ (by simp),
    hplace ⟨⟨4⟩, .jump ⟨2⟩, long⟩ _ (by simp), hplace ⟨⟨5⟩, .nop, false⟩ _ (by simp)⟩

theorem layoutRound_aroundLines (long : Bool) : layoutRound #[] (aroundLines long) =
    .ok (if long then 32779 else 32777, aroundLines true) := by
  obtain ⟨-, hswitch, -, hlast⟩ := offsets_aroundLines long
  have hforth : widen (place (aroundLines long)).offsets ⟨⟨1⟩, .jump ⟨5⟩, long⟩ 1 =
      .ok ⟨⟨1⟩, .jump ⟨5⟩, true⟩ := by
    cases long <;> simp [widen, tooFar, Instruction.targets, hlast, fitsSigned]
  have hback : widen (place (aroundLines long)).offsets ⟨⟨4⟩, .jump ⟨2⟩, long⟩ 32773 =
      .ok ⟨⟨4⟩, .jump ⟨2⟩, true⟩ := by
    cases long <;> simp [widen, tooFar, Instruction.targets, hswitch, fitsSigned]
  refine layoutRound_eq_ok.mpr ⟨?_, ?_, ?_, rfl⟩
  · simp only [aroundLines, lengthFrom, size_paddedSwitch, size_nop, size_jump]
    cases long <;> rfl
  · cases long <;> decide
  · rw [placedFrom_aroundLines]
    exact .cons rfl (.cons hforth (.cons (widen_switch (by simp) hlast _)
      (.cons rfl (.cons hback (.cons rfl .nil)))))

theorem widens_aroundLines : Widens #[] (aroundLines false) (aroundLines true) :=
  (widens_iff (layoutRound_aroundLines false)).mpr (by simp [aroundLines])

/-- The way across the switch gets longer, since it leads past the other jump, which is widened too.
The way back gets shorter: the switch moves to an offset where it needs less padding. -/
theorem distances_aroundLines : SomeDistance (· < ·) (aroundLines false) (aroundLines true) ∧
    SomeDistance (· > ·) (aroundLines false) (aroundLines true) := by
  obtain ⟨hforth, hswitch, hback, hlast⟩ := offsets_aroundLines false
  obtain ⟨hforth', hswitch', hback', hlast'⟩ := offsets_aroundLines true
  constructor
  · refine ⟨⟨⟨1⟩, .jump ⟨5⟩, false⟩, by simp [aroundLines], ⟨5⟩, List.mem_singleton_self _,
      32775, 32777, ?_, ?_, by decide⟩
    · rw [distance?, hforth, hlast]
      rfl
    · rw [distance?, hforth', hlast']
      rfl
  · refine ⟨⟨⟨4⟩, .jump ⟨2⟩, false⟩, by simp [aroundLines], ⟨2⟩, List.mem_singleton_self _,
      -32769, -32767, ?_, ?_, by decide⟩
    · rw [distance?, hback, hswitch]
      rfl
    · rw [distance?, hback', hswitch']
      rfl

/-! ## The bound -/

/-- A layout of any listing ends. However many rounds there have been, one that is followed by
another makes at least one short jump long, makes none short again and changes no other line, and
there are no more of them than jumps. So there is a last round after at most that many. The outcome
of the layout is the outcome of this round, an error or the length of the code, and the lines are
left as this round found them. All this is so although distances get shorter as well as longer on
the way, as they do in a listing that can be built. -/
theorem layout_rounds_le_jumps (listing : Listing) :
    (∀ count lines, Rounds listing.handlers listing.lines count lines →
      count ≤ jumps listing.lines ∧ ∀ wider, Widens listing.handlers lines wider →
        Lengthened lines.toList wider.toList) ∧
    (∃ count last, Rounds listing.handlers listing.lines count last ∧
      (∀ wider, ¬ Widens listing.handlers last wider) ∧ count + 1 ≤ jumps listing.lines + 1 ∧
      listing.layout.1 = (layoutRound listing.handlers last).map Prod.fst ∧
      listing.layout.2.lines = last) ∧
    ∃ (other : Listing) (wider : Array Line), other.Built ∧
      Widens other.handlers other.lines wider ∧
      SomeDistance (· < ·) other.lines wider ∧ SomeDistance (· > ·) other.lines wider := by
  refine ⟨fun count lines rounds => ⟨rounds.count_le, fun wider widens => widens.lengthened⟩, ?_,
    ?_⟩
  · obtain ⟨count, last, rounds, ended, hlines⟩ :=
      rounds_of_layoutLines (.start : Rounds listing.handlers listing.lines 0 listing.lines)
    refine ⟨count, last, rounds, ended, Nat.succ_le_succ rounds.count_le, ?_⟩
    unfold layout
    rw [hlines]
    cases layoutRound listing.handlers last with
    | error e => exact ⟨rfl, rfl⟩
    | ok result => exact ⟨rfl, rfl⟩
  · have built : around.Built := (((((Built.empty.append .nop).append (.jump ⟨5⟩)).append
      paddedSwitch).append .nop).append (.jump ⟨2⟩)).append .nop
    exact ⟨around, aroundLines true, built, widens_aroundLines, distances_aroundLines⟩

/-- Both jumps are widened in the first of two rounds. -/
theorem layout_rounds_le_jumps_around : jumps around.lines = 2 ∧
    Widens around.handlers around.lines (aroundLines true) ∧
    Lengthened around.lines.toList (aroundLines true).toList ∧
    Rounds around.handlers around.lines 1 (aroundLines true) ∧ 1 ≤ jumps around.lines := by
  have rounds : Rounds around.handlers around.lines 1 (aroundLines true) :=
    .again .start widens_aroundLines
  obtain ⟨bounded, -⟩ := layout_rounds_le_jumps around
  exact ⟨by decide, widens_aroundLines, (bounded 0 _ .start).2 _ widens_aroundLines, rounds,
    (bounded 1 _ rounds).1⟩

end Listing

end BytecodeFold
