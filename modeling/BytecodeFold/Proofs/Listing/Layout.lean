import BytecodeFold.Listing.Layout
import BytecodeFold.Proofs.Listing.Stream
import BytecodeFold.Proofs.Outcome
import Mathlib.Data.List.Induction

/-!
# What a layout gives

Lines are placed one after another, so the offset of a line is the length of what stands before
it. Widening changes nothing but the form of a jump.
-/

namespace BytecodeFold

/-! ## Tables -/

/-- A table that is filled with entries under different keys holds each of them and no other. -/
theorem getElem?_foldl_insert {K V α : Type} [BEq K] [Hashable K] [LawfulBEq K] {key : α → K}
    {value : α → V} {entries : List α} (distinct : (entries.map key).Nodup) {k : K} {v : V} :
    (entries.foldl (fun table a => table.insert (key a) (value a))
        (∅ : Std.HashMap K V))[k]? = some v ↔ ∃ a ∈ entries, key a = k ∧ value a = v := by
  induction entries using List.reverseRecOn with
  | nil => simp
  | append_singleton entries last ih =>
    rw [List.map_append, List.nodup_append] at distinct
    obtain ⟨hinit, -, hlast⟩ := distinct
    rw [List.foldl_append, List.foldl_cons, List.foldl_nil, Std.HashMap.getElem?_insert]
    by_cases hk : key last = k
    · rw [if_pos (beq_iff_eq.mpr hk), Option.some.injEq]
      constructor
      · rintro rfl
        exact ⟨last, by simp, hk, rfl⟩
      · rintro ⟨a, hm, ha, rfl⟩
        rcases List.mem_append.mp hm with hm | hm
        · exact absurd (ha.trans hk.symm)
            (hlast _ (List.mem_map_of_mem hm) _ (List.mem_singleton.mpr rfl))
        · rw [List.mem_singleton.mp hm]
    · rw [if_neg (fun h => hk (beq_iff_eq.mp h)), ih hinit]
      constructor
      · rintro ⟨a, hm, ha⟩
        exact ⟨a, List.mem_append_left _ hm, ha⟩
      · rintro ⟨a, hm, ha, hv⟩
        rcases List.mem_append.mp hm with hm | hm
        · exact ⟨a, hm, ha, hv⟩
        · exact absurd (List.mem_singleton.mp hm ▸ ha) hk

def Instruction.isSwitch {τ : Type} : Instruction τ → Bool
  | switch .. => true
  | _ => false

theorem Instruction.isSwitch_mapTargets {τ σ : Type} (f : τ → σ) (code : Instruction τ) :
    (code.mapTargets f).isSwitch = code.isSwitch := by
  cases code <;> rfl

theorem Instruction.isJump_mapTargets {τ σ : Type} (f : τ → σ) (code : Instruction τ) :
    (code.mapTargets f).isJump = code.isJump := by
  cases code <;> rfl

theorem Instruction.size_of_not_isJump {τ : Type} {code : Instruction τ} (h : code.isJump = false)
    (offset : Nat) (long long' : Bool) : code.size offset long = code.size offset long' := by
  cases code with
  | jump target | subroutine target => cases h
  | switch kind default cases => cases kind <;> rfl
  | _ => rfl

namespace Listing

variable {handlers : Array ExceptionHandler} {offset : Nat}

/-! ## Placing -/

/-- The lines with their offsets, from an offset on. -/
def placedFrom (offset : Nat) : List Line → List (Line × Nat)
  | [] => []
  | line :: rest =>
    (line, offset) :: placedFrom (offset + line.instruction.size offset line.long) rest

/-- The offset after the lines, placed from an offset on. -/
def lengthFrom (offset : Nat) : List Line → Nat
  | [] => offset
  | line :: rest => lengthFrom (offset + line.instruction.size offset line.long) rest

theorem foldl_place_eq (lines : List Line) (placement : Placement) :
    lines.foldl (fun placement line =>
        ⟨placement.placed.push (line, placement.length),
          placement.length + line.instruction.size placement.length line.long⟩) placement =
      ⟨placement.placed ++ (placedFrom placement.length lines).toArray,
        lengthFrom placement.length lines⟩ := by
  induction lines generalizing placement with
  | nil => simp [placedFrom, lengthFrom]
  | cons line rest ih =>
    rw [List.foldl_cons, ih]
    simp [placedFrom, lengthFrom]

theorem place_eq (lines : Array Line) :
    place lines = ⟨(placedFrom 0 lines.toList).toArray, lengthFrom 0 lines.toList⟩ := by
  rw [place, ← Array.foldl_toList, foldl_place_eq]
  simp

theorem map_placedFrom (offset : Nat) (lines : List Line) :
    (placedFrom offset lines).map (·.1) = lines := by
  induction lines generalizing offset with
  | nil => rfl
  | cons line rest ih => rw [placedFrom, List.map_cons, ih]

theorem mem_of_mem_placedFrom {lines : List Line} {pair : Line × Nat}
    (h : pair ∈ placedFrom offset lines) : pair.1 ∈ lines := by
  rw [← map_placedFrom offset lines]
  exact List.mem_map_of_mem h

theorem placedFrom_append (offset : Nat) (lines lines' : List Line) :
    placedFrom offset (lines ++ lines') =
      placedFrom offset lines ++ placedFrom (lengthFrom offset lines) lines' := by
  induction lines generalizing offset with
  | nil => rfl
  | cons line rest ih =>
    rw [List.cons_append, placedFrom, placedFrom, ih, lengthFrom, List.cons_append]

theorem lengthFrom_append (offset : Nat) (lines lines' : List Line) :
    lengthFrom offset (lines ++ lines') = lengthFrom (lengthFrom offset lines) lines' := by
  induction lines generalizing offset with
  | nil => rfl
  | cons line rest ih => rw [List.cons_append, lengthFrom, lengthFrom, ih]

theorem length_placedFrom (offset : Nat) (lines : List Line) :
    (placedFrom offset lines).length = lines.length := by
  conv => rhs; rw [← map_placedFrom offset lines]
  rw [List.length_map]

theorem le_lengthFrom (offset : Nat) (lines : List Line) : offset ≤ lengthFrom offset lines := by
  induction lines generalizing offset with
  | nil => exact Nat.le_refl _
  | cons line rest ih => exact Nat.le_trans (Nat.le_add_right _ _) (ih _)

/-- Every line has its place between the start and the end of the code. -/
theorem bounds_of_mem_placedFrom {lines : List Line} {pair : Line × Nat}
    (h : pair ∈ placedFrom offset lines) :
    offset ≤ pair.2 ∧ pair.2 + pair.1.instruction.size pair.2 pair.1.long ≤
      lengthFrom offset lines := by
  induction lines generalizing offset with
  | nil => cases h
  | cons line rest ih =>
    rcases List.mem_cons.mp h with rfl | hm
    · exact ⟨Nat.le_refl _, le_lengthFrom _ rest⟩
    · obtain ⟨hlow, hhigh⟩ := ih hm
      exact ⟨Nat.le_trans (Nat.le_add_right _ _) hlow, hhigh⟩

/-- No two lines have the same place, since every line takes some. -/
theorem nodup_placedFrom (offset : Nat) (lines : List Line) :
    ((placedFrom offset lines).map (·.2)).Nodup := by
  induction lines generalizing offset with
  | nil => exact List.nodup_nil
  | cons line rest ih =>
    refine List.nodup_cons.mpr ⟨?_, ih _⟩
    intro hm
    obtain ⟨pair, hp, he⟩ := List.mem_map.mp hm
    have hlow := (bounds_of_mem_placedFrom hp).1
    have hsize := line.instruction.size_pos offset line.long
    dsimp only at he
    omega

/-- The table of offsets holds the place of every line and nothing else. -/
theorem offsets_eq_some {lines : Array Line} (distinct : (lines.toList.map (·.handle)).Nodup)
    {handle : Handle} {place' : Nat} :
    (place lines).offsets[handle]? = some place' ↔
      ∃ line, (line, place') ∈ placedFrom 0 lines.toList ∧ line.handle = handle := by
  have hkeys : ((placedFrom 0 lines.toList).map fun pair => pair.1.handle) =
      lines.toList.map (·.handle) := by
    conv => rhs; rw [← map_placedFrom 0 lines.toList]
    rw [List.map_map]
    rfl
  rw [place_eq, Placement.offsets, ← Array.foldl_toList]
  change ((placedFrom 0 lines.toList).foldl (fun table pair => table.insert pair.1.handle pair.2)
    (∅ : Std.HashMap Handle Nat))[handle]? = _ ↔ _
  rw [getElem?_foldl_insert (hkeys ▸ distinct)]
  constructor
  · rintro ⟨pair, hm, hh, rfl⟩
    exact ⟨pair.1, hm, hh⟩
  · rintro ⟨line, hm, hh⟩
    exact ⟨(line, place'), hm, hh, rfl⟩

/-! ## Widening -/

/-- The lines are the same up to the form of jumps. -/
def SameLines (lines lines' : List Line) : Prop :=
  List.Forall₂ (fun line line' => line'.handle = line.handle ∧ line'.instruction = line.instruction)
    lines lines'

theorem SameLines.refl (lines : List Line) : SameLines lines lines :=
  List.forall₂_same.mpr fun _ _ => ⟨rfl, rfl⟩

theorem SameLines.trans {lines lines' lines'' : List Line} (h : SameLines lines lines')
    (h' : SameLines lines' lines'') : SameLines lines lines'' := by
  induction h generalizing lines'' with
  | nil => exact h'
  | cons hab _ ih =>
    cases h' with
    | cons hbc htail => exact .cons ⟨hbc.1.trans hab.1, hbc.2.trans hab.2⟩ (ih htail)

theorem SameLines.map_handle {lines lines' : List Line} (h : SameLines lines lines') :
    lines'.map (·.handle) = lines.map (·.handle) := by
  induction h with
  | nil => rfl
  | cons hab _ ih => rw [List.map_cons, List.map_cons, hab.1, ih]

theorem SameLines.map_instruction {lines lines' : List Line} (h : SameLines lines lines') :
    lines'.map (·.instruction) = lines.map (·.instruction) := by
  induction h with
  | nil => rfl
  | cons hab _ ih => rw [List.map_cons, List.map_cons, hab.2, ih]

theorem SameLines.distinct {listing laid : Listing}
    (h : SameLines listing.lines.toList laid.lines.toList) (distinct : listing.Distinct) :
    laid.Distinct := by
  rw [Distinct, handles, h.map_handle]
  exact distinct

theorem SameLines.forall_instruction {P : Instruction Handle → Prop} {lines lines' : List Line}
    (h : SameLines lines lines') (hold : ∀ line ∈ lines, P line.instruction) :
    ∀ line ∈ lines', P line.instruction := by
  intro line hm
  obtain ⟨old, ho, -, hi⟩ := Outcome.exists_of_mem_right h hm
  rw [hi]
  exact hold old ho

theorem widen_eq_ok {offsets : Handle → Option Nat} {line line' : Line}
    (h : widen offsets line offset = .ok line') : ∃ long, line' = { line with long } := by
  obtain ⟨far, -, h⟩ := Outcome.bind_eq_ok.mp h
  cases h
  exact ⟨_, rfl⟩

/-- A line stays as it is if its targets are within the reach of its short form. -/
theorem widen_of_near {offsets : Handle → Option Nat} {line : Line}
    (near : ∀ target ∈ line.instruction.targets, ∃ place, offsets target = some place ∧
      (line.instruction.isSwitch = true ∨
        fitsSigned 16 ((place : Int) - (offset : Int)) = true)) :
    widen offsets line offset = .ok line := by
  have hnear : ∀ target ∈ line.instruction.targets, tooFar offsets line offset target =
      .ok false := by
    intro target hm
    obtain ⟨place, hp, hnear⟩ := near target hm
    rcases hnear with hswitch | hfits
    · cases hi : line.instruction with
      | switch kind default cases => simp only [tooFar, hp, hi, ite_self]
      | _ =>
        rw [hi] at hswitch
        cases hswitch
    · simp only [tooFar, hp, hfits, if_true]
  have hfar : line.instruction.targets.mapM (tooFar offsets line offset) =
      .ok (line.instruction.targets.map fun _ => false) := by
    rw [Outcome.list_mapM_eq_ok, List.forall₂_map_right_iff, List.forall₂_same]
    exact hnear
  refine Outcome.bind_eq_ok.mpr ⟨_, hfar, ?_⟩
  have hany : (line.instruction.targets.map fun _ => false).any id = false := by simp
  rw [hany, Bool.or_false]
  rfl

/-- A switch with a single target reaches it from anywhere. -/
theorem widen_switch {offsets : Handle → Option Nat} {handle target : Handle} {kind : SwitchKind}
    {cases : List (Int32 × Handle)} {goal : Nat} (single : ∀ case ∈ cases, case.2 = target)
    (placed : offsets target = some goal) (offset : Nat) :
    widen offsets ⟨handle, .switch kind target cases, false⟩ offset =
      .ok ⟨handle, .switch kind target cases, false⟩ := by
  refine widen_of_near fun other hm => ?_
  have hother : other = target := by
    rcases List.mem_cons.mp hm with rfl | hm
    · rfl
    · obtain ⟨case, hc, rfl⟩ := List.mem_map.mp hm
      exact single case hc
  rw [hother]
  exact ⟨goal, placed, .inl rfl⟩

/-- A round succeeds if the code is short enough, everything is in place, and every line can be
widened as far as it has to be. -/
theorem layoutRound_eq_ok {lines wider : Array Line} {length : Nat} :
    layoutRound handlers lines = .ok (length, wider) ↔
      length = lengthFrom 0 lines.toList ∧ length ≤ 65535 ∧
      List.Forall₂ (fun pair line => widen (place lines).offsets pair.1 pair.2 = .ok line)
        (placedFrom 0 lines.toList) wider.toList ∧
      unplaced? (place lines).offsets handlers = none := by
  have hlength : (place lines).length = lengthFrom 0 lines.toList := by
    rw [place_eq]
  have hplaced : (place lines).placed.toList = placedFrom 0 lines.toList := by
    rw [place_eq]
  rw [← hlength, ← hplaced]
  unfold layoutRound
  dsimp only
  by_cases hlong : 65535 < (place lines).length
  · rw [if_pos hlong]
    constructor
    · intro h
      split at h <;> cases h
    · rintro ⟨rfl, hle, -⟩
      omega
  · rw [if_neg (by omega), if_neg hlong, Outcome.bind_eq_ok]
    constructor
    · rintro ⟨wider', hw, h⟩
      cases hu : unplaced? (place lines).offsets handlers with
      | some missing =>
        rw [hu] at h
        cases h
      | none =>
        rw [hu] at h
        cases h
        exact ⟨rfl, by omega, Outcome.array_mapM_eq_ok.mp hw, rfl⟩
    · rintro ⟨rfl, hle, hw, hu⟩
      exact ⟨wider, Outcome.array_mapM_eq_ok.mpr hw, by rw [hu]; rfl⟩

/-- A line can only be widened if its targets are placed. -/
theorem placed_of_widen {offsets : Handle → Option Nat} {line line' : Line}
    (h : widen offsets line offset = .ok line') {target : Handle}
    (ht : target ∈ line.instruction.targets) : ∃ place, offsets target = some place := by
  obtain ⟨far, hfar, -⟩ := Outcome.bind_eq_ok.mp h
  obtain ⟨result, -, hr⟩ := Outcome.exists_of_mem_right (Outcome.list_mapM_eq_ok.mp hfar).flip ht
  unfold tooFar at hr
  cases hp : offsets target with
  | none =>
    rw [hp] at hr
    cases hr
  | some place => exact ⟨place, rfl⟩

theorem unplaced?_eq_none {offsets : Handle → Option Nat} :
    unplaced? offsets handlers = none ↔ ∀ entry ∈ handlers.toList, ∀ handle ∈ entry.handles,
      ∃ place, offsets handle = some place := by
  rw [unplaced?, ← Array.findSome?_toList, List.findSome?_eq_none_iff]
  refine forall₂_congr fun entry _ => ?_
  rw [List.find?_eq_none]
  refine forall₂_congr fun handle _ => ?_
  rw [Option.isNone_iff_eq_none, ← Option.ne_none_iff_exists']

theorem layoutRound_same {lines wider : Array Line} {length : Nat}
    (h : layoutRound handlers lines = .ok (length, wider)) :
    SameLines lines.toList wider.toList := by
  obtain ⟨-, -, hw, -⟩ := layoutRound_eq_ok.mp h
  have hlines := map_placedFrom 0 lines.toList
  rw [← hlines]
  refine List.forall₂_map_left_iff.mpr (hw.imp ?_)
  intro pair line hwide
  obtain ⟨long, rfl⟩ := widen_eq_ok hwide
  exact ⟨rfl, rfl⟩

theorem layoutLines_same (handlers : Array ExceptionHandler) (lines : Array Line) :
    SameLines lines.toList (layoutLines handlers lines).2.toList := by
  fun_induction layoutLines handlers lines with
  | case1 lines e he => exact SameLines.refl _
  | case2 length lines hr => exact SameLines.refl _
  | case3 lines length wider hr hne ih => exact (layoutRound_same hr).trans ih

/-- A round changes nothing if and only if it leaves as many short jumps. -/
theorem layoutRound_unchanged_iff {lines wider : Array Line} {length : Nat}
    (h : layoutRound handlers lines = .ok (length, wider)) :
    wider = lines ↔ shortJumps wider = shortJumps lines := by
  rcases layoutRound_cases h with rfl | hlt
  · simp
  · constructor
    · rintro rfl
      rfl
    · omega

/-- A layout that succeeds ends with a round that changes nothing. -/
theorem layoutLines_settled {lines laid : Array Line} {length : Nat}
    (h : layoutLines handlers lines = (.ok length, laid)) :
    layoutRound handlers laid = .ok (length, laid) := by
  fun_induction layoutLines handlers lines with
  | case1 lines e he => cases h
  | case2 length' lines hr =>
    cases h
    exact hr
  | case3 lines length' wider hr hne ih => exact ih h

theorem layout_same (listing : Listing) :
    SameLines listing.lines.toList listing.layout.2.lines.toList := by
  have h := layoutLines_same listing.handlers listing.lines
  unfold layout
  split
  case h_1 hl =>
    rw [hl] at h
    exact h
  case h_2 hl =>
    rw [hl] at h
    exact h

/-- A listing in which nothing has to be widened is laid out as it is. -/
theorem layout_of_unchanged {listing : Listing} {length : Nat}
    (h : layoutRound listing.handlers listing.lines = .ok (length, listing.lines)) :
    listing.layout = (.ok length, { listing with laidOut := true }) := by
  rw [layout, layoutLines_of_ok h, if_pos rfl]

/-- Lines that refer to nothing are laid out as they stand. -/
theorem layout_of_straight {listing : Listing} {length : Nat}
    (straight : ∀ line ∈ listing.lines.toList, line.instruction.targets = [])
    (unguarded : listing.handlers = #[]) (hlength : lengthFrom 0 listing.lines.toList = length)
    (short : length ≤ 65535) :
    listing.layout = (.ok length, { listing with laidOut := true }) := by
  refine layout_of_unchanged (layoutRound_eq_ok.mpr ⟨hlength.symm, short, ?_, ?_⟩)
  · conv => arg 3; rw [← map_placedFrom 0 listing.lines.toList]
    rw [List.forall₂_map_right_iff, List.forall₂_same]
    intro pair hm
    refine widen_of_near fun target ht => ?_
    rw [straight pair.1 (mem_of_mem_placedFrom hm)] at ht
    cases ht
  · rw [unguarded]
    rfl

/-- A listing whose lines are laid out, with everything that they refer to in place. -/
structure LaidOut (listing : Listing) (length : Nat) : Prop where
  laidOut : listing.laidOut = true
  length_eq : length = lengthFrom 0 listing.lines.toList
  length_le : length ≤ 65535
  targets : ∀ line ∈ listing.lines.toList, ∀ target ∈ line.instruction.targets,
    ∃ place, listing.offsets[target]? = some place
  handlers : ∀ entry ∈ listing.handlers.toList, ∀ handle ∈ entry.handles,
    ∃ place, listing.offsets[handle]? = some place

theorem offsets_of_laidOut {listing : Listing} (h : listing.laidOut = true) :
    listing.offsets = (place listing.lines).offsets := by
  rw [offsets, if_pos h]

theorem layout_eq_ok {listing laid : Listing} {length : Nat}
    (h : listing.layout = (.ok length, laid)) : laid.LaidOut length ∧
      laid.handlers = listing.handlers ∧ SameLines listing.lines.toList laid.lines.toList := by
  have hsame := layout_same listing
  rw [h] at hsame
  unfold layout at h
  split at h
  case h_1 length' lines hl =>
    cases h
    obtain ⟨hlength, hle, hwide, hunplaced⟩ := layoutRound_eq_ok.mp (layoutLines_settled hl)
    refine ⟨⟨rfl, hlength, hle, ?_, unplaced?_eq_none.mp hunplaced⟩, rfl, hsame⟩
    intro line hm target ht
    have hlines := map_placedFrom 0 lines.toList
    obtain ⟨pair, hp, rfl⟩ := List.mem_map.mp (hlines.symm ▸ hm : line ∈ _)
    obtain ⟨line', -, hw⟩ := Outcome.exists_of_mem_right hwide.flip hp
    exact placed_of_widen hw ht
  case h_2 => cases h

/-- The offset of a line is the length of what stands before it. -/
theorem Cut.offsets_eq {listing : Listing} {before after : List Line} {line : Line}
    (cut : listing.Cut before line after) (distinct : listing.Distinct)
    (laidOut : listing.laidOut = true) :
    listing.offsets[line.handle]? = some (lengthFrom 0 before) := by
  rw [offsets_of_laidOut laidOut, offsets_eq_some distinct]
  refine ⟨line, ?_, rfl⟩
  rw [show listing.lines.toList = _ from cut, placedFrom_append]
  exact List.mem_append_right _ List.mem_cons_self

theorem exists_cut_of_offset {listing : Listing} {handle : Handle} {place : Nat}
    (h : listing.offsets[handle]? = some place) (distinct : listing.Distinct)
    (laidOut : listing.laidOut = true) :
    ∃ before line after, listing.Cut before line after ∧ line.handle = handle ∧
      place = lengthFrom 0 before := by
  have hmem : handle ∈ listing.handles := by
    rw [offsets_of_laidOut laidOut, offsets_eq_some distinct] at h
    obtain ⟨line, hm, rfl⟩ := h
    rw [handles, ← map_placedFrom 0 listing.lines.toList, List.map_map]
    exact List.mem_map.mpr ⟨_, hm, rfl⟩
  obtain ⟨before, line, after, cut, rfl⟩ := exists_cut hmem
  rw [cut.offsets_eq distinct laidOut, Option.some.injEq] at h
  exact ⟨before, line, after, cut, rfl, h.symm⟩

end Listing

end BytecodeFold
