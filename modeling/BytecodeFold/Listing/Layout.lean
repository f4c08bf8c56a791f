import BytecodeFold.Instruction.Size
import BytecodeFold.Listing.Basic

/-!
# Layout

A layout puts the lines of a listing at offsets one after another. A jump starts in its
short form and is widened when its target turns out to be too far away; the layout is then
done again, and a jump that was widened stays long. The rounds end when none of the short jumps
had to be widened, and they do end, since every other round leaves fewer short jumps.
-/

namespace BytecodeFold

namespace Listing

/-- Lines with their offsets, and the length of the code. -/
structure Placement where
  placed : Array (Line × Nat)
  length : Nat

/-- Puts lines at offsets one after another. -/
def place (lines : Array Line) : Placement :=
  lines.foldl
    (fun placement line =>
      ⟨placement.placed.push (line, placement.length),
        placement.length + line.instruction.size placement.length line.long⟩)
    ⟨#[], 0⟩

/-- The offset of every handle. -/
def Placement.offsets (placement : Placement) : Std.HashMap Handle Nat :=
  placement.placed.foldl (fun table (line, offset) => table.insert line.handle offset) ∅

/-- A table of offsets is read by looking them up in it. -/
instance : Coe (Std.HashMap Handle Nat) (Handle → Option Nat) :=
  ⟨fun table handle => table[handle]?⟩

/-- Whether a line at an offset has to be widened to reach a target. A conditional branch
has no long form and fails; a switch always reaches. -/
def tooFar (offsets : Handle → Option Nat) (line : Line) (offset : Nat) (target : Handle) :
    Except Error Bool :=
  match offsets target with
  | none => .error (.invalidHandle target)
  | some targetOffset =>
    if fitsSigned 16 ((targetOffset : Int) - (offset : Int)) then .ok false
    else
      match line.instruction with
      | .jump _ | .subroutine _ => .ok (!line.long)
      | .switch .. => .ok false
      | _ => .error (.branchOutOfRange offset)

/-- The line, widened if one of its targets is too far away. -/
def widen (offsets : Handle → Option Nat) (line : Line) (offset : Nat) : Except Error Line := do
  let far ← line.instruction.targets.mapM (tooFar offsets line offset)
  return { line with long := line.long || far.any id }

/-- The first handle of an exception handler that has no offset. -/
def unplaced? (offsets : Handle → Option Nat) (handlers : Array ExceptionHandler) :
    Option Handle :=
  handlers.findSome? fun entry => entry.handles.find? fun handle => (offsets handle).isNone

/-- One round: places the lines, checks that everything they refer to is there, and widens
what has to be. Gives the length of the code and the lines. Offsets are 32-bit words, so code
that does not end below `2 ^ 32` cannot be placed. -/
def layoutRound (handlers : Array ExceptionHandler) (lines : Array Line) :
    Except Error (Nat × Array Line) :=
  let placement := place lines
  if 4294967296 ≤ placement.length then .error .wordOverflow
  else if 65535 < placement.length then
    .error (.malformed (.codeTooLong placement.length))
  else do
    let table := placement.offsets
    let wider ← placement.placed.mapM fun (line, offset) => widen table line offset
    match unplaced? table handlers with
    | some missing => throw (.invalidHandle missing)
    | none => return (placement.length, wider)

/-! ## The rounds of a layout -/

/-- How many jumps are still in their short form. -/
def shortJumps (lines : Array Line) : Nat := lines.countP (·.isShortJump)

theorem tooFar_eq_true {offsets : Handle → Option Nat} {line : Line} {offset : Nat}
    {target : Handle} (h : tooFar offsets line offset target = .ok true) :
    line.isShortJump = true := by
  unfold tooFar at h
  unfold Line.isShortJump
  split at h
  · cases h
  · split at h
    · cases h
    · split at h
      case h_1 hi | h_2 hi =>
        rw [Except.ok.injEq] at h
        rw [hi, h]
        rfl
      all_goals cases h

theorem exists_tooFar {offsets : Handle → Option Nat} {line : Line} {offset : Nat} :
    ∀ {targets : List Handle} {far : List Bool},
      targets.mapM (tooFar offsets line offset) = .ok far → far.any id = true →
        ∃ target, tooFar offsets line offset target = .ok true
  | [], far, h, hany => by
    cases h
    cases hany
  | target :: rest, far, h, hany => by
    rw [List.mapM_cons] at h
    cases hfirst : tooFar offsets line offset target with
    | error e =>
      rw [hfirst] at h
      cases h
    | ok answer =>
      cases hrest : rest.mapM (tooFar offsets line offset) with
      | error e =>
        rw [hfirst, hrest] at h
        cases h
      | ok answers =>
        rw [hfirst, hrest] at h
        cases h
        cases answer with
        | true => exact ⟨target, hfirst⟩
        | false => exact exists_tooFar hrest hany

/-- Widening leaves a line as it is, or makes a short jump long. -/
theorem widen_cases {offsets : Handle → Option Nat} {line wider : Line} {offset : Nat}
    (h : widen offsets line offset = .ok wider) :
    wider = line ∨ line.isShortJump = true ∧ wider.isShortJump = false := by
  unfold widen at h
  cases hfar : line.instruction.targets.mapM (tooFar offsets line offset) with
  | error e =>
    rw [hfar] at h
    cases h
  | ok far =>
    rw [hfar] at h
    cases h
    cases hany : far.any id with
    | false => exact .inl (by rw [Bool.or_false])
    | true =>
      obtain ⟨target, ht⟩ := exists_tooFar hfar hany
      exact .inr ⟨tooFar_eq_true ht, by simp [Line.isShortJump]⟩

/-- A list of lines stays as it is, or ends up with fewer short jumps. -/
theorem eq_or_countP_lt {offsets : Handle → Option Nat} :
    ∀ {placed : List (Line × Nat)} {wider : List Line},
      placed.mapM (fun (line, offset) => widen offsets line offset) = .ok wider →
        wider = placed.map (·.1) ∨
          wider.countP (·.isShortJump) < (placed.map (·.1)).countP (·.isShortJump)
  | [], wider, h => by
    cases h
    exact .inl rfl
  | (line, offset) :: rest, wider, h => by
    rw [List.mapM_cons] at h
    dsimp only at h
    cases hfirst : widen offsets line offset with
    | error e =>
      rw [hfirst] at h
      cases h
    | ok first =>
      cases hrest : rest.mapM (fun (line, offset) => widen offsets line offset) with
      | error e =>
        rw [hfirst, hrest] at h
        cases h
      | ok others =>
        rw [hfirst, hrest] at h
        cases h
        rw [List.map_cons, List.countP_cons, List.countP_cons]
        dsimp only
        rcases widen_cases hfirst, eq_or_countP_lt hrest with ⟨rfl | ⟨hwas, his⟩, heq | hlt⟩
        · exact .inl (by rw [heq])
        · exact .inr (by omega)
        · exact .inr (by rw [heq, if_pos hwas, his]; simp)
        · exact .inr (by rw [if_pos hwas, his]; simp only [Bool.false_eq_true, if_false]; omega)

theorem map_placed (lines : Array Line) : (place lines).placed.toList.map (·.1) = lines.toList := by
  have h : ∀ (lines : List Line) (placement : Placement),
      (lines.foldl (fun placement line =>
        ⟨placement.placed.push (line, placement.length),
          placement.length + line.instruction.size placement.length line.long⟩)
        placement).placed.toList.map (·.1) = placement.placed.toList.map (·.1) ++ lines := by
    intro lines
    induction lines with
    | nil => simp
    | cons line rest ih =>
      intro placement
      rw [List.foldl_cons, ih]
      simp
  rw [place, ← Array.foldl_toList, h]
  rfl

/-- A round widens nothing, or leaves fewer short jumps. -/
theorem layoutRound_cases {handlers : Array ExceptionHandler} {lines wider : Array Line}
    {length : Nat} (h : layoutRound handlers lines = .ok (length, wider)) :
    wider = lines ∨ shortJumps wider < shortJumps lines := by
  unfold layoutRound at h
  dsimp only at h
  split at h
  · cases h
  · split at h
    · cases h
    · rw [Array.mapM_eq_mapM_toList] at h
      cases hwide : (place lines).placed.toList.mapM
          (fun (line, offset) => widen (place lines).offsets line offset) with
      | error e =>
        rw [hwide] at h
        cases h
      | ok widened =>
        rw [hwide] at h
        have hlines : widened.toArray = wider := by
          cases hu : unplaced? (place lines).offsets handlers with
          | some missing =>
            simp only [hu] at h
            cases h
          | none =>
            simp only [hu] at h
            cases h
            rfl
        have hcases := eq_or_countP_lt hwide
        rw [map_placed] at hcases
        subst hlines
        rw [shortJumps, shortJumps, ← Array.countP_toList, ← Array.countP_toList,
          ← Array.toList_inj]
        exact hcases

/-- Rounds until none widens a jump. The lines are given back also when a round fails, with
the jumps that earlier rounds widened. -/
def layoutLines (handlers : Array ExceptionHandler) (lines : Array Line) :
    Except Error Nat × Array Line :=
  match _round : layoutRound handlers lines with
  | .error e => (.error e, lines)
  | .ok (length, wider) =>
    if wider = lines then (.ok length, lines) else layoutLines handlers wider
  termination_by shortJumps lines
  decreasing_by exact (layoutRound_cases _round).resolve_left ‹_›

theorem layoutLines_of_error {handlers : Array ExceptionHandler} {lines : Array Line} {e : Error}
    (h : layoutRound handlers lines = .error e) :
    layoutLines handlers lines = (.error e, lines) := by
  rw [layoutLines]
  split
  · rename_i h'
    cases h.symm.trans h'
    rfl
  · rename_i h'
    cases h.symm.trans h'

theorem layoutLines_of_ok {handlers : Array ExceptionHandler} {lines wider : Array Line}
    {length : Nat} (h : layoutRound handlers lines = .ok (length, wider)) :
    layoutLines handlers lines =
      if wider = lines then (.ok length, lines) else layoutLines handlers wider := by
  rw [layoutLines]
  split
  · rename_i h'
    cases h.symm.trans h'
  · rename_i h'
    cases h.symm.trans h'
    rfl

/-- Lays the listing out and gives the length of the code. -/
def layout (listing : Listing) : Except Error Nat × Listing :=
  match layoutLines listing.handlers listing.lines with
  | (.ok length, lines) => (.ok length, { listing with lines, laidOut := true })
  | (.error e, lines) => (.error e, { listing with lines })

/-- The lines with their offsets, once the listing is laid out. -/
def placedLines? (listing : Listing) : Option (Array (Line × Nat)) :=
  if listing.laidOut then some (place listing.lines).placed else none

/-- The offset of every handle, none while the layout is stale. -/
def offsets (listing : Listing) : Std.HashMap Handle Nat :=
  if listing.laidOut then (place listing.lines).offsets else ∅

/-- The offset of a line, once the listing is laid out. -/
def position? (listing : Listing) (handle : Handle) : Option Nat := do
  let placed ← listing.placedLines?
  let (_, offset) ← placed.find? (·.1.handle == handle)
  return offset

end Listing

end BytecodeFold
