import BytecodeFold.Proofs.Codec.RoundTrip

/-!
# Positions

A line of a listing that is laid out has its position where the lines in front of it end. In a
listing that a layout has given nothing is left to widen, so every branch in a short form reaches
its target.
-/

namespace BytecodeFold

/-- Whether a line is a branch that has two bytes for its distance. -/
def Line.isShortBranch (line : Line) : Bool :=
  match line.instruction with
  | .branch .. => true
  | .jump _ | .subroutine _ => !line.long
  | _ => false

namespace Listing

variable {listing : Listing} {before after : List Line} {line : Line} {length offset : Nat}

/-! ## Rounds that widen nothing -/

/-- Nothing has to be widened in a listing. -/
def Settled (listing : Listing) (length : Nat) : Prop :=
  layoutRound listing.handlers listing.lines = .ok (length, listing.lines)

theorem layout_settled {laid : Listing} (h : listing.layout = (.ok length, laid)) :
    laid.laidOut = true ∧ laid.Settled length := by
  unfold layout at h
  split at h
  case h_1 hl =>
    cases h
    exact ⟨rfl, layoutLines_settled hl⟩
  case h_2 => cases h

/-! ## Positions of lines -/

theorem Cut.position?_eq (cut : listing.Cut before line after) (distinct : listing.Distinct)
    (laidOut : listing.laidOut = true) :
    listing.position? line.handle = some (lengthFrom 0 before) := by
  have hplaced : (place listing.lines).placed.toList = placedFrom 0 before ++
      (line, lengthFrom 0 before) :: placedFrom
        (lengthFrom 0 before + line.instruction.size (lengthFrom 0 before) line.long) after := by
    rw [place_eq]
    change placedFrom 0 listing.lines.toList = _
    rw [show listing.lines.toList = _ from cut, placedFrom_append, placedFrom]
  have hnone : (placedFrom 0 before).find? (fun pair => pair.1.handle == line.handle) = none := by
    rw [List.find?_eq_none]
    intro pair hm
    simpa using (cut.handle_ne distinct).1 pair.1 (mem_of_mem_placedFrom hm)
  have hfind : (place listing.lines).placed.find? (fun pair => pair.1.handle == line.handle) =
      some (line, lengthFrom 0 before) := by
    rw [← Array.find?_toList, hplaced, List.find?_append, hnone]
    simp
  simp only [position?, placedLines?, laidOut, if_true, Option.bind_eq_bind, Option.bind_some]
  rw [hfind]
  rfl

/-- A short branch that is not widened reaches its targets. -/
theorem reach_of_widen {offsets : Handle → Option Nat} (h : widen offsets line offset = .ok line)
    (hshort : line.isShortBranch = true) {target : Handle}
    (ht : target ∈ line.instruction.targets) : ∃ goal : Nat, offsets target = some goal ∧
      fitsSigned 16 ((goal : Int) - (offset : Int)) = true := by
  obtain ⟨goal, hgoal⟩ := placed_of_widen h ht
  refine ⟨goal, hgoal, ?_⟩
  obtain ⟨far, hfar, h⟩ := Outcome.bind_eq_ok.mp h
  obtain ⟨answer, hm, ha⟩ := Outcome.exists_of_mem_right (Outcome.list_mapM_eq_ok.mp hfar).flip ht
  have hform : (line.long || far.any id) = line.long := congrArg Line.long (Except.ok.inj h)
  by_contra hfits
  -- a short jump that is too far away would have been made long
  have hjump : line.long = false → answer = !line.long → False := by
    intro hlong hanswer
    have hfar : far.any id = true :=
      List.any_eq_true.mpr ⟨answer, hm, by rw [hanswer, hlong]; rfl⟩
    rw [hfar, hlong] at hform
    cases hform
  simp only [tooFar, hgoal, if_neg hfits] at ha
  unfold Line.isShortBranch at hshort
  split at hshort
  case h_1 hi =>
    rw [hi] at ha
    cases ha
  case h_2 hi | h_3 hi =>
    rw [hi] at ha
    exact hjump (by simpa using hshort) (Except.ok.inj ha).symm
  case h_4 => cases hshort

end Listing

end BytecodeFold
