import BytecodeFold.Proofs.Listing.Edit
import Mathlib.Data.List.Nodup

/-!
# Renaming handles

Handles are names. A listing whose handles are all replaced by others, no two of them by the same
one, has the same instructions in the same places, and the same parts of it are referred to.
-/

namespace BytecodeFold

namespace Instruction

variable {τ σ : Type}

theorem mapTargets_id (code : Instruction τ) : code.mapTargets id = code := by
  cases code with
  | switch kind default cases => simp [mapTargets]
  | _ => rfl

end Instruction

def ExceptionHandler.rename (f : Handle → Handle) (entry : ExceptionHandler) : ExceptionHandler :=
  ⟨f entry.start, entry.stop.map f, f entry.handler, entry.catchType⟩

theorem ExceptionHandler.handles_rename (f : Handle → Handle) (entry : ExceptionHandler) :
    (entry.rename f).handles = entry.handles.map f := by
  cases h : entry.stop <;> simp [rename, handles, h]

/-- The second line is the first with its handles replaced, maybe in its other form. -/
def Line.Renames (f : Handle → Handle) (line renamed : Line) : Prop :=
  renamed.handle = f line.handle ∧ renamed.instruction = line.instruction.mapTargets f

namespace Listing

/-- The handles that a listing has or refers to. -/
inductive Mentions (listing : Listing) : Handle → Prop where
  | line {line : Line} (mem : line ∈ listing.lines.toList) : Mentions listing line.handle
  | target {line : Line} {handle : Handle} (mem : line ∈ listing.lines.toList)
      (targets : handle ∈ line.instruction.targets) : Mentions listing handle
  | handler {entry : ExceptionHandler} {handle : Handle} (mem : entry ∈ listing.handlers.toList)
      (handles : handle ∈ entry.handles) : Mentions listing handle

/-- The second listing is the first with every handle replaced by another one. -/
structure Renames (f : Handle → Handle) (listing renamed : Listing) : Prop where
  lines : List.Forall₂ (Line.Renames f) listing.lines.toList renamed.lines.toList
  handlers : renamed.handlers.toList = listing.handlers.toList.map (·.rename f)
  injective : ∀ a b, listing.Mentions a → listing.Mentions b → f a = f b → a = b

namespace Renames

variable {f : Handle → Handle} {listing renamed : Listing} {handle : Handle}

theorem handles_eq (h : Renames f listing renamed) : renamed.handles = listing.handles.map f := by
  have hlines := h.lines
  rw [handles, handles]
  generalize listing.lines.toList = lines at hlines
  generalize renamed.lines.toList = lines' at hlines
  induction hlines with
  | nil => rfl
  | cons hline _ ih => rw [List.map_cons, List.map_cons, List.map_cons, ih, hline.1]

theorem size_eq (h : Renames f listing renamed) : renamed.size = listing.size := by
  rw [size, size, ← Array.length_toList, ← Array.length_toList, h.lines.length_eq]

theorem mentions_of_mem_handles (h : handle ∈ listing.handles) : listing.Mentions handle := by
  obtain ⟨line, hm, rfl⟩ := List.mem_map.mp h
  exact .line hm

theorem distinct (h : Renames f listing renamed) (distinct : listing.Distinct) :
    renamed.Distinct := by
  rw [Distinct, h.handles_eq]
  refine List.Nodup.map_on ?_ distinct
  intro a ha b hb he
  exact h.injective a b (mentions_of_mem_handles ha) (mentions_of_mem_handles hb) he

/-- A cut of the listing is a cut of the renamed listing. -/
theorem cut {before after : List Line} {line : Line} (h : Renames f listing renamed)
    (cut : listing.Cut before line after) :
    ∃ before' line' after', renamed.Cut before' line' after' ∧ Line.Renames f line line' ∧
      List.Forall₂ (Line.Renames f) before before' ∧
      List.Forall₂ (Line.Renames f) after after' := by
  have hlines := h.lines.flip
  rw [show listing.lines.toList = _ from cut] at hlines
  obtain ⟨before', rest, hsplit, hbefore, hrest⟩ := Outcome.forall₂_append_right hlines
  cases hrest with
  | cons hline hafter => exact ⟨before', _, _, hsplit, hline, hbefore.flip, hafter.flip⟩

/-- A cut of the renamed listing comes from one of the listing. -/
theorem cut_of_renamed {before' after' : List Line} {line' : Line} (h : Renames f listing renamed)
    (cut' : renamed.Cut before' line' after') :
    ∃ before line after, listing.Cut before line after ∧ Line.Renames f line line' ∧
      List.Forall₂ (Line.Renames f) before before' ∧
      List.Forall₂ (Line.Renames f) after after' := by
  have hlines := h.lines
  rw [show renamed.lines.toList = _ from cut'] at hlines
  obtain ⟨before, rest, hsplit, hbefore, hrest⟩ := Outcome.forall₂_append_right hlines
  cases hrest with
  | cons hline hafter => exact ⟨before, _, _, hsplit, hline, hbefore, hafter⟩

theorem get?_eq (h : Renames f listing renamed) (distinct : listing.Distinct)
    (mentions : listing.Mentions handle) :
    renamed.get? (f handle) = (listing.get? handle).map (·.mapTargets f) := by
  by_cases hm : handle ∈ listing.handles
  · obtain ⟨before, line, after, cut, rfl⟩ := exists_cut hm
    obtain ⟨before', line', after', cut', ⟨hhandle, hcode⟩, -, -⟩ := h.cut cut
    rw [cut.get? distinct, ← hhandle, cut'.get? (h.distinct distinct), hcode]
    rfl
  · have hm' : f handle ∉ renamed.handles := by
      rw [h.handles_eq]
      intro hf
      obtain ⟨other, ho, he⟩ := List.mem_map.mp hf
      rw [h.injective other handle (mentions_of_mem_handles ho) mentions he] at ho
      exact hm ho
    rw [get?_eq_none hm, get?_eq_none hm']
    rfl

/-- What nothing refers to under new handles, nothing refers to under the old ones. -/
theorem unreferenced {segment : List Handle} (h : Renames f listing renamed)
    (mentioned : ∀ handle ∈ segment, listing.Mentions handle) :
    listing.Unreferenced segment ↔ renamed.Unreferenced (segment.map f) := by
  have hmem : ∀ handle, listing.Mentions handle →
      (f handle ∈ segment.map f ↔ handle ∈ segment) := by
    intro handle hh
    constructor
    · intro hf
      obtain ⟨other, ho, he⟩ := List.mem_map.mp hf
      rw [← h.injective other handle (mentioned other ho) hh he]
      exact ho
    · exact List.mem_map_of_mem
  rw [unreferenced_iff, unreferenced_iff, h.handlers]
  apply and_congr
  · rw [List.forall_mem_map]
    refine forall₂_congr fun entry hm => ?_
    rw [ExceptionHandler.handles_rename, List.forall_mem_map]
    exact forall₂_congr fun handle hh => not_congr (hmem handle (.handler hm hh)).symm
  · constructor
    · intro hn line' hm' hout target ht
      obtain ⟨line, hm, hline⟩ := Outcome.exists_of_mem_right h.lines hm'
      rw [hline.1, hmem _ (.line hm)] at hout
      rw [hline.2, Instruction.targets_mapTargets] at ht
      obtain ⟨old, hold, rfl⟩ := List.mem_map.mp ht
      rw [hmem old (.target hm hold)]
      exact hn line hm hout old hold
    · intro hn line hm hout target ht hs
      obtain ⟨line', hm', hline⟩ := Outcome.exists_of_mem_right h.lines.flip hm
      refine hn line' hm' ?_ (f target) ?_ (List.mem_map_of_mem hs)
      · rw [hline.1, hmem _ (.line hm)]
        exact hout
      · rw [hline.2, Instruction.targets_mapTargets]
        exact List.mem_map_of_mem ht

end Renames

end Listing

end BytecodeFold
