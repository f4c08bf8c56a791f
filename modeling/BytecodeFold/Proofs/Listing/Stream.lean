import BytecodeFold.Fold.Resolve
import BytecodeFold.Listing.Basic
import Mathlib.Data.List.Basic

/-!
# The stream of a listing

A listing in which every handle names one line can be cut at a line into what stands before
it, the line, and what stands after it. The lookups of a listing are read off such a cut.
-/

namespace BytecodeFold

/-- The return of an `int`. -/
def Verbatim.intReturn : Verbatim := ⟨0xAC, false, [], ⟨1, 0⟩, .methodReturn⟩

/-- The return of nothing. -/
def Verbatim.voidReturn : Verbatim := ⟨0xB1, false, [], ⟨0, 0⟩, .methodReturn⟩

/-- The return from a subroutine to the address in local 1. -/
def Verbatim.retOne : Verbatim := ⟨0xA9, false, [1], ⟨0, 0⟩, .subroutineReturn⟩

namespace Listing

variable {listing : Listing} {before after : List Line} {line : Line} {handle : Handle}

/-- No handle names two lines. -/
def Distinct (listing : Listing) : Prop := listing.handles.Nodup

/-- The stream is `before`, then `line`, then `after`. -/
def Cut (listing : Listing) (before : List Line) (line : Line) (after : List Line) : Prop :=
  listing.lines.toList = before ++ line :: after

theorem cut_of_mem (h : line ∈ listing.lines.toList) :
    ∃ before after, listing.Cut before line after :=
  List.append_of_mem h

theorem Cut.mem (cut : listing.Cut before line after) : line ∈ listing.lines.toList := by
  rw [show listing.lines.toList = _ from cut]
  simp

theorem Cut.mem_after {other : Line} (cut : listing.Cut before line after) (h : other ∈ after) :
    other ∈ listing.lines.toList := by
  rw [show listing.lines.toList = _ from cut]
  simp [h]

/-- A cut where there is a line after. -/
theorem Cut.forth {next : Line} (cut : listing.Cut before line (next :: after)) :
    listing.Cut (before ++ [line]) next after := by
  rw [Cut, show listing.lines.toList = _ from cut]
  simp

theorem Cut.handles_eq (cut : listing.Cut before line after) :
    listing.handles = before.map (·.handle) ++ line.handle :: after.map (·.handle) := by
  rw [handles, show listing.lines.toList = _ from cut]
  simp

/-- The lines around a cut have other handles than the line at the cut. -/
theorem Cut.handle_ne (cut : listing.Cut before line after) (distinct : listing.Distinct) :
    (∀ other ∈ before, other.handle ≠ line.handle) ∧
      ∀ other ∈ after, other.handle ≠ line.handle := by
  have h := distinct
  rw [Distinct, cut.handles_eq, List.nodup_append] at h
  obtain ⟨-, ht, hd⟩ := h
  constructor
  · intro other hm
    exact hd _ (List.mem_map_of_mem hm) _ List.mem_cons_self
  · intro other hm he
    exact (List.nodup_cons.mp ht).1 (he ▸ List.mem_map_of_mem hm)

theorem Cut.unique {before' after' : List Line} {line' : Line} (cut : listing.Cut before line after)
    (cut' : listing.Cut before' line' after') (distinct : listing.Distinct)
    (hh : line.handle = line'.handle) : before = before' ∧ line = line' ∧ after = after' := by
  have he : before ++ line :: after = before' ++ line' :: after' := cut.symm.trans cut'
  obtain ⟨hb, ha⟩ := cut.handle_ne distinct
  obtain ⟨hb', ha'⟩ := cut'.handle_ne distinct
  rcases List.append_eq_append_iff.mp he with ⟨mid, rfl, hm⟩ | ⟨mid, rfl, hm⟩
  · cases mid with
    | nil => simpa using hm
    | cons head mid =>
      simp only [List.cons_append, List.cons.injEq] at hm
      obtain ⟨rfl, -⟩ := hm
      exact absurd hh (hb' line (by simp))
  · cases mid with
    | nil => simpa [eq_comm] using hm
    | cons head mid =>
      simp only [List.cons_append, List.cons.injEq] at hm
      obtain ⟨rfl, -⟩ := hm
      exact absurd hh.symm (hb line' (by simp))

/-! ## Lookups at a cut -/

theorem contains_iff : listing.contains handle = true ↔ handle ∈ listing.handles := by
  rw [contains, ← Array.any_toList, List.any_eq_true]
  simp [handles]

theorem indexOf?_eq_findIdx? :
    listing.indexOf? handle = listing.lines.toList.findIdx? (·.handle == handle) := by
  rw [Listing.indexOf?, ← List.findIdx?_toArray]

theorem Cut.indexOf? (cut : listing.Cut before line after) (distinct : listing.Distinct) :
    listing.indexOf? line.handle = some before.length := by
  rw [indexOf?_eq_findIdx?, show listing.lines.toList = _ from cut, List.findIdx?_append]
  have hn : before.findIdx? (fun l => l.handle == line.handle) = none := by
    rw [List.findIdx?_eq_none_iff]
    intro other hm
    simpa using (cut.handle_ne distinct).1 other hm
  simp [hn, List.findIdx?_cons]

theorem Cut.line? (cut : listing.Cut before line after) (distinct : listing.Distinct) :
    listing.line? line.handle = some line := by
  rw [Listing.line?, ← Array.find?_toList, show listing.lines.toList = _ from cut,
    List.find?_append]
  have hn : before.find? (fun l => l.handle == line.handle) = none := by
    rw [List.find?_eq_none]
    intro other hm
    simpa using (cut.handle_ne distinct).1 other hm
  simp [hn]

theorem Cut.get? (cut : listing.Cut before line after) (distinct : listing.Distinct) :
    listing.get? line.handle = some line.instruction := by
  rw [Listing.get?, cut.line? distinct]
  rfl

theorem get?_of_mem (distinct : listing.Distinct) (h : line ∈ listing.lines.toList) :
    listing.get? line.handle = some line.instruction := by
  obtain ⟨before, after, cut⟩ := cut_of_mem h
  exact cut.get? distinct

theorem Cut.next? (cut : listing.Cut before line after) (distinct : listing.Distinct) :
    listing.next? line.handle = after.head?.map (·.handle) := by
  rw [Listing.next?, cut.indexOf? distinct]
  have hl : listing.lines[before.length + 1]? = after.head? := by
    rw [← Array.getElem?_toList, show listing.lines.toList = _ from cut,
      List.getElem?_append_right (Nat.le_add_right _ _), Nat.add_sub_cancel_left,
      List.getElem?_cons_succ, List.head?_eq_getElem?]
  simp only [Option.bind_eq_bind, Option.bind_some, hl]
  cases after <;> rfl

theorem Cut.prev? (cut : listing.Cut before line after) (distinct : listing.Distinct) :
    listing.prev? line.handle = before.getLast?.map (·.handle) := by
  rw [Listing.prev?, cut.indexOf? distinct]
  by_cases hempty : before = []
  · simp [hempty]
  · have hpos : 0 < before.length := List.length_pos_iff.mpr hempty
    have hlt : before.length - 1 < before.length := by omega
    have hl : listing.lines[before.length - 1]? = before.getLast? := by
      rw [← Array.getElem?_toList, show listing.lines.toList = _ from cut,
        List.getElem?_append_left hlt, List.getLast?_eq_getElem?]
    have hne : before.length ≠ 0 := by omega
    simp only [Option.bind_eq_bind, Option.bind_some, if_neg hne, hl]
    cases before.getLast? <;> rfl

theorem Cut.linesFrom (cut : listing.Cut before line after) (distinct : listing.Distinct) :
    listing.linesFrom line.handle = line :: after := by
  rw [Listing.linesFrom, show listing.lines.toList = _ from cut, List.dropWhile_append_of_pos]
  · simp
  · intro other hm
    simpa using (cut.handle_ne distinct).1 other hm

theorem Cut.linesBefore (cut : listing.Cut before line after) (distinct : listing.Distinct) :
    listing.linesBefore line.handle = before.reverse := by
  rw [Listing.linesBefore, show listing.lines.toList = _ from cut, List.takeWhile_append_of_pos]
  · simp
  · intro other hm
    simpa using (cut.handle_ne distinct).1 other hm

theorem get?_eq_none (h : handle ∉ listing.handles) : listing.get? handle = none := by
  have hn : listing.line? handle = none := by
    rw [Listing.line?, ← Array.find?_toList, List.find?_eq_none]
    intro other hm he
    exact h (List.mem_map.mpr ⟨other, hm, by simpa using he⟩)
  rw [Listing.get?, hn]
  rfl

theorem indexOf?_eq_none (h : handle ∉ listing.handles) : listing.indexOf? handle = none := by
  rw [indexOf?_eq_findIdx?, List.findIdx?_eq_none_iff]
  intro other hm
  simp only [beq_eq_false_iff_ne, ne_eq]
  intro he
  exact h (List.mem_map.mpr ⟨other, hm, he⟩)

/-- A handle of the stream names the line at some cut. -/
theorem exists_cut (h : handle ∈ listing.handles) :
    ∃ before line after, listing.Cut before line after ∧ line.handle = handle := by
  obtain ⟨line, hm, hh⟩ := List.mem_map.mp h
  obtain ⟨before, after, cut⟩ := cut_of_mem hm
  exact ⟨before, line, after, cut, hh⟩

theorem exists_cut_of_get? {code : Instruction Handle} (h : listing.get? handle = some code)
    (distinct : listing.Distinct) :
    ∃ before line after, listing.Cut before line after ∧ line.handle = handle ∧
      line.instruction = code := by
  by_cases hm : handle ∈ listing.handles
  · obtain ⟨before, line, after, cut, rfl⟩ := exists_cut hm
    rw [cut.get? distinct] at h
    exact ⟨before, line, after, cut, rfl, Option.some.inj h⟩
  · rw [get?_eq_none hm] at h
    cases h

/-- A line is the next one of the line before it and of no other. -/
theorem Cut.eq_of_next? {next : Line} (cut : listing.Cut before line (next :: after))
    (distinct : listing.Distinct) (h : listing.next? handle = some next.handle) :
    handle = line.handle := by
  by_cases hm : handle ∈ listing.handles
  · obtain ⟨before', line', after', cut', rfl⟩ := exists_cut hm
    rw [cut'.next? distinct] at h
    obtain ⟨next', hn, he⟩ := Option.map_eq_some_iff.mp h
    obtain ⟨rest, rfl⟩ := List.head?_eq_some_iff.mp hn
    have hu := (cut'.forth.unique cut.forth distinct he).1
    rw [(List.append_inj' hu rfl).2 |> List.singleton_inj.mp]
  · rw [Listing.next?, indexOf?_eq_none hm] at h
    cases h

end Listing

end BytecodeFold
