import BytecodeFold.Fold.Rule
import BytecodeFold.Proofs.Listing.Stream
import BytecodeFold.Proofs.Outcome

/-!
# Edits of a segment

A segment is a run of neighbouring lines. Its range is the list of its handles, deleting it
leaves what stands around it, and replacing a line and the segment after it leaves one line in
their place. Each of these is stated on the cut of the stream that shows the segment.
-/

namespace BytecodeFold

namespace Listing

variable {listing : Listing} {before after segment : List Line} {first last : Line}

/-- The stream is `before`, then the segment from `first` through `last`, then `after`. -/
structure Segment (listing : Listing) (before segment after : List Line) (first last : Line) :
    Prop where
  lines_eq : listing.lines.toList = before ++ segment ++ after
  head_eq : segment.head? = some first
  last_eq : segment.getLast? = some last

theorem Segment.cut_first (h : listing.Segment before segment after first last) :
    ∃ more, segment = first :: more ∧ listing.Cut before first (more ++ after) := by
  obtain ⟨more, hm⟩ := List.head?_eq_some_iff.mp h.head_eq
  refine ⟨more, hm, ?_⟩
  rw [Cut, h.lines_eq, hm]
  simp

theorem Segment.cut_last (h : listing.Segment before segment after first last) :
    ∃ init, segment = init ++ [last] ∧ listing.Cut (before ++ init) last after := by
  obtain ⟨init, hi⟩ := List.getLast?_eq_some_iff.mp h.last_eq
  refine ⟨init, hi, ?_⟩
  rw [Cut, h.lines_eq, hi]
  simp

theorem Segment.handles_nodup (h : listing.Segment before segment after first last)
    (distinct : listing.Distinct) :
    (before.map (·.handle) ++ segment.map (·.handle) ++ after.map (·.handle)).Nodup := by
  have hd := distinct
  rw [Distinct, handles, h.lines_eq] at hd
  simpa using hd

/-- Lines outside the segment have other handles than those inside. -/
theorem Segment.handle_not_mem (h : listing.Segment before segment after first last)
    (distinct : listing.Distinct) {line : Line} (hm : line ∈ before ++ after) :
    line.handle ∉ segment.map (·.handle) := by
  have hn := h.handles_nodup distinct
  rw [List.append_assoc, List.nodup_append] at hn
  obtain ⟨-, ht, hd⟩ := hn
  rw [List.nodup_append] at ht
  intro hs
  rcases List.mem_append.mp hm with hb | ha
  · exact hd _ (List.mem_map_of_mem hb) _ (List.mem_append_left _ hs) rfl
  · exact ht.2.2 _ hs _ (List.mem_map_of_mem ha) rfl

/-! ## Ranges -/

theorem firstMissing?_eq_none {handles : List Handle}
    (h : ∀ handle ∈ handles, handle ∈ listing.handles) :
    listing.firstMissing? handles = none := by
  rw [firstMissing?, List.find?_eq_none]
  intro handle hm
  simpa using contains_iff.mpr (h handle hm)

/-- The range of a segment is the list of its handles. -/
theorem Segment.range_eq (h : listing.Segment before segment after first last)
    (distinct : listing.Distinct) :
    listing.range first.handle last.handle = .ok (segment.map (·.handle)) := by
  obtain ⟨more, hm, cutFirst⟩ := h.cut_first
  obtain ⟨init, hi, cutLast⟩ := h.cut_last
  have hlive : listing.firstMissing? [first.handle, last.handle] = none := by
    apply firstMissing?_eq_none
    intro handle hh
    simp only [List.mem_cons, List.not_mem_nil, or_false] at hh
    rcases hh with rfl | rfl
    · exact List.mem_map_of_mem cutFirst.mem
    · exact List.mem_map_of_mem cutLast.mem
  have htail : (listing.linesFrom first.handle).map (·.handle) =
      init.map (·.handle) ++ last.handle :: after.map (·.handle) := by
    rw [cutFirst.linesFrom distinct, ← List.cons_append, ← hm, hi]
    simp
  have hinner : ((listing.linesFrom first.handle).map (·.handle)).takeWhile (· != last.handle) =
      init.map (·.handle) := by
    rw [htail, List.takeWhile_append_of_pos]
    · simp
    · intro handle hh
      obtain ⟨other, ho, rfl⟩ := List.mem_map.mp hh
      simpa using (cutLast.handle_ne distinct).1 other (List.mem_append_right _ ho)
  have hlt : (init.map (·.handle)).length <
      ((listing.linesFrom first.handle).map (·.handle)).length := by
    rw [htail]
    simp
  simp only [range, hlive, hinner, if_pos hlt]
  rw [hi]
  simp

/-! ## References from outside -/

/-- Nothing outside a list of handles refers to one of them. -/
structure Unreferenced (listing : Listing) (segment : List Handle) : Prop where
  handlers : ∀ entry ∈ listing.handlers.toList, ∀ handle ∈ entry.handles, handle ∉ segment
  lines : ∀ line ∈ listing.lines.toList, line.handle ∉ segment →
    ∀ target ∈ line.instruction.targets, target ∉ segment

theorem unreferenced_iff {segment : List Handle} :
    listing.Unreferenced segment ↔
      (∀ entry ∈ listing.handlers.toList, ∀ handle ∈ entry.handles, handle ∉ segment) ∧
      ∀ line ∈ listing.lines.toList, line.handle ∉ segment →
        ∀ target ∈ line.instruction.targets, target ∉ segment :=
  ⟨fun h => ⟨h.handlers, h.lines⟩, fun ⟨handlers, lines⟩ => ⟨handlers, lines⟩⟩

theorem externalReferrer?_eq_none {segment : List Handle} :
    listing.externalReferrer? segment = none ↔ listing.Unreferenced segment := by
  rw [externalReferrer?, unreferenced_iff]
  simp only [Option.orElse_eq_orElse, Option.orElse_eq_or, Option.or_eq_none_iff]
  apply and_congr
  · rw [List.findSome?_eq_none_iff]
    constructor
    · intro hn entry hm handle hh hs
      obtain ⟨index, hi⟩ := List.mem_iff_getElem?.mp hm
      have hf := hn (entry, index) (List.mk_mem_zipIdx_iff_getElem?.mpr hi)
      simp only [Option.map_eq_none_iff, List.find?_eq_none] at hf
      exact hf handle hs (ExceptionHandler.refersTo_eq_true.mpr hh)
    · intro hn pair hm
      simp only [Option.map_eq_none_iff, List.find?_eq_none]
      intro handle hs hr
      have hentry : pair.1 ∈ listing.handlers.toList := (List.mem_zipIdx' hm).2 ▸ List.getElem_mem _
      exact hn pair.1 hentry handle (ExceptionHandler.refersTo_eq_true.mp hr) hs
  · rw [← Array.findSome?_toList, List.findSome?_eq_none_iff]
    refine forall₂_congr fun line _ => ?_
    simp only [Std.HashSet.contains_ofList, List.contains_eq_mem]
    by_cases hm : line.handle ∈ segment
    · simp [hm]
    · simp [hm]

/-! ## Deleting and replacing -/

/-- Deleting a segment that nothing outside refers to leaves the lines around it. -/
theorem Segment.deleteRange_of_unreferenced (h : listing.Segment before segment after first last)
    (distinct : listing.Distinct) (unreferenced : listing.Unreferenced (segment.map (·.handle))) :
    listing.deleteRange first.handle last.handle =
      .ok { listing with lines := (before ++ after).toArray, laidOut := false } := by
  rw [deleteRange, h.range_eq distinct, Outcome.ok_bind]
  simp only [externalReferrer?_eq_none.mpr unreferenced, Outcome.pure_eq_ok, Except.ok.injEq]
  congr 1
  apply Array.toList_inj.mp
  have hkeep : ∀ line ∈ before ++ after,
      (!(Std.HashSet.ofList (segment.map (·.handle))).contains line.handle) = true := by
    intro line hm
    simpa [Std.HashSet.contains_ofList] using h.handle_not_mem distinct hm
  have hdrop : ∀ line ∈ segment,
      ¬ (!(Std.HashSet.ofList (segment.map (·.handle))).contains line.handle) = true := by
    intro line hm
    simpa [Std.HashSet.contains_ofList] using ⟨line, hm, rfl⟩
  rw [Array.toList_filter, h.lines_eq, List.filter_append, List.filter_append,
    List.filter_eq_nil_iff.mpr hdrop, List.append_nil, List.filter_eq_self.mpr,
    List.filter_eq_self.mpr]
  · intro line hm
    exact hkeep line (List.mem_append_right _ hm)
  · intro line hm
    exact hkeep line (List.mem_append_left _ hm)

theorem Segment.unreferenced_of_deleteRange (h : listing.Segment before segment after first last)
    (distinct : listing.Distinct) {result : Listing}
    (hd : listing.deleteRange first.handle last.handle = .ok result) :
    listing.Unreferenced (segment.map (·.handle)) := by
  rw [deleteRange, h.range_eq distinct, Outcome.ok_bind] at hd
  cases he : listing.externalReferrer? (segment.map (·.handle)) with
  | some found =>
    simp only [he] at hd
    cases hd
  | none => exact externalReferrer?_eq_none.mp he

/-- Replacing the instruction at a cut keeps everything around it. -/
theorem Cut.set_eq {line : Line} (cut : listing.Cut before line after) (distinct : listing.Distinct)
    (code : Instruction Handle) :
    listing.set line.handle code = .ok (line.instruction, { listing with
      lines := (before ++ ⟨line.handle, code, false⟩ :: after).toArray, laidOut := false }) := by
  simp only [set, cut.get? distinct, Except.ok.injEq, Prod.mk.injEq, true_and]
  congr 1
  apply Array.toList_inj.mp
  obtain ⟨hb, ha⟩ := cut.handle_ne distinct
  have hsame : ∀ lines : List Line, (∀ other ∈ lines, other.handle ≠ line.handle) →
      lines.map (fun other =>
        if other.handle = line.handle then ⟨line.handle, code, false⟩ else other) = lines := by
    intro lines hl
    conv => rhs; rw [← List.map_id lines]
    exact List.map_congr_left fun other hm => if_neg (hl other hm)
  rw [Array.toList_map, show listing.lines.toList = _ from cut, List.map_append, List.map_cons,
    hsame before hb, hsame after ha, if_pos rfl]

/-- A line with the segment after it was replaced by one instruction. -/
structure Replaced (listing : Listing) (before : List Line) (first : Line)
    (segment after : List Line) (code : Instruction Handle) (result : Listing) : Prop where
  cut : listing.Cut before first (segment ++ after)
  distinct : listing.Distinct
  unreferenced : listing.Unreferenced (segment.map (·.handle))
  targets : ∀ target ∈ code.targets, target ∉ segment.map (·.handle)
  result_eq : result = { listing with
    lines := (before ++ ⟨first.handle, code, false⟩ :: after).toArray, laidOut := false }

namespace Replaced

variable {result : Listing} {code : Instruction Handle}

theorem result_cut (replaced : listing.Replaced before first segment after code result) :
    result.Cut before ⟨first.handle, code, false⟩ after := by
  rw [Cut, replaced.result_eq]

theorem handlers_eq (replaced : listing.Replaced before first segment after code result) :
    result.handlers = listing.handlers := by
  rw [replaced.result_eq]

theorem result_distinct (replaced : listing.Replaced before first segment after code result) :
    result.Distinct := by
  have hd := replaced.distinct
  rw [Distinct, replaced.cut.handles_eq] at hd
  rw [Distinct, replaced.result_cut.handles_eq]
  refine hd.sublist ?_
  simp

/-- A line of the result is the new one, or one from before that is not in the segment. -/
theorem line_cases (replaced : listing.Replaced before first segment after code result)
    {line : Line} (hm : line ∈ result.lines.toList) : line = ⟨first.handle, code, false⟩ ∨
      line ∈ listing.lines.toList ∧ line.handle ∉ segment.map (·.handle) := by
  have hd := replaced.distinct
  rw [Distinct, replaced.cut.handles_eq, List.map_append, List.nodup_append] at hd
  obtain ⟨-, htail, hbefore⟩ := hd
  have hafter := (List.nodup_append.mp (List.nodup_cons.mp htail).2).2.2
  rw [show result.lines.toList = _ from replaced.result_cut, List.mem_append, List.mem_cons] at hm
  rw [show listing.lines.toList = _ from replaced.cut]
  rcases hm with hm | rfl | hm
  · refine .inr ⟨by simp [hm], fun hs => ?_⟩
    exact hbefore _ (List.mem_map_of_mem hm) _ (List.mem_cons_of_mem _ (List.mem_append_left _ hs))
      rfl
  · exact .inl rfl
  · exact .inr ⟨by simp [hm], fun hs => hafter _ hs _ (List.mem_map_of_mem hm) rfl⟩

/-- What holds of every instruction and of the new one holds of every instruction after it. -/
theorem forall_instruction {P : Instruction Handle → Prop}
    (replaced : listing.Replaced before first segment after code result)
    (h : ∀ line ∈ listing.lines.toList, P line.instruction) (hcode : P code) :
    ∀ line ∈ result.lines.toList, P line.instruction := by
  intro line hm
  rcases replaced.line_cases hm with rfl | ⟨hold, -⟩
  · exact hcode
  · exact h line hold

end Replaced

/-- The lines after the first of a replacement are a segment that starts at the next handle. -/
theorem Cut.next_segment (cut : listing.Cut before first (segment ++ after))
    (hlast : segment.getLast? = some last) (distinct : listing.Distinct) :
    ∃ start, listing.next? first.handle = some start.handle ∧
      listing.Segment (before ++ [first]) segment after start last := by
  obtain ⟨start, hstart⟩ : ∃ start, segment.head? = some start := by
    cases segment with
    | nil => cases hlast
    | cons start more => exact ⟨start, rfl⟩
  refine ⟨start, ?_, by rw [show listing.lines.toList = _ from cut]; simp, hstart, hlast⟩
  rw [cut.next? distinct, List.head?_append, hstart]
  rfl

end Listing

open Listing in
/-- What a successful replacement did. -/
theorem replaceSegment_eq_folded {listing result : Listing} {before segment after : List Line}
    {first last : Line} {pool : ConstantPool} {note : String}
    {replacement : Except Error (Instruction Handle × ConstantPool × String)}
    (cut : listing.Cut before first (segment ++ after)) (hlast : segment.getLast? = some last)
    (distinct : listing.Distinct) :
    replaceSegment listing first.handle last.handle replacement = .ok (.folded result pool note) ↔
      ∃ code, replacement = .ok (code, pool, note) ∧
        listing.Replaced before first segment after code result := by
  obtain ⟨start, hnext, hseg⟩ := cut.next_segment hlast distinct
  -- the listing after the first line is replaced, from which the segment is then deleted
  have hset : ∀ code : Instruction Handle, ∃ mid, mid.Distinct ∧
      listing.set first.handle code = .ok (first.instruction, mid) ∧
      mid.Segment (before ++ [⟨first.handle, code, false⟩]) segment after start last ∧
      mid = { listing with
        lines := (before ++ ⟨first.handle, code, false⟩ :: (segment ++ after)).toArray
        laidOut := false } := by
    intro code
    refine ⟨_, ?_, cut.set_eq distinct code, ⟨by simp, hseg.head_eq, hlast⟩, rfl⟩
    have hd := distinct
    rw [Distinct, handles, show listing.lines.toList = _ from cut] at hd
    rw [Distinct, handles]
    simpa using hd
  have hfirst : first.handle ∉ segment.map (·.handle) :=
    hseg.handle_not_mem distinct (by simp)
  simp only [replaceSegment, hnext, hseg.range_eq distinct, Outcome.ok_bind]
  constructor
  · intro h
    cases he : listing.externalReferrer? (segment.map (·.handle)) with
    | some found =>
      simp only [he] at h
      cases h
    | none =>
      simp only [he] at h
      obtain ⟨⟨code, pool', note'⟩, hr, h⟩ := Outcome.bind_eq_ok.mp h
      obtain ⟨mid, hdistinct, hmid, hsegment, heq⟩ := hset code
      rw [hmid, Outcome.ok_bind] at h
      obtain ⟨result', hdel, h⟩ := Outcome.bind_eq_ok.mp h
      cases h
      have hunref := hsegment.unreferenced_of_deleteRange hdistinct hdel
      refine ⟨code, hr, cut, distinct, externalReferrer?_eq_none.mp he, ?_, ?_⟩
      · exact hunref.lines ⟨first.handle, code, false⟩ (by simp [heq]) hfirst
      · rw [hsegment.deleteRange_of_unreferenced hdistinct hunref] at hdel
        cases hdel
        simp [heq]
  · rintro ⟨code, rfl, hreplaced⟩
    obtain ⟨mid, hdistinct, hmid, hsegment, heq⟩ := hset code
    have hunref : mid.Unreferenced (segment.map (·.handle)) := by
      refine ⟨by rw [heq]; exact hreplaced.unreferenced.handlers, ?_⟩
      intro line hm hout
      simp only [heq, List.mem_append, List.mem_cons] at hm
      have hold : line ∈ before ∨ line ∈ segment ∨ line ∈ after →
          ∀ target ∈ line.instruction.targets, target ∉ segment.map (·.handle) := by
        intro hm
        refine hreplaced.unreferenced.lines line ?_ hout
        rw [show listing.lines.toList = _ from cut]
        simp only [List.mem_append, List.mem_cons]
        tauto
      rcases hm with hm | rfl | hm | hm
      · exact hold (.inl hm)
      · exact hreplaced.targets
      · exact hold (.inr (.inl hm))
      · exact hold (.inr (.inr hm))
    simp only [externalReferrer?_eq_none.mpr hreplaced.unreferenced, Outcome.ok_bind, hmid,
      hsegment.deleteRange_of_unreferenced hdistinct hunref, Outcome.pure_eq_ok,
      hreplaced.result_eq]
    simp [heq]

open Listing in
/-- What becomes of a replacement by an instruction without targets. -/
theorem replaceSegment_cases {listing : Listing} {before segment after : List Line}
    {first last : Line} {replacement : Except Error (Instruction Handle × ConstantPool × String)}
    (cut : listing.Cut before first (segment ++ after)) (hlast : segment.getLast? = some last)
    (distinct : listing.Distinct)
    (targets : ∀ code pool note, replacement = .ok (code, pool, note) → code.targets = []) :
    (¬ listing.Unreferenced (segment.map (·.handle)) ∧ ∃ reason,
      replaceSegment listing first.handle last.handle replacement = .ok (.skipped reason)) ∨
    (listing.Unreferenced (segment.map (·.handle)) ∧
      ((∃ e, replacement = .error e ∧
          replaceSegment listing first.handle last.handle replacement = .error e) ∨
        ∃ result pool note, replaceSegment listing first.handle last.handle replacement =
          .ok (.folded result pool note))) := by
  obtain ⟨start, hnext, hseg⟩ := cut.next_segment hlast distinct
  by_cases hfree : listing.Unreferenced (segment.map (·.handle))
  · refine .inr ⟨hfree, ?_⟩
    match hr : replacement with
    | .error e =>
      refine .inl ⟨e, rfl, ?_⟩
      simp only [replaceSegment, hnext, hseg.range_eq distinct,
        externalReferrer?_eq_none.mpr hfree, Outcome.ok_bind, Outcome.error_bind]
    | .ok (code, pool, note) =>
      refine .inr ⟨_, pool, note, (replaceSegment_eq_folded cut hlast distinct).mpr
        ⟨code, rfl, cut, distinct, hfree, ?_, rfl⟩⟩
      rw [targets code pool note rfl]
      simp
  · refine .inl ⟨hfree, ?_⟩
    cases he : listing.externalReferrer? (segment.map (·.handle)) with
    | none => exact absurd (externalReferrer?_eq_none.mp he) hfree
    | some found =>
      simp only [replaceSegment, hnext, hseg.range_eq distinct, he, Outcome.ok_bind]
      exact ⟨_, rfl⟩

end BytecodeFold
