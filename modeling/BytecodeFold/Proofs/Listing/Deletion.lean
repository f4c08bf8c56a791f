import BytecodeFold.Proofs.Listing.Renaming
import BytecodeFold.Proofs.Listing.Sequence

/-!
# When a deletion is refused

Lines can be deleted if nothing that stays refers to one of them: no exception handler, and no
instruction outside. That is the only condition besides that the range is one. So a deletion leaves
no reference to a line that is gone, and one that is refused names such a reference.
-/

namespace BytecodeFold

namespace Listing

variable {listing result : Listing} {before segment after : List Line} {first last : Line}
  {start stop handle target : Handle} {referrer : Referrer}

/-! ## Order in the stream -/

/-- Both handles are in the stream, the second at the place of the first or behind it. -/
def AtOrBefore (listing : Listing) (first second : Handle) : Prop :=
  ∃ i j : Nat, i ≤ j ∧ listing.handles[i]? = some first ∧ listing.handles[j]? = some second

/-- The handle is one of those from `start` through `stop`. -/
def Within (listing : Listing) (start stop handle : Handle) : Prop :=
  listing.AtOrBefore start handle ∧ listing.AtOrBefore handle stop

theorem index_unique (distinct : listing.Distinct) {i j : Nat}
    (hi : listing.handles[i]? = some handle) (hj : listing.handles[j]? = some handle) : i = j :=
  (List.getElem?_inj (List.getElem?_eq_some_iff.mp hi).1 distinct).mp (hi.trans hj.symm)

theorem AtOrBefore.live (h : listing.AtOrBefore start stop) :
    start ∈ listing.handles ∧ stop ∈ listing.handles := by
  obtain ⟨i, j, -, hi, hj⟩ := h
  exact ⟨List.mem_of_getElem? hi, List.mem_of_getElem? hj⟩

theorem Cut.getElem?_handles {line : Line} (cut : listing.Cut before line after) :
    listing.handles[before.length]? = some line.handle := by
  rw [cut.handles_eq]
  simp

namespace Segment

theorem atOrBefore (h : listing.Segment before segment after first last) :
    listing.AtOrBefore first.handle last.handle := by
  obtain ⟨more, hmore, cutFirst⟩ := h.cut_first
  obtain ⟨init, hinit, cutLast⟩ := h.cut_last
  refine ⟨_, _, ?_, cutFirst.getElem?_handles, cutLast.getElem?_handles⟩
  simp

/-- The handles of a segment are those from its first through its last. -/
theorem within_iff (h : listing.Segment before segment after first last)
    (distinct : listing.Distinct) :
    listing.Within first.handle last.handle handle ↔ handle ∈ segment.map (·.handle) := by
  obtain ⟨more, hmore, cutFirst⟩ := h.cut_first
  obtain ⟨init, hinit, cutLast⟩ := h.cut_last
  have hhandles : listing.handles = before.map (·.handle) ++ segment.map (·.handle) ++
      after.map (·.handle) := by
    rw [handles, h.lines_eq]
    simp
  have hlength : (segment.map (·.handle)).length = init.length + 1 := by
    simp [hinit]
  constructor
  · rintro ⟨⟨i, k, hik, hi, hk⟩, k', j, hkj, hk', hj⟩
    have hplace : before.length = i := index_unique distinct cutFirst.getElem?_handles hi
    have hend : (before ++ init).length = j := index_unique distinct cutLast.getElem?_handles hj
    have hsame : k = k' := index_unique distinct hk hk'
    rw [List.length_append] at hend
    rw [hhandles, List.append_assoc, List.getElem?_append_right (by rw [List.length_map]; omega),
      List.length_map, List.getElem?_append_left (by omega)] at hk
    exact List.mem_of_getElem? hk
  · intro hm
    obtain ⟨k, hlt, hk⟩ := List.mem_iff_getElem.mp hm
    have hat : listing.handles[before.length + k]? = some handle := by
      rw [hhandles, List.append_assoc, List.getElem?_append_right (by rw [List.length_map]; omega),
        List.length_map, Nat.add_sub_cancel_left, List.getElem?_append_left hlt,
        List.getElem?_eq_getElem hlt, hk]
    refine ⟨⟨_, _, ?_, cutFirst.getElem?_handles, hat⟩, _, _, ?_, hat, cutLast.getElem?_handles⟩
    · omega
    · rw [List.length_append]
      omega

end Segment

/-- A handle in front of another is not at or behind it. -/
theorem Cut.not_atOrBefore {line : Line} (cut : listing.Cut before line after)
    (distinct : listing.Distinct) (hstop : stop ∈ before.map (·.handle)) :
    ¬ listing.AtOrBefore line.handle stop := by
  rintro ⟨i, j, hij, hi, hj⟩
  have hplace : before.length = i := index_unique distinct cut.getElem?_handles hi
  obtain ⟨k, hlt, hk⟩ := List.mem_iff_getElem.mp hstop
  have hat : listing.handles[k]? = some stop := by
    rw [cut.handles_eq, List.getElem?_append_left hlt, List.getElem?_eq_getElem hlt, hk]
  have hsame : k = j := index_unique distinct hat hj
  rw [List.length_map] at hlt
  omega

/-! ## References from outside -/

theorem mem_referrers_instruction {line : Line} (hline : line ∈ listing.lines.toList)
    (htarget : target ∈ line.instruction.targets) :
    Referrer.instruction line.handle ∈ listing.referrers target := by
  refine List.mem_append_left _ (List.mem_map.mpr ⟨line, List.mem_filter.mpr ⟨hline, ?_⟩, rfl⟩)
  exact Instruction.branchesTo_eq_true.mpr htarget

theorem mem_referrers_handler {entry : ExceptionHandler} {index : Nat}
    (hentry : (entry, index) ∈ listing.handlers.toList.zipIdx)
    (href : entry.refersTo target = true) :
    Referrer.exceptionHandler index ∈ listing.referrers target :=
  List.mem_append_right _
    (List.mem_map.mpr ⟨(entry, index), List.mem_filter.mpr ⟨hentry, href⟩, rfl⟩)

/-- What is reported as referring into a list of handles refers to the reported one of them, from
outside. -/
theorem externalReferrer?_eq_some {handles : List Handle}
    (h : listing.externalReferrer? handles = some (target, referrer)) :
    target ∈ handles ∧ referrer ∈ listing.referrers target ∧
      ∀ source, referrer = .instruction source → source ∉ handles := by
  simp only [externalReferrer?, Option.orElse_eq_orElse, Option.orElse_eq_or,
    Option.or_eq_some_iff] at h
  rcases h with h | ⟨-, h⟩
  · obtain ⟨⟨entry, index⟩, hentry, hfound⟩ := List.exists_of_findSome?_eq_some h
    obtain ⟨found, hfind, heq⟩ := Option.map_eq_some_iff.mp hfound
    cases heq
    refine ⟨List.mem_of_find?_eq_some hfind,
      mem_referrers_handler hentry (List.find?_some hfind), ?_⟩
    intro source hsource
    cases hsource
  · rw [← Array.findSome?_toList] at h
    obtain ⟨line, hline, hfound⟩ := List.exists_of_findSome?_eq_some h
    simp only [Std.HashSet.contains_ofList, List.contains_eq_mem, decide_eq_true_eq] at hfound
    split at hfound
    · cases hfound
    case isFalse houtside =>
      obtain ⟨found, hfind, heq⟩ := Option.map_eq_some_iff.mp hfound
      cases heq
      have hinside := List.find?_some hfind
      refine ⟨by simpa using hinside,
        mem_referrers_instruction hline (List.mem_of_find?_eq_some hfind), ?_⟩
      intro source hsource
      cases hsource
      exact houtside

/-- Nothing that stays refers to one of the instructions from `start` through `stop`: neither an
exception handler nor an instruction outside. -/
structure OrphansNothing (listing : Listing) (start stop : Handle) : Prop where
  handlers : ∀ entry ∈ listing.handlers.toList, ¬ listing.Within start stop entry.start ∧
    (∀ handle ∈ entry.stop, ¬ listing.Within start stop handle) ∧
    ¬ listing.Within start stop entry.handler
  branches : ∀ line ∈ listing.lines.toList, ∀ target, line.instruction.branchesTo target = true →
    listing.Within start stop target → listing.Within start stop line.handle

theorem Segment.orphansNothing_iff (h : listing.Segment before segment after first last)
    (distinct : listing.Distinct) : listing.OrphansNothing first.handle last.handle ↔
      listing.Unreferenced (segment.map (·.handle)) := by
  constructor
  · rintro ⟨handlers, branches⟩
    refine ⟨fun entry hentry handle hhandle hm => ?_, fun line hline hout target htarget hm => ?_⟩
    · obtain ⟨hstart, hstop, hhandler⟩ := handlers entry hentry
      have hwithin := (h.within_iff distinct).mpr hm
      simp only [ExceptionHandler.handles, List.cons_append, List.mem_cons, List.mem_append,
        Option.mem_toList, List.not_mem_nil, or_false] at hhandle
      rcases hhandle with rfl | hhandle | rfl
      · exact hstart hwithin
      · exact hstop handle hhandle hwithin
      · exact hhandler hwithin
    · refine hout ((h.within_iff distinct).mp (branches line hline target ?_ ?_))
      · exact Instruction.branchesTo_eq_true.mpr htarget
      · exact (h.within_iff distinct).mpr hm
  · rintro ⟨handlers, lines⟩
    refine ⟨fun entry hentry => ?_, fun line hline target hbranch hwithin => ?_⟩
    · have hout : ∀ handle ∈ entry.handles, ¬ listing.Within first.handle last.handle handle :=
        fun handle hhandle hwithin =>
          handlers entry hentry handle hhandle ((h.within_iff distinct).mp hwithin)
      refine ⟨hout _ ?_, fun handle hstop => hout _ ?_, hout _ ?_⟩ <;>
        simp [ExceptionHandler.handles]
      exact .inr (.inl hstop)
    · rw [h.within_iff distinct] at hwithin ⊢
      by_contra hout
      exact lines line hline hout target (Instruction.branchesTo_eq_true.mp hbranch) hwithin

/-- After the deletion of lines that nothing outside refers to, what is referred to is still
there. -/
theorem Segment.closed_of_unreferenced (h : listing.Segment before segment after first last)
    (distinct : listing.Distinct) (unreferenced : listing.Unreferenced (segment.map (·.handle)))
    (closed : ∀ handle, listing.Mentions handle → handle ∈ listing.handles)
    (lines_eq : result.lines.toList = before ++ after)
    (handlers_eq : result.handlers = listing.handlers) :
    ∀ handle, result.Mentions handle → handle ∈ result.handles := by
  have hstays : ∀ handle, listing.Mentions handle → handle ∉ segment.map (·.handle) →
      handle ∈ result.handles := by
    intro handle hmentions hout
    have hlive := closed handle hmentions
    rw [handles, h.lines_eq, List.map_append, List.map_append, List.mem_append,
      List.mem_append] at hlive
    rw [handles, lines_eq, List.map_append, List.mem_append]
    tauto
  have hkept : ∀ line ∈ result.lines.toList, line ∈ listing.lines.toList ∧
      line.handle ∉ segment.map (·.handle) := by
    intro line hm
    rw [lines_eq] at hm
    refine ⟨?_, h.handle_not_mem distinct hm⟩
    rw [h.lines_eq, List.mem_append, List.mem_append]
    rw [List.mem_append] at hm
    tauto
  intro handle hmentions
  cases hmentions with
  | line mem => exact List.mem_map_of_mem mem
  | target mem targets =>
    obtain ⟨hold, hout⟩ := hkept _ mem
    exact hstays handle (.target hold targets) (unreferenced.lines _ hold hout handle targets)
  | handler mem handles =>
    rw [handlers_eq] at mem
    exact hstays handle (.handler mem handles) (unreferenced.handlers _ mem handle handles)

/-! ## Deletions -/

/-- What deleting the lines from one handle through another comes to. -/
inductive Deletion (listing : Listing) : Handle → Handle → Except Error Listing → Prop where
  | removed {before segment after : List Line} {first last : Line}
      (h : listing.Segment before segment after first last)
      (free : listing.Unreferenced (segment.map (·.handle))) :
      Deletion listing first.handle last.handle
        (.ok { listing with lines := (before ++ after).toArray, laidOut := false })
  | referenced {before segment after : List Line} {first last : Line} {target : Handle}
      {referrer : Referrer} (h : listing.Segment before segment after first last)
      (found : listing.externalReferrer? (segment.map (·.handle)) = some (target, referrer)) :
      Deletion listing first.handle last.handle (.error (.danglingTarget target referrer))
  | unranged {start stop : Handle} {e : Error} (h : ¬ listing.AtOrBefore start stop)
      (kind : ∀ target referrer, e ≠ .danglingTarget target referrer) :
      Deletion listing start stop (.error e)

theorem deleteRange_cases (distinct : listing.Distinct) (start stop : Handle) :
    listing.Deletion start stop (listing.deleteRange start stop) := by
  cases hlive : listing.firstMissing? [start, stop] with
  | some missing =>
    obtain ⟨hasked, hdead⟩ := firstMissing?_eq_some hlive
    simp only [deleteRange, range, hlive, Outcome.error_bind]
    refine .unranged (fun h => ?_) (by simp)
    rcases List.mem_pair.mp hasked with rfl | rfl
    · exact hdead h.live.1
    · exact hdead h.live.2
  | none =>
    have hmem := live_of_firstMissing?_eq_none hlive
    rcases segment_or_precedes (hmem start (by simp)) (hmem stop (by simp)) with
      ⟨before, segment, after, first, last, hseg, rfl, rfl⟩ | ⟨before, line, after, cut, rfl, hstop⟩
    · cases hfound : listing.externalReferrer? (segment.map (·.handle)) with
      | none =>
        have hfree := externalReferrer?_eq_none.mp hfound
        rw [hseg.deleteRange_of_unreferenced distinct hfree]
        exact .removed hseg hfree
      | some reference =>
        simp only [deleteRange, hseg.range_eq distinct, Outcome.ok_bind, hfound,
          Outcome.throw_eq_error, Outcome.error_bind]
        exact .referenced hseg hfound
    · rw [deleteRange, cut.range_reversed distinct hstop, Outcome.error_bind]
      exact .unranged (cut.not_atOrBefore distinct hstop) (by simp)

theorem deleteRange_eq_ok_iff (distinct : listing.Distinct) :
    (∃ result, listing.deleteRange start stop = .ok result) ↔
      listing.AtOrBefore start stop ∧ listing.OrphansNothing start stop := by
  have hcases := deleteRange_cases distinct start stop
  generalize listing.deleteRange start stop = outcome at hcases
  cases hcases with
  | removed h free =>
    exact ⟨fun _ => ⟨h.atOrBefore, (h.orphansNothing_iff distinct).mpr free⟩, fun _ => ⟨_, rfl⟩⟩
  | referenced h found =>
    constructor
    · rintro ⟨result, hresult⟩
      cases hresult
    · rintro ⟨-, horphans⟩
      rw [h.orphansNothing_iff distinct, ← externalReferrer?_eq_none, found] at horphans
      cases horphans
  | unranged h =>
    constructor
    · rintro ⟨result, hresult⟩
      cases hresult
    · exact fun hrange => absurd hrange.1 h

/-- The lines of the range are gone and all others are there. -/
theorem mem_lines_of_deleteRange (distinct : listing.Distinct)
    (h : listing.deleteRange start stop = .ok result) (line : Line) :
    line ∈ result.lines.toList ↔
      line ∈ listing.lines.toList ∧ ¬ listing.Within start stop line.handle := by
  have hcases := deleteRange_cases distinct start stop
  rw [h] at hcases
  cases hcases with
  | removed hseg free =>
    rw [hseg.within_iff distinct, hseg.lines_eq]
    simp only [List.mem_append]
    constructor
    · intro hm
      exact ⟨by tauto, hseg.handle_not_mem distinct (List.mem_append.mpr hm)⟩
    · rintro ⟨hm, hout⟩
      have hnot : line ∉ _ := fun hin => hout (List.mem_map_of_mem hin)
      tauto

theorem closed_of_deleteRange (distinct : listing.Distinct)
    (h : listing.deleteRange start stop = .ok result)
    (closed : ∀ handle, listing.Mentions handle → handle ∈ listing.handles) :
    ∀ handle, result.Mentions handle → handle ∈ result.handles := by
  have hcases := deleteRange_cases distinct start stop
  rw [h] at hcases
  cases hcases with
  | removed hseg free => exact hseg.closed_of_unreferenced distinct free closed rfl rfl

theorem apply_deleteRange_of_error {e : Error}
    (h : (listing.apply (.deleteRange start stop)).1 = .error e) :
    (listing.apply (.deleteRange start stop)).2 = listing := by
  cases hdelete : listing.deleteRange start stop with
  | error e => simp only [apply, hdelete, Outcome.error_bind, settle]
  | ok result =>
    simp only [apply, hdelete, Outcome.ok_bind, Outcome.pure_eq_ok, settle] at h
    cases h

theorem deleteRange_eq_dangling (distinct : listing.Distinct)
    (h : listing.deleteRange start stop = .error (.danglingTarget target referrer)) :
    listing.Within start stop target ∧ referrer ∈ listing.referrers target ∧
      ∀ source, referrer = .instruction source → ¬ listing.Within start stop source := by
  have hcases := deleteRange_cases distinct start stop
  rw [h] at hcases
  cases hcases with
  | referenced hseg found =>
    obtain ⟨htarget, hreferrer, hout⟩ := externalReferrer?_eq_some found
    simp only [hseg.within_iff distinct]
    exact ⟨htarget, hreferrer, hout⟩
  | unranged _ kind => exact absurd rfl (kind target referrer)

/-- A deletion succeeds exactly if the range is one and nothing that stays refers into it. Then the
lines of the range are gone, and nothing refers to a line that is gone if nothing did before. A
deletion that fails changes nothing, and one that is refused for a reference names one that is
there: from outside, to a line of the range. -/
theorem deleteRange_iff_orphansNothing (distinct : listing.Distinct) (start stop : Handle) :
    ((∃ result, listing.deleteRange start stop = .ok result) ↔
      listing.AtOrBefore start stop ∧ listing.OrphansNothing start stop) ∧
    (∀ result, listing.deleteRange start stop = .ok result →
      (∀ line, line ∈ result.lines.toList ↔
        line ∈ listing.lines.toList ∧ ¬ listing.Within start stop line.handle) ∧
      ((∀ handle, listing.Mentions handle → handle ∈ listing.handles) →
        ∀ handle, result.Mentions handle → handle ∈ result.handles)) ∧
    (∀ e, (listing.apply (.deleteRange start stop)).1 = .error e →
      (listing.apply (.deleteRange start stop)).2 = listing) ∧
    ∀ target referrer, listing.deleteRange start stop = .error (.danglingTarget target referrer) →
      listing.Within start stop target ∧ referrer ∈ listing.referrers target ∧
        ∀ source, referrer = .instruction source → ¬ listing.Within start stop source :=
  ⟨deleteRange_eq_ok_iff distinct,
    fun _ h => ⟨mem_lines_of_deleteRange distinct h, closed_of_deleteRange distinct h⟩,
    fun _ => apply_deleteRange_of_error, fun _ _ => deleteRange_eq_dangling distinct⟩

/-- A switch over two lines, and an exception handler behind them. -/
def selecting : Listing where
  lines := #[⟨⟨0⟩, .load 1 .int, false⟩, ⟨⟨1⟩, .switch .lookup ⟨3⟩ [(7, ⟨2⟩)], false⟩,
    ⟨⟨2⟩, .increment 1 1, false⟩, ⟨⟨3⟩, .increment 1 2, false⟩, ⟨⟨4⟩, .jump ⟨0⟩, false⟩]
  fresh := 5
  handlers := #[⟨⟨0⟩, none, ⟨4⟩, 0⟩]
  laidOut := false

/-- The switch keeps the lines it goes to, but they can be deleted together with it. -/
theorem deleteRange_iff_orphansNothing_selecting :
    (∃ result, selecting.deleteRange ⟨1⟩ ⟨3⟩ = .ok result ∧
      ∀ handle, result.Mentions handle → handle ∈ result.handles) ∧
    selecting.deleteRange ⟨2⟩ ⟨3⟩ = .error (.danglingTarget ⟨3⟩ (.instruction ⟨1⟩)) ∧
    ¬ selecting.OrphansNothing ⟨2⟩ ⟨3⟩ ∧
    .instruction ⟨1⟩ ∈ selecting.referrers ⟨3⟩ ∧ ¬ selecting.Within ⟨2⟩ ⟨3⟩ ⟨1⟩ := by
  have distinct : selecting.Distinct := by unfold Distinct; decide
  have hclosed : ∀ handle, selecting.Mentions handle → handle ∈ selecting.handles := by
    have htargets : ∀ line ∈ selecting.lines.toList, ∀ target ∈ line.instruction.targets,
        target ∈ selecting.handles := by decide
    have hhandlers : ∀ entry ∈ selecting.handlers.toList, ∀ handle ∈ entry.handles,
        handle ∈ selecting.handles := by decide
    intro handle hmentions
    cases hmentions with
    | line mem => exact List.mem_map_of_mem mem
    | target mem targets => exact htargets _ mem handle targets
    | handler mem handles => exact hhandlers _ mem handle handles
  have hdeleted : ∃ result, selecting.deleteRange ⟨1⟩ ⟨3⟩ = .ok result := by
    have hsegment : selecting.Segment [⟨⟨0⟩, .load 1 .int, false⟩]
        [⟨⟨1⟩, .switch .lookup ⟨3⟩ [(7, ⟨2⟩)], false⟩, ⟨⟨2⟩, .increment 1 1, false⟩,
          ⟨⟨3⟩, .increment 1 2, false⟩] [⟨⟨4⟩, .jump ⟨0⟩, false⟩]
        ⟨⟨1⟩, .switch .lookup ⟨3⟩ [(7, ⟨2⟩)], false⟩ ⟨⟨3⟩, .increment 1 2, false⟩ := ⟨rfl, rfl, rfl⟩
    exact ⟨_, hsegment.deleteRange_of_unreferenced distinct ⟨by decide, by decide⟩⟩
  have hrefused : selecting.deleteRange ⟨2⟩ ⟨3⟩ =
      .error (.danglingTarget ⟨3⟩ (.instruction ⟨1⟩)) := by
    have hrange : selecting.range ⟨2⟩ ⟨3⟩ = .ok [⟨2⟩, ⟨3⟩] := by decide +kernel
    have hfound : selecting.externalReferrer? [⟨2⟩, ⟨3⟩] = some (⟨3⟩, .instruction ⟨1⟩) := by
      simp [externalReferrer?, selecting, ExceptionHandler.handles, Instruction.targets]
    simp only [deleteRange, hrange, Outcome.ok_bind, hfound, Outcome.throw_eq_error,
      Outcome.error_bind]
  obtain ⟨result, hresult⟩ := hdeleted
  have hkept := (deleteRange_iff_orphansNothing distinct ⟨1⟩ ⟨3⟩).2.1 result hresult
  obtain ⟨hiff, -, -, hdangling⟩ := deleteRange_iff_orphansNothing distinct ⟨2⟩ ⟨3⟩
  obtain ⟨-, hreferrer, hout⟩ := hdangling _ _ hrefused
  refine ⟨⟨result, hresult, hkept.2 hclosed⟩, hrefused, fun horphans => ?_, hreferrer, hout _ rfl⟩
  obtain ⟨other, hother⟩ := hiff.mpr ⟨⟨2, 3, by decide, rfl, rfl⟩, horphans⟩
  cases hrefused.symm.trans hother

end Listing

end BytecodeFold
