import BytecodeFold.Proofs.Codec.RoundTrip
import BytecodeFold.Proofs.Listing.Edit
import Mathlib.Data.List.TakeWhile

/-!
# A listing is a plain sequence

What a call does to a listing is what it would do to a plain sequence of instructions under their
handles, with the exception handlers beside it.
-/

namespace BytecodeFold

/-! ## Calls -/

/-- A call that may change a listing. -/
inductive Operation where
  | append (code : Instruction Handle)
  | insertBefore (handle : Handle) (code : Instruction Handle)
  | insertAfter (handle : Handle) (code : Instruction Handle)
  | set (handle : Handle) (code : Instruction Handle)
  | delete (handle : Handle)
  | deleteRange (start stop : Handle)
  | addHandler (entry : ExceptionHandler)
  | layout

/-- What a call gives back. -/
inductive Answer where
  | inserted (handle : Handle)
  | replaced (old : Instruction Handle)
  | length (length : Nat)
  | done

/-- The handle that a call has given out, if it has given one out. -/
def Answer.issued : Except Error Answer → List Handle
  | .ok (.inserted handle) => [handle]
  | _ => []

namespace Listing

/-- The outcome of an edit, which changes nothing if it fails. -/
def settle (listing : Listing) : Except Error (Answer × Listing) → Except Error Answer × Listing
  | .ok (answer, result) => (.ok answer, result)
  | .error e => (.error e, listing)

/-- Makes a call on a listing: what it gives back, and the listing after it. -/
def apply (listing : Listing) : Operation → Except Error Answer × Listing
  | .append code =>
    let (handle, result) := listing.append code
    (.ok (.inserted handle), result)
  | .insertBefore handle code => listing.settle do
    let (handle, result) ← listing.insertBefore handle code
    return (.inserted handle, result)
  | .insertAfter handle code => listing.settle do
    let (handle, result) ← listing.insertAfter handle code
    return (.inserted handle, result)
  | .set handle code => listing.settle do
    let (old, result) ← listing.set handle code
    return (.replaced old, result)
  | .delete handle => listing.settle do
    return (.done, ← listing.delete handle)
  | .deleteRange start stop => listing.settle do
    return (.done, ← listing.deleteRange start stop)
  | .addHandler entry => listing.settle do
    return (.done, ← listing.addHandler entry)
  | .layout =>
    match listing.layout with
    | (.ok length, result) => (.ok (.length length), result)
    | (.error e, result) => (.error e, result)

end Listing

/-! ## Plain sequences -/

/-- Instructions under their handles, and exception handlers. -/
structure Sequence where
  pairs : List (Handle × Instruction Handle)
  handlers : List ExceptionHandler

def Line.pair (line : Line) : Handle × Instruction Handle := (line.handle, line.instruction)

def Listing.sequence (listing : Listing) : Sequence where
  pairs := listing.lines.toList.map Line.pair
  handlers := listing.handlers.toList

namespace Sequence

def handles (sequence : Sequence) : List Handle := sequence.pairs.map (·.1)

/-- The sequence is `before`, then the pairs from `start` through `stop`, then `after`. -/
structure Stretch (sequence : Sequence) (start stop : Handle)
    (before segment after : List (Handle × Instruction Handle)) : Prop where
  pairs_eq : sequence.pairs = before ++ segment ++ after
  first : segment.head?.map (·.1) = some start
  last : segment.getLast?.map (·.1) = some stop

def Precedes (sequence : Sequence) (first second : Handle) : Prop :=
  ∃ before between after, sequence.handles = before ++ first :: (between ++ second :: after)

/-- Something outside a list of handles refers to one of them. An exception handler is always
outside. -/
def RefersInto (sequence : Sequence) (segment : List Handle) : Prop :=
  (∃ entry ∈ sequence.handlers, ∃ handle ∈ entry.handles, handle ∈ segment) ∨
    ∃ pair ∈ sequence.pairs, pair.1 ∉ segment ∧ ∃ target ∈ pair.2.targets, target ∈ segment

/-- What asking for a range gives. -/
inductive Range (sequence : Sequence) (start stop : Handle) :
    Except Error (List Handle) → Prop where
  | stretch {before segment after : List (Handle × Instruction Handle)}
      (h : sequence.Stretch start stop before segment after) :
      Range sequence start stop (.ok (segment.map (·.1)))
  | missing {handle : Handle} (asked : handle ∈ [start, stop]) (dead : handle ∉ sequence.handles) :
      Range sequence start stop (.error (.invalidHandle handle))
  | reversed {text : String} (h : sequence.Precedes stop start) :
      Range sequence start stop (.error (.invalidOperand text))

/-- What deleting a range gives. -/
inductive Deletes (sequence : Sequence) (start stop : Handle) :
    Except Error Answer → Sequence → Prop where
  | deleted {before segment after : List (Handle × Instruction Handle)}
      (h : sequence.Stretch start stop before segment after)
      (free : ¬ sequence.RefersInto (segment.map (·.1))) :
      Deletes sequence start stop (.ok .done) ⟨before ++ after, sequence.handlers⟩
  | referenced {before segment after : List (Handle × Instruction Handle)} {target : Handle}
      {referrer : Referrer} (h : sequence.Stretch start stop before segment after)
      (held : sequence.RefersInto (segment.map (·.1))) :
      Deletes sequence start stop (.error (.danglingTarget target referrer)) sequence
  | unranged {e : Error} (h : sequence.Range start stop (.error e)) :
      Deletes sequence start stop (.error e) sequence

/-- What a call does to a plain sequence, when some handles were given out before. A call that
fails leaves it as it was. -/
inductive Step (sequence : Sequence) (issued : List Handle) :
    Operation → Except Error Answer → Sequence → Prop where
  | append {code : Instruction Handle} {fresh : Handle} (new : fresh ∉ issued) :
      Step sequence issued (.append code) (.ok (.inserted fresh))
        ⟨sequence.pairs ++ [(fresh, code)], sequence.handlers⟩
  | insertBefore {handle fresh : Handle} {code old : Instruction Handle}
      {before after : List (Handle × Instruction Handle)} (new : fresh ∉ issued)
      (h : sequence.pairs = before ++ (handle, old) :: after) :
      Step sequence issued (.insertBefore handle code) (.ok (.inserted fresh))
        ⟨before ++ (fresh, code) :: (handle, old) :: after, sequence.handlers⟩
  | insertAfter {handle fresh : Handle} {code old : Instruction Handle}
      {before after : List (Handle × Instruction Handle)} (new : fresh ∉ issued)
      (h : sequence.pairs = before ++ (handle, old) :: after) :
      Step sequence issued (.insertAfter handle code) (.ok (.inserted fresh))
        ⟨before ++ (handle, old) :: (fresh, code) :: after, sequence.handlers⟩
  | set {handle : Handle} {code old : Instruction Handle}
      {before after : List (Handle × Instruction Handle)}
      (h : sequence.pairs = before ++ (handle, old) :: after) :
      Step sequence issued (.set handle code) (.ok (.replaced old))
        ⟨before ++ (handle, code) :: after, sequence.handlers⟩
  | delete {handle : Handle} {answer : Except Error Answer} {result : Sequence}
      (h : sequence.Deletes handle handle answer result) :
      Step sequence issued (.delete handle) answer result
  | deleteRange {start stop : Handle} {answer : Except Error Answer} {result : Sequence}
      (h : sequence.Deletes start stop answer result) :
      Step sequence issued (.deleteRange start stop) answer result
  | addHandler {entry : ExceptionHandler}
      (live : ∀ handle ∈ entry.handles, handle ∈ sequence.handles) :
      Step sequence issued (.addHandler entry) (.ok .done)
        ⟨sequence.pairs, sequence.handlers ++ [entry]⟩
  | layout {length : Nat} : Step sequence issued .layout (.ok (.length length)) sequence
  | layoutFailed {e : Error} : Step sequence issued .layout (.error e) sequence
  | insertBeforeDead {handle : Handle} {code : Instruction Handle}
      (dead : handle ∉ sequence.handles) :
      Step sequence issued (.insertBefore handle code) (.error (.invalidHandle handle)) sequence
  | insertAfterDead {handle : Handle} {code : Instruction Handle}
      (dead : handle ∉ sequence.handles) :
      Step sequence issued (.insertAfter handle code) (.error (.invalidHandle handle)) sequence
  | setDead {handle : Handle} {code : Instruction Handle} (dead : handle ∉ sequence.handles) :
      Step sequence issued (.set handle code) (.error (.invalidHandle handle)) sequence
  | addHandlerDead {entry : ExceptionHandler} {handle : Handle} (mem : handle ∈ entry.handles)
      (dead : handle ∉ sequence.handles) :
      Step sequence issued (.addHandler entry) (.error (.invalidHandle handle)) sequence

end Sequence

namespace Listing

variable {listing : Listing} {before after : List Line} {line : Line} {start stop : Handle}

theorem handles_sequence (listing : Listing) : listing.sequence.handles = listing.handles := by
  rw [Sequence.handles, sequence, List.map_map]
  rfl

theorem Cut.pairs_eq (cut : listing.Cut before line after) :
    listing.sequence.pairs =
      before.map Line.pair ++ (line.handle, line.instruction) :: after.map Line.pair := by
  rw [sequence, show listing.lines.toList = _ from cut, List.map_append, List.map_cons]
  rfl

/-! ## Ranges -/

theorem Segment.stretch {segment : List Line} {first last : Line}
    (h : listing.Segment before segment after first last) :
    listing.sequence.Stretch first.handle last.handle (before.map Line.pair)
      (segment.map Line.pair) (after.map Line.pair) where
  pairs_eq := by rw [sequence, h.lines_eq, List.map_append, List.map_append]
  first := by rw [List.head?_map, h.head_eq]; rfl
  last := by rw [List.getLast?_map, h.last_eq]; rfl

theorem map_fst_pair (lines : List Line) :
    (lines.map Line.pair).map (·.1) = lines.map (·.handle) := by
  rw [List.map_map]
  rfl

/-- Of two live handles, either the lines from the first through the second are a segment, or the
second stands in front of the first. -/
theorem segment_or_precedes (hstart : start ∈ listing.handles) (hstop : stop ∈ listing.handles) :
    (∃ before segment after first last, listing.Segment before segment after first last ∧
      first.handle = start ∧ last.handle = stop) ∨
    ∃ before line after, listing.Cut before line after ∧ line.handle = start ∧
      stop ∈ before.map (·.handle) := by
  obtain ⟨before, first, after, cut, rfl⟩ := exists_cut hstart
  have hmem := hstop
  rw [cut.handles_eq, List.mem_append] at hmem
  rcases hmem with hm | hm
  · exact .inr ⟨before, first, after, cut, rfl, hm⟩
  · obtain ⟨last, hlast, rfl⟩ : ∃ last ∈ first :: after, last.handle = stop :=
      List.mem_map.mp (by simpa using hm)
    obtain ⟨init, rest, hsplit⟩ := List.append_of_mem hlast
    refine .inl ⟨before, init ++ [last], rest, first, last, ⟨?_, ?_, ?_⟩, rfl, rfl⟩
    · rw [show listing.lines.toList = _ from cut, hsplit]
      simp
    · have hhead : (init ++ last :: rest).head? = some first := by rw [← hsplit]; rfl
      simpa [List.head?_append] using hhead
    · rw [List.getLast?_concat]

theorem firstMissing?_eq_some {handles : List Handle} {handle : Handle}
    (h : listing.firstMissing? handles = some handle) :
    handle ∈ handles ∧ handle ∉ listing.handles := by
  refine ⟨List.mem_of_find?_eq_some h, ?_⟩
  have hdead := List.find?_some h
  rw [← contains_iff]
  simpa using hdead

theorem live_of_firstMissing?_eq_none {handles : List Handle}
    (h : listing.firstMissing? handles = none) : ∀ handle ∈ handles, handle ∈ listing.handles := by
  intro handle hm
  rw [firstMissing?, List.find?_eq_none] at h
  exact contains_iff.mp (by simpa using h handle hm)

/-- There is no range back to a handle in front of the start. -/
theorem Cut.range_reversed (cut : listing.Cut before line after) (distinct : listing.Distinct)
    (hstop : stop ∈ before.map (·.handle)) :
    listing.range line.handle stop = .error (.invalidOperand
      s!"{stop.text} does not follow {line.handle.text} in the instruction stream") := by
  have hlive : listing.firstMissing? [line.handle, stop] = none := by
    apply firstMissing?_eq_none
    intro handle hh
    rw [cut.handles_eq]
    rcases List.mem_pair.mp hh with rfl | rfl
    · exact List.mem_append_right _ List.mem_cons_self
    · exact List.mem_append_left _ hstop
  have hnodup := distinct
  rw [Distinct, cut.handles_eq, List.nodup_append] at hnodup
  have hwhole : ((line :: after).map (·.handle)).takeWhile (· != stop) =
      (line :: after).map (·.handle) := by
    rw [List.takeWhile_eq_self_iff]
    intro handle hh
    simpa using (hnodup.2.2 stop hstop handle hh).symm
  simp only [range, hlive, cut.linesFrom distinct, hwhole, Nat.lt_irrefl, if_false]

theorem Cut.precedes (cut : listing.Cut before line after) (hstop : stop ∈ before.map (·.handle)) :
    listing.sequence.Precedes stop line.handle := by
  obtain ⟨front, between, hsplit⟩ := List.append_of_mem hstop
  refine ⟨front, between, after.map (·.handle), ?_⟩
  rw [handles_sequence, cut.handles_eq, hsplit]
  simp

theorem range_refines (distinct : listing.Distinct) (start stop : Handle) :
    listing.sequence.Range start stop (listing.range start stop) := by
  cases hlive : listing.firstMissing? [start, stop] with
  | some missing =>
    obtain ⟨hasked, hdead⟩ := firstMissing?_eq_some hlive
    rw [range, hlive]
    exact .missing hasked (by rwa [handles_sequence])
  | none =>
    have hmem := live_of_firstMissing?_eq_none hlive
    rcases segment_or_precedes (hmem start (by simp)) (hmem stop (by simp)) with
      ⟨before, segment, after, first, last, hseg, rfl, rfl⟩ | ⟨before, line, after, cut, rfl, hstop⟩
    · rw [hseg.range_eq distinct, ← map_fst_pair]
      exact .stretch hseg.stretch
    · rw [cut.range_reversed distinct hstop]
      exact .reversed (cut.precedes hstop)

theorem range_of_precedes (distinct : listing.Distinct)
    (h : listing.sequence.Precedes stop start) :
    ∃ text, listing.range start stop = .error (.invalidOperand text) := by
  obtain ⟨front, between, rest, hsplit⟩ := h
  rw [handles_sequence] at hsplit
  have hstart : start ∈ listing.handles := by simp [hsplit]
  obtain ⟨before, line, after, cut, rfl⟩ := exists_cut hstart
  refine ⟨_, cut.range_reversed distinct ?_⟩
  -- the handles in front of the start are the same in both splits, since it occurs once
  rw [← List.cons_append, ← List.append_assoc] at hsplit
  have hnodup := distinct
  rw [Distinct, hsplit, List.nodup_append, List.nodup_cons] at hnodup
  have hfront : front ++ stop :: between = before.map (·.handle) := by
    have hleft : line.handle ∉ front ++ stop :: between := fun hm =>
      hnodup.2.2 _ hm _ List.mem_cons_self rfl
    have hcut := hsplit.symm.trans cut.handles_eq
    exact ((List.append_cons_inj_of_notMem hleft hnodup.2.1.1).mp hcut).1
  rw [← hfront]
  simp

/-! ## Deletions -/

theorem unreferenced_iff_not_refersInto {segment : List Handle} :
    listing.Unreferenced segment ↔ ¬ listing.sequence.RefersInto segment := by
  rw [unreferenced_iff, Sequence.RefersInto, sequence]
  simp [Line.pair]

theorem deleteRange_refines (distinct : listing.Distinct) (start stop : Handle) :
    listing.sequence.Deletes start stop (listing.apply (.deleteRange start stop)).1
      (listing.apply (.deleteRange start stop)).2.sequence := by
  have hrange := range_refines distinct start stop
  cases hr : listing.range start stop with
  | error e =>
    rw [hr] at hrange
    simp only [apply, deleteRange, hr, Outcome.error_bind, settle]
    exact .unranged hrange
  | ok handles =>
    rcases hlive : listing.firstMissing? [start, stop] with _ | missing
    · have hmem := live_of_firstMissing?_eq_none hlive
      rcases segment_or_precedes (hmem start (by simp)) (hmem stop (by simp)) with
        ⟨before, segment, after, first, last, hseg, rfl, rfl⟩ |
          ⟨before, line, after, cut, rfl, hstop⟩
      · by_cases hfree : listing.Unreferenced (segment.map (·.handle))
        · simp only [apply, hseg.deleteRange_of_unreferenced distinct hfree, Outcome.ok_bind,
            Outcome.pure_eq_ok, settle]
          rw [unreferenced_iff_not_refersInto, ← map_fst_pair] at hfree
          have hresult : Listing.sequence { listing with
              lines := (before ++ after).toArray, laidOut := false } =
              ⟨before.map Line.pair ++ after.map Line.pair, listing.sequence.handlers⟩ := by
            simp [sequence]
          rw [hresult]
          exact .deleted hseg.stretch hfree
        · have hsome := mt externalReferrer?_eq_none.mp hfree
          obtain ⟨⟨target, referrer⟩, hfound⟩ := Option.ne_none_iff_exists'.mp hsome
          simp only [apply, deleteRange, hseg.range_eq distinct, Outcome.ok_bind, hfound,
            Outcome.throw_eq_error, Outcome.error_bind, settle]
          rw [unreferenced_iff_not_refersInto, not_not, ← map_fst_pair] at hfree
          exact .referenced hseg.stretch hfree
      · rw [cut.range_reversed distinct hstop] at hr
        cases hr
    · rw [range, hlive] at hr
      cases hr

/-! ## Calls -/

theorem sequence_append (listing : Listing) (code : Instruction Handle) :
    (listing.append code).2.sequence =
      ⟨listing.sequence.pairs ++ [(⟨listing.fresh⟩, code)], listing.sequence.handlers⟩ := by
  simp [sequence, Listing.append, Line.pair]

theorem Cut.sequence_insertBefore (cut : listing.Cut before line after)
    (code : Instruction Handle) :
    (listing.insertAt before.length code).2.sequence =
      ⟨before.map Line.pair ++ (⟨listing.fresh⟩, code) :: (line.handle, line.instruction) ::
        after.map Line.pair, listing.sequence.handlers⟩ := by
  rw [sequence, toList_insertAt, show listing.lines.toList = _ from cut]
  simp [sequence, insertAt, Line.pair]

theorem Cut.sequence_insertAfter (cut : listing.Cut before line after) (code : Instruction Handle) :
    (listing.insertAt (before.length + 1) code).2.sequence =
      ⟨before.map Line.pair ++ (line.handle, line.instruction) :: (⟨listing.fresh⟩, code) ::
        after.map Line.pair, listing.sequence.handlers⟩ := by
  have hlines : listing.lines.toList = (before ++ [line]) ++ after := by
    rw [show listing.lines.toList = _ from cut]
    simp
  have hlength : (before ++ [line]).length = before.length + 1 := by simp
  rw [sequence, toList_insertAt, hlines, List.take_left' hlength, List.drop_left' hlength]
  simp [sequence, insertAt, Line.pair]

theorem sequence_layout (listing : Listing) : listing.layout.2.sequence = listing.sequence := by
  have hpairs : ∀ other : Listing, other.lines.toList.map Line.pair =
      (other.lines.toList.map (·.handle)).zip (other.lines.toList.map (·.instruction)) := by
    intro other
    rw [List.zip_map']
    rfl
  have hhandlers : listing.layout.2.handlers = listing.handlers := by
    unfold Listing.layout
    split <;> rfl
  rw [sequence, sequence, hpairs, hpairs, (layout_same listing).map_handle,
    (layout_same listing).map_instruction, hhandlers]

/-- Everything that a call does to a listing, it does to a plain sequence. -/
theorem apply_refines (sound : listing.Sound) {issued : List Handle}
    (hissued : ∀ handle ∈ issued, handle.index < listing.fresh) (operation : Operation) :
    listing.sequence.Step issued operation (listing.apply operation).1
      (listing.apply operation).2.sequence := by
  have distinct := sound.1
  have hnew : (⟨listing.fresh⟩ : Handle) ∉ issued := fun hm => Nat.lt_irrefl _ (hissued _ hm)
  cases operation with
  | append code =>
    simp only [apply]
    rw [sequence_append]
    exact .append hnew
  | insertBefore handle code =>
    by_cases hm : handle ∈ listing.handles
    · obtain ⟨before, line, after, cut, rfl⟩ := exists_cut hm
      simp only [apply, insertBefore, cut.indexOf? distinct, Outcome.ok_bind,
        Outcome.pure_eq_ok, settle]
      rw [cut.sequence_insertBefore]
      exact .insertBefore hnew cut.pairs_eq
    · simp only [apply, insertBefore, indexOf?_eq_none hm, Outcome.error_bind, settle]
      exact .insertBeforeDead (by rwa [handles_sequence])
  | insertAfter handle code =>
    by_cases hm : handle ∈ listing.handles
    · obtain ⟨before, line, after, cut, rfl⟩ := exists_cut hm
      simp only [apply, insertAfter, cut.indexOf? distinct, Outcome.ok_bind,
        Outcome.pure_eq_ok, settle]
      rw [cut.sequence_insertAfter]
      exact .insertAfter hnew cut.pairs_eq
    · simp only [apply, insertAfter, indexOf?_eq_none hm, Outcome.error_bind, settle]
      exact .insertAfterDead (by rwa [handles_sequence])
  | set handle code =>
    by_cases hm : handle ∈ listing.handles
    · obtain ⟨before, line, after, cut, rfl⟩ := exists_cut hm
      have hresult : Listing.sequence { listing with
          lines := (before ++ ⟨line.handle, code, false⟩ :: after).toArray, laidOut := false } =
          ⟨before.map Line.pair ++ (line.handle, code) :: after.map Line.pair,
            listing.sequence.handlers⟩ := by
        simp [sequence, Line.pair]
      simp only [apply, cut.set_eq distinct, Outcome.ok_bind, Outcome.pure_eq_ok, settle]
      rw [hresult]
      exact .set cut.pairs_eq
    · simp only [apply, Listing.set, get?_eq_none hm, Outcome.error_bind, settle]
      exact .setDead (by rwa [handles_sequence])
  | delete handle => exact .delete (deleteRange_refines distinct handle handle)
  | deleteRange start stop => exact .deleteRange (deleteRange_refines distinct start stop)
  | addHandler entry =>
    cases hmissing : listing.firstMissing? entry.handles with
    | some missing =>
      obtain ⟨hm, hdead⟩ := firstMissing?_eq_some hmissing
      simp only [apply, addHandler, hmissing, Outcome.error_bind, settle]
      exact .addHandlerDead hm (by rwa [handles_sequence])
    | none =>
      have hresult : Listing.sequence { listing with handlers := listing.handlers.push entry } =
          ⟨listing.sequence.pairs, listing.sequence.handlers ++ [entry]⟩ := by
        simp [sequence]
      simp only [apply, addHandler, hmissing, Outcome.ok_bind, Outcome.pure_eq_ok, settle]
      rw [hresult]
      refine .addHandler fun handle hm => ?_
      rw [handles_sequence]
      exact live_of_firstMissing?_eq_none hmissing handle hm
  | layout =>
    have hsame := sequence_layout listing
    simp only [apply]
    split
    case h_1 length result hl =>
      rw [hl] at hsame
      exact hsame ▸ .layout
    case h_2 e result hl =>
      rw [hl] at hsame
      exact hsame ▸ .layoutFailed

end Listing

end BytecodeFold
