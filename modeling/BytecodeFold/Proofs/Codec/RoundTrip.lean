import BytecodeFold.Proofs.Codec.Emission
import BytecodeFold.Proofs.Listing.Layout
import BytecodeFold.Proofs.Listing.Renaming

/-!
# Decoding undoes encoding

The code array of a listing decodes to the listing itself, up to what bytes cannot tell: handles
come back as the places of their instructions in the stream, and type tags as those that the
bytes have.
-/

namespace BytecodeFold

/-! ## Boundaries -/

/-- The table of boundaries holds the place of every instruction under its offset. -/
theorem Decoding.boundaries_eq_some {items : List (Nat × Instruction Nat)}
    (distinct : (items.map (·.1)).Nodup) {offset index : Nat} :
    (boundaries items.toArray)[offset]? = some index ↔
      ∃ code, items[index]? = some (offset, code) := by
  have hkeys : items.zipIdx.map (fun entry => entry.1.1) = items.map (·.1) := by
    conv => rhs; rw [← List.zipIdx_map_fst 0 items]
    rw [List.map_map]
    rfl
  rw [boundaries, ← Array.foldl_toList, Array.toList_zipIdx]
  change (items.zipIdx.foldl (fun table entry => table.insert entry.1.1 entry.2)
    (∅ : Std.HashMap Nat Nat))[offset]? = _ ↔ _
  rw [getElem?_foldl_insert (hkeys ▸ distinct)]
  constructor
  · rintro ⟨⟨item, place⟩, hm, rfl, rfl⟩
    exact ⟨item.2, List.mk_mem_zipIdx_iff_getElem?.mp hm⟩
  · rintro ⟨code, hi⟩
    exact ⟨((offset, code), index), List.mk_mem_zipIdx_iff_getElem?.mpr hi, rfl, rfl⟩

/-- Targets that are resolved one by one are resolved in the instruction. -/
theorem Instruction.mapTargetsM_mapTargets {τ σ ρ : Type} {f : τ → σ} {resolve : σ → Except Error ρ}
    {g : τ → ρ} {code : Instruction τ}
    (h : ∀ target ∈ code.targets, resolve (f target) = .ok (g target)) :
    (code.mapTargets f).mapTargetsM resolve = .ok (code.mapTargets g) := by
  cases code with
  | branch condition target | jump target | subroutine target =>
    simp [mapTargets, mapTargetsM, h target (List.mem_singleton.mpr rfl)]
  | switch kind default cases =>
    obtain ⟨hdefault, hcases⟩ := List.forall_mem_cons.mp h
    refine Outcome.bind_eq_ok.mpr ⟨g default, hdefault, Outcome.bind_eq_ok.mpr ⟨_, ?_, rfl⟩⟩
    rw [Outcome.list_mapM_eq_ok, List.forall₂_map_left_iff, List.forall₂_map_right_iff,
      List.forall₂_same]
    intro case hm
    exact Outcome.bind_eq_ok.mpr ⟨g case.2, hcases case.2 (List.mem_map_of_mem hm), rfl⟩
  | _ => rfl

/-! ## The listing that comes back -/

/-- The place of a handle in the stream, as a handle. -/
def Listing.rank (listing : Listing) (handle : Handle) : Handle :=
  ⟨(listing.indexOf? handle).getD 0⟩

/-- The listing with every handle replaced by its place in the stream, and with the type tags
that the bytes of its instructions have. -/
def Listing.canonical (listing : Listing) : Listing where
  lines := (numbered (listing.lines.toList.map fun line =>
    line.instruction.normalise.mapTargets listing.rank)).toArray
  fresh := listing.size
  handlers := listing.handlers.map (·.rename listing.rank)
  laidOut := false

/-! ## What is emitted -/

namespace Listing

variable {listing : Listing} {pool : ConstantPool} {length : Nat}

theorem foldlM_append_eq_ok {α : Type} {f : α → Except Error (List UInt8)} {lines : List α}
    {start result : Array UInt8} :
    lines.foldlM (fun bytes line => return bytes ++ (← f line)) start = .ok result ↔
      ∃ chunks, List.Forall₂ (fun line chunk => f line = .ok chunk) lines chunks ∧
        result.toList = start.toList ++ chunks.flatten := by
  induction lines generalizing start with
  | nil =>
    simp only [List.foldlM_nil, Outcome.pure_eq_ok, Except.ok.injEq, List.forall₂_nil_left_iff,
      exists_eq_left, List.flatten_nil, List.append_nil, Array.toList_inj]
    exact eq_comm
  | cons line rest ih =>
    rw [List.foldlM_cons, Outcome.bind_eq_ok]
    constructor
    · rintro ⟨mid, hmid, h⟩
      obtain ⟨chunk, hc, hmid⟩ := Outcome.bind_eq_ok.mp hmid
      cases hmid
      obtain ⟨chunks, hchunks, he⟩ := ih.mp h
      exact ⟨chunk :: chunks, .cons hc hchunks, by rw [he]; simp⟩
    · rintro ⟨chunks, hchunks, he⟩
      cases hchunks with
      | cons hc hrest =>
        exact ⟨_, Outcome.bind_eq_ok.mpr ⟨_, hc, rfl⟩, ih.mpr ⟨_, hrest, by rw [he]; simp⟩⟩

/-- What emitting a listing amounts to. -/
structure Emits (listing : Listing) (length : Nat) (bytes : Array UInt8)
    (table : Array ExceptionEntry) (chunks : List (List UInt8)) : Prop where
  written : List.Forall₂ (fun line chunk =>
    Encoding.instruction listing.offsets line.handle line.long line.instruction = .ok chunk)
    listing.lines.toList chunks
  bytes_eq : bytes.toList = chunks.flatten
  size_eq : bytes.size = length
  entries : List.Forall₂ (fun handler entry =>
    Encoding.exceptionEntry listing.offsets length handler = .ok entry)
    listing.handlers.toList table.toList

theorem emit_eq_ok {bytes : Array UInt8} {table : Array ExceptionEntry} :
    listing.emit length = .ok (bytes, table) ↔
      ∃ chunks, listing.Emits length bytes table chunks := by
  unfold emit
  dsimp only
  rw [← Array.foldlM_toList, Outcome.bind_eq_ok]
  constructor
  · rintro ⟨bytes', hbytes, h⟩
    obtain ⟨chunks, hchunks, he⟩ := foldlM_append_eq_ok.mp hbytes
    split at h
    case isTrue => cases h
    case isFalse hsize =>
      obtain ⟨table', ht, h⟩ := Outcome.bind_eq_ok.mp h
      cases h
      exact ⟨chunks, hchunks, he, not_not.mp hsize, Outcome.array_mapM_eq_ok.mp ht⟩
  · rintro ⟨chunks, hwritten, hbytes, hsize, hentries⟩
    refine ⟨bytes, foldlM_append_eq_ok.mpr ⟨chunks, hwritten, hbytes⟩, ?_⟩
    rw [if_neg (not_not.mpr hsize)]
    exact Outcome.bind_eq_ok.mpr ⟨table, Outcome.array_mapM_eq_ok.mpr hentries, rfl⟩

/-- A line and its offset as they are read back. -/
def item (offsets : Handle → Option Nat) (pair : Line × Nat) : Nat × Instruction Nat :=
  (pair.2, pair.1.instruction.normalise.mapTargets (Encoding.placeOf offsets))

/-- Lines that are written one after another in their formats are a code array. -/
theorem formats_of_written {offsets : Handle → Option Nat} {offset : Nat} {lines : List Line}
    {chunks : List (List UInt8)}
    (hwritten : List.Forall₂ (fun line chunk =>
      Encoding.instruction offsets line.handle line.long line.instruction = .ok chunk) lines chunks)
    (h : ∀ pair ∈ placedFrom offset lines, ∀ chunk,
      Encoding.instruction offsets pair.1.handle pair.1.long pair.1.instruction = .ok chunk →
        Decoding.Format pool pair.2 (item offsets pair).2 chunk ∧
          chunk.length = pair.1.instruction.size pair.2 pair.1.long) :
    Decoding.Formats pool offset ((placedFrom offset lines).map (item offsets)) chunks.flatten := by
  induction hwritten generalizing offset with
  | nil => rfl
  | @cons line chunk lines chunks hline _ ih =>
    obtain ⟨hformat, hlength⟩ := h (line, offset) List.mem_cons_self chunk hline
    refine ⟨chunk, chunks.flatten, rfl, hformat, ?_, rfl⟩
    rw [hlength]
    exact ih fun pair hm => h pair (List.mem_cons_of_mem _ hm)

theorem placeOf_le (laid : listing.LaidOut length) (distinct : listing.Distinct) (handle : Handle) :
    Encoding.placeOf listing.offsets handle ≤ 65535 := by
  rw [Encoding.placeOf]
  cases hp : listing.offsets[handle]? with
  | none => exact Nat.zero_le _
  | some place =>
    obtain ⟨before, line, after, cut, -, rfl⟩ := exists_cut_of_offset hp distinct laid.laidOut
    have hlength := laid.length_eq
    rw [show listing.lines.toList = _ from cut, lengthFrom_append] at hlength
    have hle := le_lengthFrom (lengthFrom 0 before) (line :: after)
    have := laid.length_le
    rw [Option.getD_some]
    omega

/-- What the encoder needs to know of a line of a laid out listing. -/
theorem LaidOut.line_ready (laid : listing.LaidOut length) (distinct : listing.Distinct)
    {pair : Line × Nat} (hm : pair ∈ placedFrom 0 listing.lines.toList) :
    pair.1 ∈ listing.lines.toList ∧ listing.offsets[pair.1.handle]? = some pair.2 ∧
      (∀ target ∈ pair.1.instruction.targets, Encoding.Placed listing.offsets target) ∧
      pair.1.instruction.FewCases := by
  have hline : pair.1 ∈ listing.lines.toList := mem_of_mem_placedFrom hm
  refine ⟨hline, ?_, fun target ht => ?_, ?_⟩
  · rw [offsets_of_laidOut laid.laidOut, offsets_eq_some distinct]
    exact ⟨pair.1, hm, rfl⟩
  · obtain ⟨place, hp⟩ := laid.targets pair.1 hline target ht
    exact Encoding.placed_of_eq_some hp
  · have hsize := (bounds_of_mem_placedFrom hm).2
    have := laid.length_eq
    have := laid.length_le
    have hle : pair.1.instruction.size pair.2 pair.1.long ≤ 65535 := by omega
    exact Instruction.fewCases_of_size hle

/-- A listing that is emitted is written in the format of code arrays. -/
theorem Emits.formats {bytes : Array UInt8} {table : Array ExceptionEntry}
    {chunks : List (List UInt8)} (h : listing.Emits length bytes table chunks)
    (laid : listing.LaidOut length) (distinct : listing.Distinct)
    (readable : ∀ line ∈ listing.lines.toList, ∀ kept, line.instruction = .other kept →
      Decoding.Readable pool kept) :
    Decoding.Formats pool 0 ((placedFrom 0 listing.lines.toList).map (item listing.offsets))
      bytes.toList := by
  rw [h.bytes_eq]
  refine formats_of_written h.written fun pair hm chunk hchunk => ?_
  obtain ⟨hline, hoffset, hplaced, hfew⟩ := laid.line_ready distinct hm
  have hbounded := placeOf_le laid distinct
  exact ⟨Encoding.format_instruction hoffset hplaced hbounded hfew
    (fun kept hk => (readable pair.1 hline kept hk).format pair.2) hchunk,
    Encoding.length_instruction hoffset hplaced hbounded hfew hchunk⟩

/-! ## Resolving -/

theorem map_fst_items (offset : Nat) (lines : List Line) (offsets : Handle → Option Nat) :
    ((placedFrom offset lines).map (item offsets)).map (·.1) =
      (placedFrom offset lines).map (·.2) := by
  rw [List.map_map]
  rfl

/-- The offset of a handle is the boundary of the line that it names. -/
theorem resolve_placeOf (laid : listing.LaidOut length) (distinct : listing.Distinct)
    {handle : Handle} {place : Nat} (h : listing.offsets[handle]? = some place) (size : Nat) :
    Decoding.resolveOffset (Decoding.boundaries
        ((placedFrom 0 listing.lines.toList).map (item listing.offsets)).toArray) size
      (Encoding.placeOf listing.offsets handle) = .ok (listing.rank handle) := by
  have hnodup :
      (((placedFrom 0 listing.lines.toList).map (item listing.offsets)).map (·.1)).Nodup := by
    rw [map_fst_items]
    exact nodup_placedFrom 0 _
  obtain ⟨before, line, after, cut, rfl, rfl⟩ := exists_cut_of_offset h distinct laid.laidOut
  have hindex : ((placedFrom 0 listing.lines.toList).map (item listing.offsets))[before.length]? =
      some (item listing.offsets (line, lengthFrom 0 before)) := by
    rw [show listing.lines.toList = _ from cut, placedFrom_append, List.getElem?_map,
      ← length_placedFrom 0 before, List.getElem?_append_right (Nat.le_refl _), Nat.sub_self]
    rfl
  have hboundary := (Decoding.boundaries_eq_some hnodup).mpr ⟨_, hindex⟩
  rw [Encoding.placeOf, h, Option.getD_some, Decoding.resolveOffset, hboundary, rank,
    cut.indexOf? distinct]
  rfl

theorem offset_lt_length (laid : listing.LaidOut length) (distinct : listing.Distinct)
    {handle : Handle} {place : Nat} (h : listing.offsets[handle]? = some place) :
    place < length := by
  obtain ⟨before, line, after, cut, rfl, rfl⟩ := exists_cut_of_offset h distinct laid.laidOut
  rw [laid.length_eq, show listing.lines.toList = _ from cut, lengthFrom_append]
  have hsize := line.instruction.size_pos (lengthFrom 0 before) line.long
  have hle := le_lengthFrom (lengthFrom 0 before +
    line.instruction.size (lengthFrom 0 before) line.long) after
  rw [lengthFrom]
  omega

theorem exceptionHandler_of_entry (laid : listing.LaidOut length) (distinct : listing.Distinct)
    {resolve : Nat → Except Error Handle}
    (hresolve : ∀ handle place, listing.offsets[handle]? = some place →
      resolve (Encoding.placeOf listing.offsets handle) = .ok (listing.rank handle))
    {handler : ExceptionHandler} (hm : handler ∈ listing.handlers.toList) {entry : ExceptionEntry}
    (h : Encoding.exceptionEntry listing.offsets length handler = .ok entry) :
    Decoding.exceptionHandler resolve length entry = .ok (handler.rename listing.rank) := by
  have hplaced := laid.handlers handler hm
  have hword : ∀ handle ∈ handler.handles, ∃ place, listing.offsets[handle]? = some place ∧
      (UInt16.ofNat place).toNat ≠ length ∧
      resolve (UInt16.ofNat place).toNat = .ok (listing.rank handle) := by
    intro handle hh
    obtain ⟨place, hp⟩ := hplaced handle hh
    have hlt := offset_lt_length laid distinct hp
    have hsmall : place < 2 ^ 16 := by
      have := laid.length_le
      omega
    have hr := hresolve handle place hp
    rw [Encoding.placeOf, hp, Option.getD_some] at hr
    have hn : (UInt16.ofNat place).toNat = place := by
      rw [UInt16.toNat_ofNat', Nat.mod_eq_of_lt hsmall]
    exact ⟨place, hp, by omega, by rw [hn]; exact hr⟩
  obtain ⟨start, stop, target, catchType⟩ := handler
  obtain ⟨startPlace, hstart, -, hrstart⟩ := hword start (by simp [ExceptionHandler.handles])
  obtain ⟨targetPlace, htarget, -, hrtarget⟩ := hword target (by simp [ExceptionHandler.handles])
  have hlength : (UInt16.ofNat length).toNat = length := by
    have := laid.length_le
    rw [UInt16.toNat_ofNat', Nat.mod_eq_of_lt (by omega)]
  cases stop with
  | none =>
    simp only [Encoding.exceptionEntry, hstart, htarget, Outcome.ok_bind, Outcome.pure_eq_ok,
      Except.ok.injEq] at h
    subst h
    simp only [Decoding.exceptionHandler, hrstart, hrtarget, if_pos hlength, Outcome.ok_bind]
    rfl
  | some stop =>
    obtain ⟨stopPlace, hstop, hne, hrstop⟩ := hword stop (by simp [ExceptionHandler.handles])
    simp only [Encoding.exceptionEntry, hstart, hstop, htarget, Outcome.ok_bind, Outcome.pure_eq_ok,
      Except.ok.injEq] at h
    subst h
    simp only [Decoding.exceptionHandler, hrstart, hrstop, hrtarget, if_neg hne, Outcome.ok_bind]
    rfl

/-- A layout leaves the canonical form as it is. -/
theorem SameLines.canonical_eq {laid : Listing}
    (h : SameLines listing.lines.toList laid.lines.toList)
    (hhandlers : laid.handlers = listing.handlers) : laid.canonical = listing.canonical := by
  have hrank : laid.rank = listing.rank := by
    funext handle
    have hindex : ∀ other : Listing,
        other.indexOf? handle = (other.lines.toList.map (·.handle)).findIdx? (· == handle) := by
      intro other
      rw [indexOf?_eq_findIdx?, List.findIdx?_map]
      rfl
    rw [rank, rank, hindex, hindex, h.map_handle]
  have hlines : ∀ other : Listing, (other.lines.toList.map fun line =>
      line.instruction.normalise.mapTargets listing.rank) = (other.lines.toList.map
        (·.instruction)).map fun code => code.normalise.mapTargets listing.rank := by
    intro other
    rw [List.map_map]
    rfl
  have hsize : laid.size = listing.size := by
    rw [size, size, ← Array.length_toList, ← Array.length_toList, h.length_eq]
  rw [canonical, canonical, hrank, hlines, hlines, h.map_instruction, hsize, hhandlers]

/-- A laid out listing that is emitted decodes to its canonical form. -/
theorem decode_of_emits {code : Code} {chunks : List (List UInt8)}
    (h : listing.Emits length code.bytes code.exceptionTable chunks) (laid : listing.LaidOut length)
    (distinct : listing.Distinct)
    (readable : ∀ line ∈ listing.lines.toList, ∀ kept, line.instruction = .other kept →
      Decoding.Readable pool kept) :
    code.decode pool = .ok listing.canonical := by
  have hresolve : ∀ handle place, listing.offsets[handle]? = some place → _ :=
    fun handle place hp => resolve_placeOf laid distinct hp code.bytes.size
  refine Code.decode_eq_ok.mpr ⟨(placedFrom 0 listing.lines.toList).map (item listing.offsets),
    listing.lines.toList.map fun line => line.instruction.normalise.mapTargets listing.rank,
    listing.handlers.toList.map (·.rename listing.rank), ⟨?_, ?_, ?_⟩, ?_⟩
  · exact Decoding.streams_of_formats (Nat.zero_le _) (h.formats laid distinct readable)
  · conv => arg 3; rw [← map_placedFrom 0 listing.lines.toList]
    rw [List.map_map, List.forall₂_map_left_iff, List.forall₂_map_right_iff, List.forall₂_same]
    intro pair hm
    have hline : pair.1 ∈ listing.lines.toList := mem_of_mem_placedFrom hm
    refine Instruction.mapTargetsM_mapTargets fun target ht => ?_
    rw [Instruction.targets_normalise] at ht
    obtain ⟨place, hp⟩ := laid.targets pair.1 hline target ht
    exact hresolve target place hp
  · rw [List.forall₂_map_right_iff]
    refine List.Forall₂.flip (Outcome.forall₂_imp_of_mem h.entries fun handler hm entry he => ?_)
    rw [← h.size_eq] at he laid
    exact exceptionHandler_of_entry laid distinct hresolve hm he
  · have hhandlers : (listing.handlers.toList.map (·.rename listing.rank)).toArray =
        listing.handlers.map (·.rename listing.rank) := by
      rw [← Array.toList_map]
    rw [hhandlers, List.length_map, Array.length_toList]
    rfl

theorem decode_of_encode {code : Code}
    (h : listing.encode.1 = .ok (code.bytes, code.exceptionTable)) (distinct : listing.Distinct)
    (readable : ∀ line ∈ listing.lines.toList, ∀ kept, line.instruction = .other kept →
      Decoding.Readable pool kept) :
    code.decode pool = .ok listing.canonical := by
  unfold encode at h
  cases hl : listing.layout with
  | mk outcome laid =>
    cases outcome with
    | error e =>
      rw [hl] at h
      cases h
    | ok length =>
      rw [hl] at h
      obtain ⟨hlaid, hhandlers, hsame⟩ := layout_eq_ok hl
      obtain ⟨chunks, hemits⟩ := emit_eq_ok.mp h
      rw [← hsame.canonical_eq hhandlers]
      refine decode_of_emits hemits hlaid (hsame.distinct distinct) fun line hm kept hk => ?_
      have hcode : line.instruction ∈ listing.lines.toList.map (·.instruction) := by
        rw [← hsame.map_instruction]
        exact List.mem_map_of_mem hm
      obtain ⟨line', hm', he⟩ := List.mem_map.mp hcode
      exact readable line' hm' kept (he.trans hk)

/-! ## The listings that can be built -/

/-- The listings that the operations on listings give. -/
inductive Built : Listing → Prop where
  | empty : Built Listing.empty
  | decoded {code : Code} {pool : ConstantPool} {listing : Listing}
      (h : code.decode pool = .ok listing) : Built listing
  | append {listing : Listing} (built : Built listing) (code : Instruction Handle) :
      Built (listing.append code).2
  | insertBefore {listing : Listing} (built : Built listing) {handle : Handle}
      {code : Instruction Handle} {result : Handle × Listing}
      (h : listing.insertBefore handle code = .ok result) : Built result.2
  | insertAfter {listing : Listing} (built : Built listing) {handle : Handle}
      {code : Instruction Handle} {result : Handle × Listing}
      (h : listing.insertAfter handle code = .ok result) : Built result.2
  | set {listing : Listing} (built : Built listing) {handle : Handle} {code : Instruction Handle}
      {result : Instruction Handle × Listing} (h : listing.set handle code = .ok result) :
      Built result.2
  | deleteRange {listing result : Listing} (built : Built listing) {start stop : Handle}
      (h : listing.deleteRange start stop = .ok result) : Built result
  | addHandler {listing result : Listing} (built : Built listing) {entry : ExceptionHandler}
      (h : listing.addHandler entry = .ok result) : Built result
  | layout {listing : Listing} (built : Built listing) : Built listing.layout.2

/-- The handles in the stream are distinct, and none of them is still to be given out. -/
def Sound (listing : Listing) : Prop :=
  listing.Distinct ∧ ∀ handle ∈ listing.handles, handle.index < listing.fresh

theorem Sound.of_perm {result : Listing} (sound : listing.Sound)
    (hhandles : result.handles.Perm (⟨listing.fresh⟩ :: listing.handles))
    (hfresh : result.fresh = listing.fresh + 1) : result.Sound := by
  obtain ⟨distinct, hbound⟩ := sound
  constructor
  · refine hhandles.nodup_iff.mpr (List.nodup_cons.mpr ⟨fun hm => ?_, distinct⟩)
    exact Nat.lt_irrefl _ (hbound _ hm)
  · intro handle hm
    rw [hfresh]
    rcases List.mem_cons.mp (hhandles.mem_iff.mp hm) with rfl | hm
    · exact Nat.lt_succ_self _
    · exact Nat.lt_succ_of_lt (hbound handle hm)

theorem Sound.of_sublist {result : Listing} (sound : listing.Sound)
    (hhandles : result.handles.Sublist listing.handles) (hfresh : result.fresh = listing.fresh) :
    result.Sound :=
  ⟨sound.1.sublist hhandles, fun handle hm => hfresh ▸ sound.2 handle (hhandles.mem hm)⟩

/-- A new line stands between the lines in front of its index and those from it on. -/
theorem toList_insertAt (listing : Listing) (index : Nat) (code : Instruction Handle) :
    (listing.insertAt index code).2.lines.toList =
      listing.lines.toList.take index ++ ⟨⟨listing.fresh⟩, code, false⟩ ::
        listing.lines.toList.drop index := by
  have hlength : (listing.lines.toList.drop index).length = listing.lines.size - index := by
    rw [List.length_drop, Array.length_toList]
  have htail := List.take_of_length_le (Nat.le_of_eq hlength)
  simp [insertAt, List.extract_eq_take_drop, htail]

theorem Sound.insertAt (sound : listing.Sound) (index : Nat) (code : Instruction Handle) :
    (listing.insertAt index code).2.Sound := by
  refine sound.of_perm ?_ rfl
  rw [handles, toList_insertAt, List.map_append, List.map_cons]
  refine List.perm_middle.trans (List.Perm.cons _ ?_)
  rw [← List.map_append, List.take_append_drop]
  exact .refl _

theorem Built.sound (built : listing.Built) : listing.Sound := by
  induction built with
  | empty => exact ⟨List.nodup_nil, fun handle hm => by cases hm⟩
  | decoded h =>
    refine ⟨Code.decode_distinct h, ?_⟩
    obtain ⟨items, instructions, handlers, -, rfl⟩ := Code.decode_eq_ok.mp h
    intro handle hm
    change handle ∈ (numbered instructions).map (·.handle) at hm
    rw [handles_numbered] at hm
    obtain ⟨index, hi, rfl⟩ := List.mem_map.mp hm
    exact List.mem_range.mp hi
  | append _ code ih =>
    refine ih.of_perm ?_ rfl
    rw [handles, Listing.append, Array.toList_push, List.map_append]
    exact List.perm_append_singleton _ _
  | insertBefore _ h ih =>
    unfold Listing.insertBefore at h
    split at h
    case h_1 => cases h; exact ih.insertAt _ _
    case h_2 => cases h
  | insertAfter _ h ih =>
    unfold Listing.insertAfter at h
    split at h
    case h_1 => cases h; exact ih.insertAt _ _
    case h_2 => cases h
  | @set listing _ handle code result h ih =>
    unfold Listing.set at h
    split at h
    case h_1 =>
      cases h
      refine ih.of_sublist ?_ rfl
      rw [handles, handles, Array.toList_map, List.map_map]
      have hsame : (fun line : Line => line.handle) ∘ (fun line =>
          if line.handle = handle then ⟨handle, code, false⟩ else line) = (·.handle) := by
        funext line
        by_cases hh : line.handle = handle
        · simp [hh]
        · simp [hh]
      rw [hsame]
    case h_2 => cases h
  | deleteRange _ h ih =>
    obtain ⟨segment, -, h⟩ := Outcome.bind_eq_ok.mp h
    split at h
    case h_1 => cases h
    case h_2 =>
      cases h
      refine ih.of_sublist ?_ rfl
      rw [handles, handles, Array.toList_filter]
      exact List.filter_sublist.map _
  | addHandler _ h ih =>
    unfold Listing.addHandler at h
    split at h
    case h_1 => cases h
    case h_2 => cases h; exact ih
  | @layout listing _ ih =>
    refine ih.of_sublist ?_ ?_
    · rw [handles, (layout_same listing).map_handle]
      exact .refl _
    · unfold Listing.layout
      split <;> rfl

/-- Decoding undoes encoding: the code array of a listing decodes to the listing with every handle
replaced by its rank in the stream and with the type tags of its bytes. The instructions that are
kept byte for byte have to be such as decoding gives under the pool. -/
theorem decode_undoes_encode {listing : Listing} {pool : ConstantPool} {code : Code}
    (built : listing.Built)
    (readable : ∀ line ∈ listing.lines.toList, ∀ kept, line.instruction = .other kept →
      ∃ start stop, Decoding.instruction pool start = .ok (.other kept, stop))
    (encoded : listing.encode.1 = .ok (code.bytes, code.exceptionTable)) :
    code.decode pool = .ok listing.canonical :=
  decode_of_encode encoded built.sound.1 readable

/-- A test that goes back to the start or returns. -/
def retry : Listing :=
  let (first, listing) := empty.append (.push (.int 3) .char)
  let (_, listing) := listing.append (.branch (.zero .eq) first)
  (listing.append (.other ⟨0xB1, false, [], ⟨0, 0⟩, .methodReturn⟩)).2

theorem retry_lines : retry.lines = #[⟨⟨0⟩, .push (.int 3) .char, false⟩,
    ⟨⟨1⟩, .branch (.zero .eq) ⟨0⟩, false⟩,
    ⟨⟨2⟩, .other ⟨0xB1, false, [], ⟨0, 0⟩, .methodReturn⟩, false⟩] := rfl

theorem retry_layout : retry.layout = (.ok 5, { retry with laidOut := true }) := by
  have hround : layoutRound retry.handlers retry.lines = .ok (5, retry.lines) := by
    rw [show retry.handlers = #[] from rfl, retry_lines]
    simp [layoutRound, place, Placement.offsets, widen, tooFar, unplaced?, Instruction.targets,
      Instruction.size, Number.pushForm?, Std.HashMap.getElem_insert, fitsSigned]
  rw [layout, layoutLines, hround]
  simp

theorem retry_encode : retry.encode.1 = .ok (#[0x06, 0x99, 0xFF, 0xFF, 0xB1], #[]) := by
  rw [encode, retry_layout]
  simp [emit, offsets, retry_lines, show retry.handlers = #[] from rfl, place, Placement.offsets,
    Instruction.size, Number.pushForm?, Encoding.instruction, Encoding.push,
    Encoding.shortDisplacement, Encoding.displacement, Std.HashMap.getElem_insert, fitsSigned]
  rfl

theorem decode_undoes_encode_retry :
    Code.decode ⟨1, 0, #[0x06, 0x99, 0xFF, 0xFF, 0xB1], #[]⟩ .empty =
      .ok ⟨#[⟨⟨0⟩, .push (.int 3) .int, false⟩, ⟨⟨1⟩, .branch (.zero .eq) ⟨0⟩, false⟩,
        ⟨⟨2⟩, .other ⟨0xB1, false, [], ⟨0, 0⟩, .methodReturn⟩, false⟩], 3, #[], false⟩ := by
  have hcanonical : retry.canonical = ⟨#[⟨⟨0⟩, .push (.int 3) .int, false⟩,
      ⟨⟨1⟩, .branch (.zero .eq) ⟨0⟩, false⟩,
      ⟨⟨2⟩, .other ⟨0xB1, false, [], ⟨0, 0⟩, .methodReturn⟩, false⟩], 3, #[], false⟩ := by
    decide +kernel
  rw [← hcanonical]
  refine decode_undoes_encode (((Built.empty.append _).append _).append _) ?_ retry_encode
  intro line hm kept hk
  rw [retry_lines] at hm
  simp only [List.mem_cons, List.not_mem_nil, or_false] at hm
  rcases hm with rfl | rfl | rfl
  · cases hk
  · cases hk
  · cases hk
    have hshape : Shape.ofOpcode 0xB1 = .verbatim ⟨"return", .none, 0, 0, .methodReturn⟩ := by
      decide +kernel
    exact ⟨⟨#[0xB1], 0⟩, ⟨#[0xB1], 1⟩, (Decoding.parses_instruction _ rfl (by decide) _ _).mpr
      ⟨[0xB1], .mk hshape ⟨rfl, ⟨0, 0⟩, rfl, rfl⟩, ⟨[], rfl⟩, rfl⟩⟩

end Listing

end BytecodeFold
