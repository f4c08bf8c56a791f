import BytecodeFold.Proofs.Codec.Compact
import BytecodeFold.Proofs.Codec.Displacement
import BytecodeFold.Proofs.Failure

/-!
# Decoding partitions the code

A code array that decodes is cut into instructions without a gap. Every distance in it leads from
the start of one instruction to the start of another, and every offset of the exception table is
such a start or the end of the code; decoding names them all by the place of the instruction that
starts there. Bytes that can be cut into instructions, but in which some distance or offset leads
elsewhere, are found malformed.
-/

namespace BytecodeFold

namespace Decoding

/-! ## Cuts -/

/-- The bytes that stand at an offset are cut into instructions at these offsets. -/
structure Splits (pool : ConstantPool) (base : Nat) (pieces : List (Instruction Int))
    (bytes : List UInt8) (offset : Nat → Nat) : Prop where
  first : offset 0 = base
  last : offset pieces.length = base + bytes.length
  rises : ∀ i < pieces.length, offset i < offset (i + 1)
  encoded : ∀ i piece, pieces[i]? = some piece →
    Encoded pool (offset i) piece (bytes.extract (offset i - base) (offset (i + 1) - base))

variable {pool : ConstantPool} {base : Nat} {piece : Instruction Int}
  {pieces : List (Instruction Int)} {bytes : List UInt8} {offset : Nat → Nat}

theorem Splits.mono (h : Splits pool base pieces bytes offset) {i j : Nat} (hij : i ≤ j)
    (hj : j ≤ pieces.length) : offset i ≤ offset j := by
  induction hij with
  | refl => exact Nat.le_refl _
  | @step j hij ih => exact Nat.le_trans (ih (Nat.le_of_lt hj)) (Nat.le_of_lt (h.rises j hj))

/-- What is cut out after the first bytes does not depend on them. -/
theorem extract_append {xs ys : List UInt8} {low high : Nat} (hlow : base + xs.length ≤ low)
    (hhigh : low ≤ high) : (xs ++ ys).extract (low - base) (high - base) =
      ys.extract (low - (base + xs.length)) (high - (base + xs.length)) := by
  rw [List.extract_eq_take_drop, List.extract_eq_take_drop,
    show low - base = xs.length + (low - (base + xs.length)) by omega, List.drop_length_add_append]
  congr 1
  omega

theorem splits_nil : Splits pool base [] bytes offset ↔ offset 0 = base ∧ bytes = [] := by
  constructor
  · intro h
    have hlast : offset 0 = base + bytes.length := h.last
    have hfirst := h.first
    exact ⟨hfirst, List.eq_nil_of_length_eq_zero (by omega)⟩
  · rintro ⟨hfirst, rfl⟩
    exact ⟨hfirst, hfirst, by simp, by simp⟩

theorem splits_cons : Splits pool base (piece :: pieces) bytes offset ↔
    offset 0 = base ∧ ∃ xs ys, bytes = xs ++ ys ∧ Encoded pool base piece xs ∧
      Splits pool (base + xs.length) pieces ys (fun i => offset (i + 1)) := by
  constructor
  · intro h
    have hfirst := h.first
    have hone : base < offset 1 := hfirst ▸ h.rises 0 (Nat.succ_pos _)
    have hlast := h.last
    have hle : offset 1 ≤ base + bytes.length :=
      hlast ▸ h.mono (Nat.succ_le_succ (Nat.zero_le _)) (Nat.le_refl _)
    have hpiece := h.encoded 0 piece rfl
    rw [hfirst, Nat.sub_self, List.extract_eq_take_drop, List.drop_zero, Nat.sub_zero] at hpiece
    have hlength : (bytes.take (offset 1 - base)).length = offset 1 - base :=
      List.length_take_of_le (by omega)
    refine ⟨hfirst, bytes.take (offset 1 - base), bytes.drop (offset 1 - base),
      (List.take_append_drop _ _).symm, hpiece, ?_⟩
    have hbase : base + (bytes.take (offset 1 - base)).length = offset 1 := by omega
    refine ⟨hbase.symm, ?_, fun i hi => h.rises (i + 1) (Nat.succ_lt_succ hi), fun i code hi => ?_⟩
    · rw [List.length_cons] at hlast
      rw [hlast, List.length_drop]
      omega
    · have hlt : i < pieces.length := (List.getElem?_eq_some_iff.mp hi).1
      have hcode := h.encoded (i + 1) code hi
      have hrises := h.rises (i + 1) (Nat.succ_lt_succ hlt)
      have hmono : offset 1 ≤ offset (i + 1) :=
        h.mono (Nat.succ_le_succ (Nat.zero_le i)) (Nat.le_of_lt (Nat.succ_lt_succ hlt))
      rwa [← List.take_append_drop (offset 1 - base) bytes, extract_append (by omega)
        (Nat.le_of_lt hrises)] at hcode
  · rintro ⟨hfirst, xs, ys, rfl, hpiece, h⟩
    have hone : offset 1 = base + xs.length := h.first
    have hpos := List.length_pos_iff.mpr hpiece.ne_nil
    refine ⟨hfirst, ?_, fun i hi => ?_, fun i code hi => ?_⟩
    · have hlast : offset (pieces.length + 1) = _ := h.last
      rw [List.length_cons, hlast, List.length_append]
      omega
    · cases i with
      | zero =>
        rw [hfirst, Nat.zero_add, hone]
        omega
      | succ i => exact h.rises i (Nat.lt_of_succ_lt_succ hi)
    · cases i with
      | zero =>
        cases hi
        rw [hfirst, hone, Nat.sub_self, Nat.add_sub_cancel_left, List.extract_eq_take_drop,
          List.drop_zero, Nat.sub_zero, List.take_left]
        exact hpiece
      | succ i =>
        have hcode : pieces[i]? = some code := hi
        have hlt : i < pieces.length := (List.getElem?_eq_some_iff.mp hcode).1
        have hlow : base + xs.length ≤ offset (i + 1) :=
          hone ▸ h.mono (Nat.zero_le i) (Nat.le_of_lt hlt)
        rw [extract_append hlow (Nat.le_of_lt (h.rises i hlt))]
        exact h.encoded i code hcode

/-! ## Cuts and what is read -/

/-- The instructions and their offsets as they are read, if no distance leads to before the code. -/
def located (offset : Nat → Nat) (pieces : List (Instruction Int)) : List (Nat × Instruction Nat) :=
  pieces.mapIdx fun i piece => (offset i, piece.mapTargets (targetAt (offset i)))

/-- No distance leads to before the code. -/
def Inside (offset : Nat → Nat) (pieces : List (Instruction Int)) : Prop :=
  ∀ i piece, pieces[i]? = some piece → ∀ distance ∈ piece.targets, 0 ≤ (offset i : Int) + distance

theorem Splits.formats (h : Splits pool base pieces bytes offset) (inside : Inside offset pieces) :
    Formats pool base (located offset pieces) bytes := by
  induction pieces generalizing base bytes offset with
  | nil => exact (splits_nil.mp h).2
  | cons piece pieces ih =>
    obtain ⟨rfl, xs, ys, rfl, hpiece, hrest⟩ := splits_cons.mp h
    rw [located, List.mapIdx_cons]
    exact ⟨xs, ys, rfl, hpiece.format (inside 0 piece rfl),
      ih hrest fun i code hi => inside (i + 1) code hi, rfl⟩

/-- Instructions that stand at these offsets, no two of them at the same one. -/
structure StandAt (items : List (Nat × Instruction Nat)) (offset : Nat → Nat) : Prop where
  distinct : (items.map (·.1)).Nodup
  starts : ∀ i item, items[i]? = some item → item.1 = offset i

/-- The distances of an instruction that was read. -/
def distances (item : Nat × Instruction Nat) : Instruction Int :=
  item.2.mapTargets (distanceTo item.1)

theorem located_eq_some {i : Nat} {item : Nat × Instruction Nat}
    (h : (located offset pieces)[i]? = some item) : ∃ piece, pieces[i]? = some piece ∧
      item = (offset i, piece.mapTargets (targetAt (offset i))) := by
  rw [located, List.getElem?_mapIdx, Option.map_eq_some_iff] at h
  obtain ⟨piece, hpiece, rfl⟩ := h
  exact ⟨piece, hpiece, rfl⟩

theorem map_distances_located (inside : Inside offset pieces) :
    (located offset pieces).map distances = pieces := by
  refine List.ext_getElem? fun i => ?_
  rw [List.getElem?_map, located, List.getElem?_mapIdx, Option.map_map]
  cases hi : pieces[i]? with
  | none => rfl
  | some piece =>
    refine congrArg some (Instruction.mapTargets_cancel fun distance hm => ?_)
    exact distanceTo_targetAt (inside i piece hi distance hm)

theorem Formats.splits {items : List (Nat × Instruction Nat)} (h : Formats pool base items bytes) :
    ∃ offset, Splits pool base (items.map distances) bytes offset ∧
      ∀ i item, items[i]? = some item → item.1 = offset i := by
  induction items generalizing base bytes with
  | nil => exact ⟨fun _ => base, splits_nil.mpr ⟨rfl, h⟩, by simp⟩
  | cons item items ih =>
    obtain ⟨xs, ys, hitem, hformat, hrest, rfl⟩ := h
    obtain ⟨offset, hsplits, hoffsets⟩ := ih hrest
    let starts : Nat → Nat := fun i => Nat.casesOn i base offset
    refine ⟨starts, splits_cons.mpr ⟨rfl, xs, ys, rfl, ?_, hsplits⟩, fun i other hi => ?_⟩
    · rw [distances, hitem]
      exact encoded_iff.mpr hformat
    · cases i with
      | zero =>
        cases hi
        exact hitem
      | succ i => exact hoffsets i other hi

theorem stream_of_error {cursor : Cursor} {seen : Array (Nat × Instruction Nat)} {e : Error}
    (more : cursor.position < cursor.data.size) (h : instruction pool cursor = .error e) :
    stream pool cursor seen = .error e := by
  rw [stream, if_pos more]
  split
  case h_1 e' he =>
    rw [h] at he
    cases he
    rfl
  case h_2 decoded rest he =>
    rw [h] at he
    cases he

theorem stream_of_ok {cursor rest : Cursor} {seen : Array (Nat × Instruction Nat)}
    {decoded : Instruction Nat} (more : cursor.position < cursor.data.size)
    (h : instruction pool cursor = .ok (decoded, rest)) :
    stream pool cursor seen = stream pool rest (seen.push (cursor.position, decoded)) := by
  rw [stream, if_pos more]
  split
  case h_1 e he =>
    rw [h] at he
    cases he
  case h_2 decoded' rest' he =>
    rw [h] at he
    cases he
    rfl

/-- Reading finds the first distance that leads to before the code. -/
theorem Splits.stream_refuses {cursor : Cursor} {seen : Array (Nat × Instruction Nat)}
    (h : Splits pool cursor.position pieces cursor.rest offset)
    (inside : cursor.position ≤ cursor.data.size) (outside : ¬ Inside offset pieces) :
    ∃ cause, stream pool cursor seen = .error (.malformed cause) := by
  induction pieces generalizing cursor seen offset with
  | nil => exact absurd (fun i piece hi => by cases hi) outside
  | cons piece pieces ih =>
    obtain ⟨hfirst, xs, ys, hrest, hpiece, htail⟩ := splits_cons.mp h
    have hreads : cursor.Reads xs ⟨cursor.data, cursor.position + xs.length⟩ :=
      ⟨⟨ys, hrest.symm⟩, rfl⟩
    have hmore : cursor.position < cursor.data.size := by
      have hlength := cursor.length_rest
      have hpos := List.length_pos_iff.mpr hpiece.ne_nil
      rw [hrest, List.length_append] at hlength
      omega
    by_cases before : ∃ distance ∈ piece.targets, (cursor.position : Int) + distance < 0
    · obtain ⟨cause, hcause⟩ := refuses_instruction hpiece before cursor rfl inside hreads.1
      exact ⟨cause, stream_of_error hmore hcause⟩
    · have hinside : ∀ distance ∈ piece.targets, 0 ≤ (cursor.position : Int) + distance :=
        fun distance hm => Int.not_lt.mp fun hlt => before ⟨distance, hm, hlt⟩
      have hread := (parses_instruction cursor rfl inside _ _).mpr
        ⟨xs, hpiece.format hinside, hreads⟩
      rw [stream_of_ok hmore hread]
      have hys := hreads.rest_eq
      rw [hrest] at hys
      rw [List.append_cancel_left hys] at htail
      refine ih htail (hreads.position_le inside) fun hothers => outside ?_
      intro i code hi
      cases i with
      | zero =>
        cases hi
        rw [hfirst]
        exact hinside
      | succ i => exact hothers i code hi

theorem Streams.unique {cursor : Cursor} {items items' : List (Nat × Instruction Nat)}
    (h : Streams pool cursor items) (h' : Streams pool cursor items') : items = items' := by
  have hok : stream pool cursor #[] = .ok items.toArray := stream_eq_ok.mpr ⟨items, h, rfl⟩
  have hok' : stream pool cursor #[] = .ok items'.toArray := stream_eq_ok.mpr ⟨items', h', rfl⟩
  rw [hok] at hok'
  exact congrArg Array.toList (Except.ok.inj hok')

end Decoding

/-! ## Resolved offsets -/

def Error.IsMalformed (e : Error) : Prop := ∃ cause, e = .malformed cause

/-- An instruction starts at this place. -/
def IsStart (count : Nat) (offset : Nat → Nat) (place : Int) : Prop :=
  ∃ j < count, (offset j : Int) = place

/-- The handle names the instruction that starts at this place. -/
def NamesStart (count : Nat) (offset : Nat → Nat) (handle : Handle) (place : Nat) : Prop :=
  handle.index < count ∧ offset handle.index = place

namespace Code

/-- The code array is cut into instructions at these offsets. -/
def Splits (code : Code) (pool : ConstantPool) (pieces : List (Instruction Int))
    (offset : Nat → Nat) : Prop :=
  Decoding.Splits pool 0 pieces code.bytes.toList offset

/-- Every distance and every offset of the exception table leads to the start of an instruction, or
to the end of the code where a range may end there. -/
structure InRange (code : Code) (pieces : List (Instruction Int)) (offset : Nat → Nat) : Prop where
  targets : ∀ i piece, pieces[i]? = some piece → ∀ distance ∈ piece.targets,
    IsStart pieces.length offset (offset i + distance)
  starts : ∀ entry ∈ code.exceptionTable.toList, IsStart pieces.length offset entry.start.toNat
  stops : ∀ entry ∈ code.exceptionTable.toList, entry.stop.toNat = code.bytes.size ∨
    IsStart pieces.length offset entry.stop.toNat
  handlers : ∀ entry ∈ code.exceptionTable.toList, IsStart pieces.length offset entry.handler.toNat

/-- An exception handler whose handles name the instructions at the offsets of an entry. It has no
stop exactly if the entry ends with the code. -/
structure EntryResolves (code : Code) (count : Nat) (offset : Nat → Nat) (entry : ExceptionEntry)
    (resolved : ExceptionHandler) : Prop where
  start : NamesStart count offset resolved.start entry.start.toNat
  stop : ∀ stop ∈ resolved.stop, NamesStart count offset stop entry.stop.toNat
  open_end : resolved.stop = none ↔ entry.stop.toNat = code.bytes.size
  handler : NamesStart count offset resolved.handler entry.handler.toNat
  catchType : resolved.catchType = entry.catchType

/-- The lines of the listing are the instructions of the code in their order, each target named by
the handle at its distance, and so are the offsets of the exception table. -/
structure Resolves (code : Code) (pieces : List (Instruction Int)) (offset : Nat → Nat)
    (listing : Listing) : Prop where
  size_eq : listing.size = pieces.length
  lines : ∀ i piece, pieces[i]? = some piece → ∃ instruction : Instruction Handle,
    listing.lines[i]? = some ⟨⟨i⟩, instruction, false⟩ ∧
    (∀ target ∈ instruction.targets, target.index < pieces.length) ∧
    piece = instruction.mapTargets fun target => (offset target.index : Int) - offset i
  handlers : List.Forall₂ (code.EntryResolves pieces.length offset) code.exceptionTable.toList
    listing.handlers.toList

end Code

namespace Decoding

variable {pool : ConstantPool} {items : List (Nat × Instruction Nat)} {offset : Nat → Nat}
  {count length place : Nat} {handle : Handle}

/-- Resolving finds the instruction that starts at an offset. -/
theorem resolveOffset_eq_ok (standAt : StandAt items offset) :
    resolveOffset (boundaries items.toArray) length place = .ok handle ↔
      NamesStart items.length offset handle place := by
  have hfound : (boundaries items.toArray)[place]? = some handle.index ↔
      NamesStart items.length offset handle place := by
    rw [boundaries_eq_some standAt.distinct]
    constructor
    · rintro ⟨code, hi⟩
      exact ⟨(List.getElem?_eq_some_iff.mp hi).1, (standAt.starts _ _ hi).symm⟩
    · rintro ⟨hlt, rfl⟩
      have hi := List.getElem?_eq_getElem hlt
      exact ⟨_, by rw [hi, ← standAt.starts _ _ hi]⟩
  rw [← hfound]
  unfold resolveOffset
  cases (boundaries items.toArray)[place]? with
  | none => simp
  | some index =>
    simp only [Except.ok.injEq, Option.some.injEq]
    exact ⟨fun h => h ▸ rfl, fun h => h ▸ rfl⟩

theorem succeeds_resolveOffset (standAt : StandAt items offset)
    (h : IsStart items.length offset place) :
    Succeeds (resolveOffset (boundaries items.toArray) length place) := by
  obtain ⟨j, hj, hplace⟩ := h
  have hnames : NamesStart items.length offset ⟨j⟩ place := ⟨hj, Int.ofNat.inj hplace⟩
  rw [(resolveOffset_eq_ok standAt).mpr hnames]
  exact .ok _

theorem malformed_resolveOffset (table : Std.HashMap Nat Nat) :
    FailsOnly Error.IsMalformed (resolveOffset table length place) := by
  unfold resolveOffset
  split
  · exact .ok _
  · exact .error ⟨_, rfl⟩

theorem failsOnly_mapTargetsM {allowed : Error → Prop} {resolve : Nat → Except Error Handle}
    {code : Instruction Nat} (h : ∀ target ∈ code.targets, FailsOnly allowed (resolve target)) :
    FailsOnly allowed (code.mapTargetsM resolve) := by
  cases code with
  | branch condition target | jump target | subroutine target =>
    exact (h target (List.mem_singleton.mpr rfl)).bind fun _ _ => .ok _
  | switch kind default cases =>
    obtain ⟨hdefault, hcases⟩ := List.forall_mem_cons.mp h
    refine hdefault.bind fun _ _ => .bind (.mapM fun case hm => ?_) fun _ _ => .ok _
    exact (hcases case.2 (List.mem_map_of_mem hm)).bind fun _ _ => .ok _
  | _ => exact .ok _

theorem failsOnly_exceptionHandler {allowed : Error → Prop} {resolve : Nat → Except Error Handle}
    {entry : ExceptionEntry} (start : FailsOnly allowed (resolve entry.start.toNat))
    (stop : entry.stop.toNat ≠ length → FailsOnly allowed (resolve entry.stop.toNat))
    (handler : FailsOnly allowed (resolve entry.handler.toNat)) :
    FailsOnly allowed (exceptionHandler resolve length entry) := by
  refine start.bind fun _ _ => ?_
  dsimp only
  split
  · rw [Outcome.pure_eq_ok, Outcome.ok_bind]
    exact handler.bind fun _ _ => .ok _
  case isFalse hne =>
    rw [map_eq_pure_bind]
    exact ((stop hne).bind fun _ _ => .ok _).bind fun _ _ => handler.bind fun _ _ => .ok _

end Decoding

namespace Code

variable {code : Code} {pool : ConstantPool} {pieces : List (Instruction Int)} {offset : Nat → Nat}
  {items : List (Nat × Instruction Nat)} {listing : Listing}

/-- Once the instructions are read, decoding fails only where an offset cannot be resolved. -/
theorem failsOnly_decode {allowed : Error → Prop}
    (streams : Decoding.Streams pool (.ofBytes code.bytes) items)
    (targets : ∀ item ∈ items, ∀ target ∈ item.2.targets, FailsOnly allowed
      (Decoding.resolveOffset (Decoding.boundaries items.toArray) code.bytes.size target))
    (entries : ∀ entry ∈ code.exceptionTable.toList, FailsOnly allowed
      (Decoding.exceptionHandler (Decoding.resolveOffset (Decoding.boundaries items.toArray)
        code.bytes.size) code.bytes.size entry)) :
    FailsOnly allowed (code.decode pool) := by
  have hstream : Decoding.stream pool (.ofBytes code.bytes) #[] = .ok items.toArray :=
    Decoding.stream_eq_ok.mpr ⟨items, streams, rfl⟩
  rw [decode, hstream, Outcome.ok_bind]
  refine .bind (.array_mapM fun item hm => ?_) fun _ _ => .bind (.array_mapM entries) fun _ _ =>
    .ok _
  exact Decoding.failsOnly_mapTargetsM (targets item hm)

theorem entryResolves_of_ok (standAt : Decoding.StandAt items offset) {entry : ExceptionEntry}
    {resolved : ExceptionHandler}
    (h : Decoding.exceptionHandler (Decoding.resolveOffset (Decoding.boundaries items.toArray)
      code.bytes.size) code.bytes.size entry = .ok resolved) :
    code.EntryResolves items.length offset entry resolved := by
  have hnames : ∀ {place handle}, Decoding.resolveOffset (Decoding.boundaries items.toArray)
      code.bytes.size place = .ok handle → NamesStart items.length offset handle place :=
    (Decoding.resolveOffset_eq_ok standAt).mp
  obtain ⟨start, hstart, h⟩ := Outcome.bind_eq_ok.mp h
  dsimp only at h
  split at h
  case isTrue hend =>
    rw [Outcome.pure_eq_ok, Outcome.ok_bind] at h
    obtain ⟨handler, hhandler, h⟩ := Outcome.bind_eq_ok.mp h
    cases h
    exact ⟨hnames hstart, nofun, ⟨fun _ => hend, fun _ => rfl⟩, hnames hhandler, rfl⟩
  case isFalse hend =>
    obtain ⟨stop, hstop, h⟩ := Outcome.bind_eq_ok.mp h
    obtain ⟨last, hlast, rfl⟩ := Outcome.map_eq_ok.mp hstop
    obtain ⟨handler, hhandler, h⟩ := Outcome.bind_eq_ok.mp h
    cases h
    refine ⟨hnames hstart, fun stop hm => ?_, ⟨nofun, fun he => absurd he hend⟩,
      hnames hhandler, rfl⟩
    cases hm
    exact hnames hlast

/-- What was read and resolved, with the distances of what was read. -/
theorem Decodes.resolves {instructions : List (Instruction Handle)}
    {handlers : List ExceptionHandler}
    (h : code.Decodes pool items instructions handlers) (standAt : Decoding.StandAt items offset) :
    code.Resolves (items.map Decoding.distances) offset
      ⟨(numbered instructions).toArray, instructions.length, handlers.toArray, false⟩ where
  size_eq := by
    rw [Listing.size, List.size_toArray, List.length_map, h.resolved.length_eq]
    simp [numbered]
  lines i piece hi := by
    rw [List.getElem?_map, Option.map_eq_some_iff] at hi
    obtain ⟨item, hitem, rfl⟩ := hi
    obtain ⟨instruction, hinstruction⟩ : ∃ instruction, instructions[i]? = some instruction :=
      ⟨_, List.getElem?_eq_getElem (h.resolved.length_eq ▸ (List.getElem?_eq_some_iff.mp hitem).1)⟩
    have hresolved := Outcome.forall₂_getElem? h.resolved hitem hinstruction
    have htargets : ∀ target handle, Decoding.resolveOffset (Decoding.boundaries items.toArray)
        code.bytes.size target = .ok handle → offset handle.index = target ∧
          handle.index < (items.map Decoding.distances).length := by
      intro target handle hr
      obtain ⟨hlt, hplace⟩ := (Decoding.resolveOffset_eq_ok standAt).mp hr
      exact ⟨hplace, by rwa [List.length_map]⟩
    obtain ⟨hcode, hbounds⟩ := Instruction.mapTargets_of_mapTargetsM htargets hresolved
    refine ⟨instruction, ?_, hbounds, ?_⟩
    · simp [numbered, hinstruction]
    · rw [Decoding.distances, ← hcode, Instruction.mapTargets_mapTargets,
        standAt.starts i item hitem]
      rfl
  handlers := by
    rw [List.length_map]
    exact h.handlers.imp fun _ _ => entryResolves_of_ok standAt

theorem Resolves.inRange (h : code.Resolves pieces offset listing) :
    code.InRange pieces offset where
  targets i piece hi distance hm := by
    obtain ⟨instruction, -, hbounds, rfl⟩ := h.lines i piece hi
    rw [Instruction.targets_mapTargets] at hm
    obtain ⟨target, ht, rfl⟩ := List.mem_map.mp hm
    exact ⟨target.index, hbounds target ht, by omega⟩
  starts entry hm := by
    obtain ⟨resolved, -, hentry⟩ := Outcome.exists_of_mem_right h.handlers.flip hm
    exact ⟨_, hentry.start.1, congrArg Nat.cast hentry.start.2⟩
  stops entry hm := by
    obtain ⟨resolved, -, hentry⟩ := Outcome.exists_of_mem_right h.handlers.flip hm
    cases hstop : resolved.stop with
    | none => exact .inl (hentry.open_end.mp hstop)
    | some stop =>
      have hnames := hentry.stop stop hstop
      exact .inr ⟨_, hnames.1, congrArg Nat.cast hnames.2⟩
  handlers entry hm := by
    obtain ⟨resolved, -, hentry⟩ := Outcome.exists_of_mem_right h.handlers.flip hm
    exact ⟨_, hentry.handler.1, congrArg Nat.cast hentry.handler.2⟩

theorem InRange.inside (h : code.InRange pieces offset) : Decoding.Inside offset pieces := by
  intro i piece hi distance hm
  obtain ⟨j, -, hj⟩ := h.targets i piece hi distance hm
  omega

/-- Bytes that are cut into instructions are read as such. -/
theorem Splits.streams (h : code.Splits pool pieces offset)
    (inside : Decoding.Inside offset pieces) :
    Decoding.Streams pool (.ofBytes code.bytes) (Decoding.located offset pieces) ∧
      Decoding.StandAt (Decoding.located offset pieces) offset := by
  have hformats := Decoding.Splits.formats h inside
  refine ⟨Decoding.streams_of_formats (Nat.zero_le _) hformats, hformats.nodup, fun i item hi => ?_⟩
  obtain ⟨piece, -, rfl⟩ := Decoding.located_eq_some hi
  rfl

theorem Splits.decode_refuses (h : code.Splits pool pieces offset)
    (outside : ¬ Decoding.Inside offset pieces) :
    ∃ cause, code.decode pool = .error (.malformed cause) := by
  obtain ⟨cause, hcause⟩ := Decoding.Splits.stream_refuses
    (show Decoding.Splits pool (Cursor.ofBytes code.bytes).position pieces _ offset from h)
    (Nat.zero_le _) outside
  exact ⟨cause, by rw [decode, hcause, Outcome.error_bind]⟩

/-- However code can be cut into instructions, what decodes resolves the cut. -/
theorem Splits.resolves (h : code.Splits pool pieces offset)
    (decoded : code.decode pool = .ok listing) : code.Resolves pieces offset listing := by
  have inside : Decoding.Inside offset pieces := by
    by_contra outside
    obtain ⟨cause, hcause⟩ := h.decode_refuses outside
    rw [hcause] at decoded
    cases decoded
  obtain ⟨streams, standAt⟩ := h.streams inside
  obtain ⟨items, instructions, handlers, decodes, rfl⟩ := decode_eq_ok.mp decoded
  obtain rfl := decodes.streams.unique streams
  rw [← Decoding.map_distances_located inside]
  exact decodes.resolves standAt

/-- Code that is cut into instructions decodes if all its offsets are in range. -/
theorem Splits.exists_decode (h : code.Splits pool pieces offset)
    (inRange : code.InRange pieces offset) :
    ∃ listing, code.decode pool = .ok listing := by
  obtain ⟨streams, standAt⟩ := h.streams inRange.inside
  have hlength : (Decoding.located offset pieces).length = pieces.length := List.length_mapIdx
  have hresolve : ∀ {place : Nat}, IsStart pieces.length offset place → Succeeds
      (Decoding.resolveOffset (Decoding.boundaries (Decoding.located offset pieces).toArray)
        code.bytes.size place) :=
    fun hstart => Decoding.succeeds_resolveOffset standAt (hlength.symm ▸ hstart)
  refine FailsOnly.exists_ok (failsOnly_decode streams (fun item hm target ht => ?_)
    fun entry hm => ?_)
  · obtain ⟨i, hi⟩ := List.mem_iff_getElem?.mp hm
    obtain ⟨piece, hpiece, rfl⟩ := Decoding.located_eq_some hi
    rw [Instruction.targets_mapTargets] at ht
    obtain ⟨distance, hd, rfl⟩ := List.mem_map.mp ht
    obtain ⟨j, hj, hplace⟩ := inRange.targets i piece hpiece distance hd
    refine hresolve ⟨j, hj, ?_⟩
    rw [Decoding.targetAt]
    omega
  · refine Decoding.failsOnly_exceptionHandler (hresolve (inRange.starts entry hm)) (fun hne => ?_)
      (hresolve (inRange.handlers entry hm))
    exact hresolve ((inRange.stops entry hm).resolve_left hne)

/-- Code that is cut into instructions decodes, or is found malformed. -/
theorem Splits.malformed_decode (h : code.Splits pool pieces offset) :
    FailsOnly Error.IsMalformed (code.decode pool) := by
  by_cases inside : Decoding.Inside offset pieces
  · refine failsOnly_decode (h.streams inside).1
      (fun _ _ _ _ => Decoding.malformed_resolveOffset _) fun entry _ => ?_
    exact Decoding.failsOnly_exceptionHandler (Decoding.malformed_resolveOffset _)
      (fun _ => Decoding.malformed_resolveOffset _) (Decoding.malformed_resolveOffset _)
  · obtain ⟨cause, hcause⟩ := h.decode_refuses inside
    rw [hcause]
    exact .error ⟨cause, rfl⟩

/-- Decoding partitions the code array and resolves every offset exactly. The lines of a listing
that it gives stand for the bytes between strictly rising offsets from the start to the end of the
code, and all that refers to an offset names the line that starts there. Code that can be cut into
instructions is decoded if all its distances and offsets lead to the start of one of them, or to the
end of the code where a range may end there; otherwise it is found malformed. -/
theorem decode_partitions (code : Code) (pool : ConstantPool) :
    (∀ listing, code.decode pool = .ok listing → ∃ pieces offset,
      code.Splits pool pieces offset ∧ code.Resolves pieces offset listing) ∧
    ∀ pieces offset, code.Splits pool pieces offset →
      (code.InRange pieces offset →
        ∃ listing, code.decode pool = .ok listing ∧ code.Resolves pieces offset listing) ∧
      (¬ code.InRange pieces offset → ∃ cause, code.decode pool = .error (.malformed cause)) := by
  refine ⟨fun listing decoded => ?_,
    fun pieces offset splits => ⟨fun inRange => ?_, fun outside => ?_⟩⟩
  · obtain ⟨items, instructions, handlers, decodes, rfl⟩ := decode_eq_ok.mp decoded
    have hformats : Decoding.Formats pool 0 items code.bytes.toList :=
      Decoding.formats_of_streams decodes.streams (Nat.zero_le _)
    obtain ⟨offset, hsplits, hplaced⟩ := hformats.splits
    exact ⟨_, offset, hsplits, decodes.resolves ⟨hformats.nodup, hplaced⟩⟩
  · obtain ⟨listing, decoded⟩ := splits.exists_decode inRange
    exact ⟨listing, decoded, splits.resolves decoded⟩
  · cases decoded : code.decode pool with
    | ok listing => exact absurd (splits.resolves decoded).inRange outside
    | error e =>
      obtain ⟨cause, rfl⟩ := splits.malformed_decode e decoded
      exact ⟨cause, rfl⟩

/-- A jump into its own operands. -/
def inward : Code := ⟨0, 0, #[0xA7, 0x00, 0x01], #[]⟩

/-- The jump is an instruction of three bytes, but nothing starts at its second byte. -/
theorem decode_partitions_inward : inward.Splits .empty [.jump 1] (3 * ·) ∧
    ∃ cause, inward.decode .empty = .error (.malformed cause) := by
  have hshape : Shape.ofOpcode 0xA7 = .jump false := by decide +kernel
  have hencoded : Decoding.Encoded .empty 0 (.jump 1) [0xA7, 0x00, 0x01] := by
    refine ⟨0xA7, [0x00, 0x01], rfl, ?_⟩
    rw [hshape]
    exact ⟨1, rfl, by decide, by decide +kernel⟩
  have hsplits : inward.Splits .empty [.jump 1] (3 * ·) :=
    Decoding.splits_cons.mpr ⟨rfl, _, [], rfl, hencoded, Decoding.splits_nil.mpr ⟨rfl, rfl⟩⟩
  refine ⟨hsplits, ((decode_partitions inward .empty).2 _ _ hsplits).2 fun inRange => ?_⟩
  obtain ⟨j, -, hj⟩ := inRange.targets 0 (.jump 1) rfl 1 (List.mem_singleton.mpr rfl)
  dsimp only at hj
  omega

end Code

end BytecodeFold
