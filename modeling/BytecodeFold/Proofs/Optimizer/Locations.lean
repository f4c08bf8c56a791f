import BytecodeFold.Proofs.Codec.Sizes
import BytecodeFold.Proofs.Fold.Reach
import BytecodeFold.Proofs.Listing.Positions
import BytecodeFold.Proofs.Optimizer.WellFormed

/-!
# Where events are located

The location of an event is the offset of the left operand in the first layout of the method. That
is where the operand was read if the layout gives every line before it as many bytes as it was read
from, and so always in code whose instructions have their shortest forms. In other code the location
can be that of another instruction.
-/

namespace BytecodeFold

/-! ## Layouts that keep the offsets of the code -/

namespace Listing

variable {items : List (Nat × Instruction Nat)} {lines : List Line} {offset count : Nat}

/-- The first lines take as many bytes as the instructions that they were read from. -/
def KeepsForms (items : List (Nat × Instruction Nat)) (lines : List Line) (count : Nat) : Prop :=
  ∀ i < count, ∀ item next line, items[i]? = some item → items[i + 1]? = some next →
    lines[i]? = some line → next.1 = item.1 + line.instruction.size item.1 line.long

theorem getElem?_placedFrom {i : Nat} {pair : Line × Nat}
    (h : (placedFrom offset lines)[i]? = some pair) : lines[i]? = some pair.1 := by
  conv => lhs; rw [← map_placedFrom offset lines]
  rw [List.getElem?_map, h]
  rfl

theorem offset_succ_of_placedFrom {i : Nat} {pair next : Line × Nat}
    (h : (placedFrom offset lines)[i]? = some pair)
    (hnext : (placedFrom offset lines)[i + 1]? = some next) :
    next.2 = pair.2 + pair.1.instruction.size pair.2 pair.1.long := by
  induction lines generalizing offset i with
  | nil => cases h
  | cons line rest ih =>
    cases i with
    | zero =>
      cases h
      cases rest with
      | nil => cases hnext
      | cons following rest =>
        cases hnext
        rfl
    | succ i => exact ih h hnext

/-- Lines stand where they were read as long as they keep their forms. -/
theorem KeepsForms.offset_eq (h : KeepsForms items lines count)
    (first : ∀ item, items[0]? = some item → item.1 = 0) {i : Nat} (hi : i ≤ count)
    {item : Nat × Instruction Nat} (hitem : items[i]? = some item) {pair : Line × Nat}
    (hpair : (placedFrom 0 lines)[i]? = some pair) : pair.2 = item.1 := by
  induction i generalizing item pair with
  | zero =>
    cases lines with
    | nil => cases hpair
    | cons line rest =>
      cases hpair
      exact (first item hitem).symm
  | succ i ih =>
    obtain ⟨hlt, -⟩ := List.getElem?_eq_some_iff.mp hitem
    obtain ⟨hlt', -⟩ := List.getElem?_eq_some_iff.mp hpair
    have hprevious := List.getElem?_eq_getElem (Nat.lt_of_succ_lt hlt)
    have hbefore := List.getElem?_eq_getElem (Nat.lt_of_succ_lt hlt')
    have hoffset := ih (Nat.le_of_succ_le hi) hprevious hbefore
    rw [offset_succ_of_placedFrom hbefore hpair, hoffset]
    exact (h i hi _ item _ hprevious hitem (getElem?_placedFrom hbefore)).symm

end Listing

theorem Decoding.Formats.first {pool : ConstantPool} {items : List (Nat × Instruction Nat)}
    {bytes : List UInt8} {offset : Nat} (h : Formats pool offset items bytes)
    {item : Nat × Instruction Nat} (hitem : items[0]? = some item) : item.1 = offset := by
  cases items with
  | nil => cases hitem
  | cons head rest =>
    cases hitem
    obtain ⟨chunk, rest, hoffset, -⟩ := h
    exact hoffset

/-- Every instruction takes the bytes up to the next one. -/
theorem Decoding.Formats.extent {pool : ConstantPool} {items : List (Nat × Instruction Nat)}
    {bytes : List UInt8} {offset i : Nat} (h : Formats pool offset items bytes)
    {item : Nat × Instruction Nat} (hitem : items[i]? = some item) :
    ∃ chunk, Format pool item.1 item.2 chunk ∧
      (items[i + 1]?.map (·.1)).getD (offset + bytes.length) = item.1 + chunk.length := by
  induction items generalizing offset bytes i with
  | nil => cases hitem
  | cons head rest ih =>
    obtain ⟨chunk, tail, rfl, hformat, hrest, rfl⟩ := h
    rw [List.length_append, ← Nat.add_assoc]
    cases i with
    | zero =>
      cases hitem
      refine ⟨chunk, hformat, ?_⟩
      cases rest with
      | nil =>
        rw [show tail = [] from hrest]
        rfl
      | cons next rest =>
        obtain ⟨-, -, hnext, -⟩ := hrest
        exact hnext
    | succ i => exact ih hrest hitem

namespace Code

variable {code : Code} {pool : ConstantPool} {listing : Listing} {handle : Handle} {offset : Nat}

/-- The instruction with this handle was read at this offset. -/
def ReadAt (code : Code) (pool : ConstantPool) (handle : Handle) (offset : Nat) : Prop :=
  ∃ stream instruction, Decoding.stream pool (.ofBytes code.bytes) #[] = .ok stream ∧
    stream[handle.index]? = some (offset, instruction)

/-- The first lines of the listing take as many bytes as they were read from. -/
def KeepsForms (code : Code) (pool : ConstantPool) (listing : Listing) (count : Nat) : Prop :=
  ∀ stream, Decoding.stream pool (.ofBytes code.bytes) #[] = .ok stream →
    Listing.KeepsForms stream.toList listing.lines.toList count

/-- Every instruction takes no more bytes than its shortest form, which is a short one for jumps. -/
def IsShortest (code : Code) (pool : ConstantPool) : Prop :=
  ∀ stream, Decoding.stream pool (.ofBytes code.bytes) #[] = .ok stream →
    ∀ (i : Nat) (item : Nat × Instruction Nat), stream[i]? = some item →
      (stream[i + 1]?.map (·.1)).getD code.bytes.size = item.1 + item.2.size item.1 false

theorem laidOut_of_load (load : code.load pool = .ok listing) : listing.laidOut = true := by
  obtain ⟨decoded, length, -, hlayout⟩ := Code.load_eq_ok.mp load
  exact (Listing.layout_eq_ok hlayout).1.laidOut

/-- Code that was decoded and laid out: the stream that was read and the instructions of the lines,
which are named by their places in the stream. -/
structure Loaded (code : Code) (pool : ConstantPool) (listing : Listing)
    (items : List (Nat × Instruction Nat)) (instructions : List (Instruction Handle)) : Prop where
  stream_eq : Decoding.stream pool (.ofBytes code.bytes) #[] = .ok items.toArray
  formats : Decoding.Formats pool 0 items code.bytes.toList
  reads : ∀ table, Decoding.Locates table items →
    List.Forall₂ (Listing.ReadsAs table) items (numbered instructions)
  layout : ∃ (decoded : Listing) (length : Nat), decoded.lines.toList = numbered instructions ∧
    decoded.layout = (.ok length, listing)

theorem loaded_of_load (load : code.load pool = .ok listing) :
    ∃ items instructions, code.Loaded pool listing items instructions := by
  obtain ⟨decoded, length, hdecode, hlayout⟩ := Code.load_eq_ok.mp load
  obtain ⟨items, instructions, handlers, ⟨hstreams, hresolved, -⟩, rfl⟩ :=
    Code.decode_eq_ok.mp hdecode
  have hformats : Decoding.Formats pool 0 items code.bytes.toList :=
    Decoding.formats_of_streams hstreams (Nat.zero_le _)
  exact ⟨items, instructions, Decoding.stream_eq_ok.mpr ⟨items, hstreams, rfl⟩, hformats,
    fun table hlocates => Listing.readsAs_of_locates hlocates hformats.nodup hresolved,
    _, length, rfl, hlayout⟩

namespace Loaded

variable {items : List (Nat × Instruction Nat)} {instructions : List (Instruction Handle)}

theorem length_eq (loaded : code.Loaded pool listing items instructions) :
    items.length = instructions.length := by
  rw [(loaded.reads _ (Decoding.locates_starts items)).length_eq, numbered, List.length_mapIdx]

/-- Lines are named by their places in the stream. -/
theorem handle_eq (loaded : code.Loaded pool listing items instructions) {i : Nat} {line : Line}
    (h : listing.lines.toList[i]? = some line) : line.handle = ⟨i⟩ ∧ i < items.length := by
  obtain ⟨decoded, length, hlines, hlayout⟩ := loaded.layout
  obtain ⟨-, -, hsame⟩ := Listing.layout_eq_ok hlayout
  have hhandles := hsame.map_handle
  rw [hlines, handles_numbered] at hhandles
  have hat : some line.handle = ((List.range instructions.length).map Handle.mk)[i]? := by
    rw [← hhandles, List.getElem?_map, h]
    rfl
  obtain ⟨hlt, hline⟩ := List.getElem?_eq_some_iff.mp hat.symm
  simp only [List.length_map, List.length_range] at hlt
  simp only [List.getElem_map, List.getElem_range] at hline
  exact ⟨hline.symm, loaded.length_eq ▸ hlt⟩

end Loaded

/-- A line is where it was read if all lines before it keep their forms. -/
theorem KeepsForms.readAt (keeps : code.KeepsForms pool listing handle.index)
    (load : code.load pool = .ok listing) (h : listing.offsets[handle]? = some offset) :
    code.ReadAt pool handle offset := by
  obtain ⟨items, instructions, loaded⟩ := loaded_of_load load
  rw [Listing.offsets_of_laidOut (laidOut_of_load load),
    Listing.offsets_eq_some (Code.regular_of_load load).distinct] at h
  obtain ⟨line, hm, rfl⟩ := h
  obtain ⟨i, hpair⟩ := List.mem_iff_getElem?.mp hm
  obtain ⟨hhandle, hlt⟩ := loaded.handle_eq (Listing.getElem?_placedFrom hpair)
  rw [hhandle] at keeps ⊢
  have hitem := List.getElem?_eq_getElem hlt
  have hoffset : offset = items[i].1 := (keeps _ loaded.stream_eq).offset_eq
    (fun _ => loaded.formats.first) (Nat.le_refl _) hitem hpair
  rw [hoffset]
  exact ⟨_, items[i].2, loaded.stream_eq, by rw [List.getElem?_toArray, hitem]⟩

end Code

/-! ## Shortest forms -/

/-- A layout keeps the lines if nothing has to be widened at first. -/
theorem Listing.lines_of_layout {decoded laid : Listing} {length : Nat}
    (h : decoded.layout = (.ok length, laid))
    (near : ∀ pair ∈ placedFrom 0 decoded.lines.toList,
      widen (place decoded.lines).offsets pair.1 pair.2 = .ok pair.1) :
        laid.lines = decoded.lines := by
  cases hround : layoutRound decoded.handlers decoded.lines with
  | error e =>
    rw [layout, layoutLines, hround] at h
    cases h
  | ok result =>
    obtain ⟨length', wider⟩ := result
    obtain ⟨-, -, hwide, -⟩ := layoutRound_eq_ok.mp hround
    have hsame : wider = decoded.lines := by
      refine Array.toList_inj.mp ?_
      conv => rhs; rw [← map_placedFrom 0 decoded.lines.toList]
      refine (List.forall₂_eq_eq_eq ▸ (List.forall₂_map_left_iff.mpr ?_)).symm
      refine Outcome.forall₂_imp_of_mem hwide ?_
      intro pair hm line hline
      exact Except.ok.inj ((near pair hm).symm.trans hline)
    rw [hsame] at hround
    rw [layout_of_unchanged hround] at h
    cases h
    rfl

namespace Code

variable {code : Code} {pool : ConstantPool} {listing : Listing}
  {items : List (Nat × Instruction Nat)} {instructions : List (Instruction Handle)}

/-- Shortest forms reach their targets, jumps with two bytes. -/
theorem IsShortest.reach (shortest : code.IsShortest pool)
    (loaded : code.Loaded pool listing items instructions) {i : Nat} {item : Nat × Instruction Nat}
    (hitem : items[i]? = some item) {target : Nat} (ht : target ∈ item.2.targets) :
    item.2.isSwitch = true ∨ fitsSigned 16 ((target : Int) - item.1) = true := by
  obtain ⟨chunk, hformat, hextent⟩ := loaded.formats.extent hitem
  rw [Nat.zero_add, Array.length_toList] at hextent
  have hsize := shortest _ loaded.stream_eq i item (by rw [List.getElem?_toArray, hitem])
  rw [List.getElem?_toArray, hextent] at hsize
  rcases hformat.hasRoom.reach target ht with hswitch | hfits | ⟨hjump, hroom⟩
  · exact .inl hswitch
  · exact .inr hfits
  · -- a long jump is longer than its short form
    have hthree : item.2.size item.1 false = 3 := by
      cases hi : item.2 with
      | jump target | subroutine target => rfl
      | _ =>
        rw [hi] at hjump
        cases hjump
    omega

/-- Lines that were decoded from shortest forms keep them. -/
theorem IsShortest.keepsForms_numbered (shortest : code.IsShortest pool)
    (loaded : code.Loaded pool listing items instructions) (count : Nat) :
    Listing.KeepsForms items (numbered instructions) count := by
  intro i _ item next line hitem hnext hline
  have hread :=
    Outcome.forall₂_getElem? (loaded.reads _ (Decoding.locates_starts items)) hitem hline
  have hsize := shortest _ loaded.stream_eq i item (by rw [List.getElem?_toArray, hitem])
  rw [List.getElem?_toArray, hnext] at hsize
  rw [hread.short, ← Instruction.size_mapTargets (Encoding.placeOf (Decoding.starts items)),
    hread.instruction_eq]
  exact hsize

theorem IsShortest.locates (shortest : code.IsShortest pool)
    (loaded : code.Loaded pool listing items instructions) :
    Decoding.Locates (Listing.place (numbered instructions).toArray).offsets items := by
  refine Listing.locates_offsets (List.ext_getElem (by simp [Listing.length_placedFrom, numbered,
    loaded.length_eq]) fun i hi hi' => ?_)
  rw [List.length_map] at hi hi'
  rw [List.getElem_map, List.getElem_map]
  exact (shortest.keepsForms_numbered loaded i).offset_eq (fun _ => loaded.formats.first)
    (Nat.le_refl _) (List.getElem?_eq_getElem hi') (List.getElem?_eq_getElem hi)

/-- Code in shortest forms is laid out as it was read. -/
theorem IsShortest.keepsForms (shortest : code.IsShortest pool)
    (load : code.load pool = .ok listing) (count : Nat) : code.KeepsForms pool listing count := by
  obtain ⟨items, instructions, loaded⟩ := loaded_of_load load
  obtain ⟨decoded, length, hlines, hlayout⟩ := loaded.layout
  have hlocates := shortest.locates loaded
  have hreads := loaded.reads _ hlocates
  have harray : decoded.lines = (numbered instructions).toArray := by rw [← hlines]
  rw [← harray] at hlocates hreads
  have hsame : listing.lines = decoded.lines := by
    refine Listing.lines_of_layout hlayout fun pair hm => Listing.widen_of_near fun target ht => ?_
    obtain ⟨i, hpair⟩ := List.mem_iff_getElem?.mp hm
    have hline := Listing.getElem?_placedFrom hpair
    obtain ⟨item, hitem⟩ : ∃ item, items[i]? = some item := by
      rw [hlines] at hline
      obtain ⟨hlt, -⟩ := List.getElem?_eq_some_iff.mp hline
      rw [numbered, List.length_mapIdx, ← loaded.length_eq] at hlt
      exact ⟨_, List.getElem?_eq_getElem hlt⟩
    have hread := Outcome.forall₂_getElem? hreads hitem (hlines ▸ hline)
    have hdistinct : (decoded.lines.toList.map (·.handle)).Nodup := by
      rw [hlines]
      exact nodup_numbered instructions
    have hoffset : pair.2 = item.1 := by
      have hplace := (Listing.offsets_eq_some hdistinct).mpr ⟨pair.1, hm, rfl⟩
      exact Option.some.inj (hplace.symm.trans hread.offset_eq)
    refine ⟨_, hread.placed target ht, ?_⟩
    rw [hoffset,
      ← Instruction.isSwitch_mapTargets (Encoding.placeOf (Listing.place decoded.lines).offsets),
      hread.instruction_eq]
    refine shortest.reach loaded hitem ?_
    rw [← hread.instruction_eq, Instruction.targets_mapTargets]
    exact List.mem_map_of_mem ht
  intro stream hstream
  cases loaded.stream_eq.symm.trans hstream
  rw [hsame, hlines]
  exact shortest.keepsForms_numbered loaded count

end Code

/-! ## Events -/

/-- Events are located by the first layout. Whatever is recorded about a match while a method is
optimized by a schedule of the two folds has as its location the offset of the left operand in the
listing that was loaded, also after other folds. The left operand was read there if the layout gives
the lines before it as many bytes as they were read from, and so if the code is in shortest
forms. -/
theorem optimizeMethod_locations {schedule : Schedule} {keep : Bool} {method : Method} {code : Code}
    {pool : ConstantPool} {log log' : EventLog} {outcome : Except Error (Method × ConstantPool)}
    (folding : ∀ pass ∈ schedule.passes, pass ∈ foldPasses) (hcode : method.code = some code)
    (h : schedule.optimizeMethod keep method pool log = (outcome, log')) :
    log.Adds (fun event =>
      event.kind = .constantFolded ∨ event.kind = .comparisonFolded ∨ event.kind = .foldSkipped →
        ∃ listing session left offset, code.load pool = .ok listing ∧
          (Schedule.opening method pool log listing).Reaches schedule.passes session ∧
          event.Reports session.listing left ∧ event.location = some offset ∧
          listing.position? left = some offset ∧
          (code.KeepsForms pool listing left.index → code.ReadAt pool left offset) ∧
          (code.IsShortest pool → code.ReadAt pool left offset)) log' := by
  have stages := Schedule.stages_of_optimizeMethod hcode h
  cases hload : code.load pool with
  | error e =>
    cases stages with
    | unreadable load => exact .refl _
    | failed load | unchanged load | unfinished load | optimized load =>
      rw [hload] at load
      cases load
  | ok listing =>
    obtain ⟨count, session, hrun, hverdict⟩ := stages.adds hload
    refine ((Schedule.reaches_of_run hrun).events folding).2.2.mono (fun event hevent => ?_)
      |>.trans (hverdict.mono fun event hevent => ?_)
    · intro hkind
      rcases hevent.about with hwarning | ⟨mid, left, hreaches, hreports, hlocation⟩
      · rw [hwarning] at hkind
        rcases hkind with hkind | hkind | hkind <;> cases hkind
      · have hregular := Code.regular_of_load hload
        have hleft := hreaches.handles folding hregular left hreports.left_mem
        obtain ⟨before, line, after, cut, rfl⟩ := Listing.exists_cut hleft
        have hlaidOut := Code.laidOut_of_load hload
        have hoffset := cut.offsets_eq hregular.distinct hlaidOut
        have hread := fun keeps : code.KeepsForms pool listing line.handle.index =>
          keeps.readAt hload hoffset
        exact ⟨listing, mid, line.handle, _, rfl, hreaches, hreports, hlocation.trans hoffset,
          cut.position?_eq hregular.distinct hlaidOut, hread,
          fun shortest => hread (shortest.keepsForms hload _)⟩
    · intro hkind
      rcases hevent with hevent | hevent <;> rw [hevent] at hkind <;>
        rcases hkind with hkind | hkind | hkind <;> cases hkind

/-! ## Folds behind a division by zero -/

/-- Stores `3 / 0` and `3 & 2`, and returns `5 & 4`. -/
def mixture : Code where
  maxStack := 2
  maxLocals := 2
  bytes := #[0x06, 0x03, 0x6C, 0x3B, 0x06, 0x05, 0x7E, 0x3C, 0x08, 0x07, 0x7E, 0xAC]
  exceptionTable := #[]

/-- The instructions of `mixture`, of one byte each. -/
def mixtureItems : List (Nat × Instruction Nat) :=
  [(0, .push (.int 3) .int), (1, .push (.int 0) .int), (2, .arithmetic .div .int),
    (3, .store 0 .int), (4, .push (.int 3) .int), (5, .push (.int 2) .int),
    (6, .arithmetic .and .int), (7, .store 1 .int), (8, .push (.int 5) .int),
    (9, .push (.int 4) .int), (10, .arithmetic .and .int), (11, .other .intReturn)]

def mixtureListing : Listing where
  lines := #[⟨⟨0⟩, .push (.int 3) .int, false⟩, ⟨⟨1⟩, .push (.int 0) .int, false⟩,
    ⟨⟨2⟩, .arithmetic .div .int, false⟩, ⟨⟨3⟩, .store 0 .int, false⟩,
    ⟨⟨4⟩, .push (.int 3) .int, false⟩, ⟨⟨5⟩, .push (.int 2) .int, false⟩,
    ⟨⟨6⟩, .arithmetic .and .int, false⟩, ⟨⟨7⟩, .store 1 .int, false⟩,
    ⟨⟨8⟩, .push (.int 5) .int, false⟩, ⟨⟨9⟩, .push (.int 4) .int, false⟩,
    ⟨⟨10⟩, .arithmetic .and .int, false⟩, ⟨⟨11⟩, .other .intReturn, false⟩]
  fresh := 12
  handlers := #[]
  laidOut := true

/-- `mixtureListing` with its first conjunction folded. -/
def mixtureOnce : Listing where
  lines := #[⟨⟨0⟩, .push (.int 3) .int, false⟩, ⟨⟨1⟩, .push (.int 0) .int, false⟩,
    ⟨⟨2⟩, .arithmetic .div .int, false⟩, ⟨⟨3⟩, .store 0 .int, false⟩,
    ⟨⟨4⟩, .loadConstant 1 false, false⟩, ⟨⟨7⟩, .store 1 .int, false⟩,
    ⟨⟨8⟩, .push (.int 5) .int, false⟩, ⟨⟨9⟩, .push (.int 4) .int, false⟩,
    ⟨⟨10⟩, .arithmetic .and .int, false⟩, ⟨⟨11⟩, .other .intReturn, false⟩]
  fresh := 12
  handlers := #[]
  laidOut := false

/-- `mixtureListing` with both conjunctions folded. -/
def mixtureTwice : Listing where
  lines := #[⟨⟨0⟩, .push (.int 3) .int, false⟩, ⟨⟨1⟩, .push (.int 0) .int, false⟩,
    ⟨⟨2⟩, .arithmetic .div .int, false⟩, ⟨⟨3⟩, .store 0 .int, false⟩,
    ⟨⟨4⟩, .loadConstant 1 false, false⟩, ⟨⟨7⟩, .store 1 .int, false⟩,
    ⟨⟨8⟩, .loadConstant 2 false, false⟩, ⟨⟨11⟩, .other .intReturn, false⟩]
  fresh := 12
  handlers := #[]
  laidOut := false

theorem load_mixture : mixture.load .empty = .ok mixtureListing := by
  refine Code.load_eq_ok.mpr ⟨{ mixtureListing with laidOut := false }, 12, by decide +kernel, ?_⟩
  exact Listing.layout_of_straight (by decide) rfl (by decide) (by decide)

theorem isShortest_mixture : mixture.IsShortest .empty := by
  intro stream hs i item hitem
  have hstream : Decoding.stream .empty (.ofBytes mixture.bytes) #[] =
      .ok mixtureItems.toArray := by decide +kernel
  cases hs.symm.trans hstream
  rw [List.getElem?_toArray] at hitem ⊢
  have hall : ∀ i < 12, ∀ item ∈ mixtureItems[i]?,
      (mixtureItems[i + 1]?.map (·.1)).getD 12 = item.1 + item.2.size item.1 false := by decide
  exact hall i (List.getElem?_eq_some_iff.mp hitem).1 item hitem

/-- The first conjunction folds, with the division still before it. -/
theorem fold_mixtureListing : ∃ note, ArithmeticMatch.fold mixtureListing .empty
    ⟨⟨4⟩, none, ⟨5⟩, none, ⟨6⟩, none, ⟨6⟩⟩ =
      .ok (.folded mixtureOnce ⟨#[none, some (.integer 2)]⟩ note) := by
  have folded : ArithmeticFolded mixtureListing .empty (mixtureListing.lines.toList.take 4)
      ⟨⟨⟨4⟩, .push (.int 3) .int, false⟩, none, ⟨⟨5⟩, .push (.int 2) .int, false⟩, none,
        ⟨⟨6⟩, .arithmetic .and .int, false⟩⟩
      (mixtureListing.lines.toList.drop 7) mixtureOnce ⟨#[none, some (.integer 2)]⟩ :=
    ⟨.and, .int, (.int 3, .int), (.int 2, .int), .int 2, 1, rfl, by decide, by decide,
      by decide, by decide +kernel,
      ⟨rfl, (Code.regular_of_load load_mixture).distinct,
        ⟨by simp [mixtureListing], by decide⟩, by simp [Instruction.targets], rfl⟩⟩
  exact folded.fold_eq _ ⟨rfl, rfl, rfl, rfl, rfl, rfl, by simp, rfl, by simp, rfl⟩ rfl

theorem fold_mixtureOnce : ∃ note, ArithmeticMatch.fold mixtureOnce ⟨#[none, some (.integer 2)]⟩
    ⟨⟨8⟩, none, ⟨9⟩, none, ⟨10⟩, none, ⟨10⟩⟩ =
      .ok (.folded mixtureTwice ⟨#[none, some (.integer 2), some (.integer 4)]⟩ note) := by
  have folded : ArithmeticFolded mixtureOnce ⟨#[none, some (.integer 2)]⟩
      (mixtureOnce.lines.toList.take 6)
      ⟨⟨⟨8⟩, .push (.int 5) .int, false⟩, none, ⟨⟨9⟩, .push (.int 4) .int, false⟩, none,
        ⟨⟨10⟩, .arithmetic .and .int, false⟩⟩
      [⟨⟨11⟩, .other .intReturn, false⟩] mixtureTwice
      ⟨#[none, some (.integer 2), some (.integer 4)]⟩ :=
    ⟨.and, .int, (.int 5, .int), (.int 4, .int), .int 4, 2, rfl, by decide, by decide,
      by decide, by decide +kernel,
      ⟨rfl, show List.Nodup _ by decide, ⟨by simp [mixtureOnce], by decide⟩,
        by simp [Instruction.targets], rfl⟩⟩
  exact folded.fold_eq _ ⟨rfl, rfl, rfl, rfl, rfl, rfl, by simp, rfl, by simp, rfl⟩ rfl

/-- Both conjunctions are folded, and the event about the second is located where it was at
first. -/
theorem run_mixture (method : Method) (log : EventLog) : ∃ session,
    ({} : Config).schedule.run (Schedule.opening method .empty log mixtureListing) =
      (.ok 3, session) ∧ session.listing = mixtureTwice ∧
      session.pool = ⟨#[none, some (.integer 2), some (.integer 4)]⟩ ∧
      log.Records (fun kind => kind = .foldSkipped ∨ kind = .constantFolded) session.log ∧
      ∃ event ∈ session.log.events.toList, event.kind = .constantFolded ∧
        event.location = some 8 := by
  have hstart : (Schedule.opening method .empty log mixtureListing).listing = mixtureListing := rfl
  obtain ⟨_, hfold⟩ := fold_mixtureListing
  obtain ⟨once, hfirst, honce, hpool, horigins, -⟩ :=
    arithmeticFold.run_of_folded 4 rfl (by decide) rfl hfold hstart rfl
  obtain ⟨_, hfold⟩ := fold_mixtureOnce
  obtain ⟨twice, hsecond, htwice, hpool, -, event, hevent, hkind, hlocation⟩ :=
    arithmeticFold.run_of_folded 6 rfl (by decide) rfl hfold honce hpool
  -- only the division is left, and it is passed over
  obtain ⟨last, hover, hthird⟩ : ∃ last, twice.PassesOver last ∧
      arithmeticFold.pass.run twice = (.ok false, last) := by
    have hpassed : ∀ earlier < 8, ∀ other ∈
        arithmeticFold.matchAt? (twice.listing.lines.toList.drop earlier),
        PassedOver (arithmeticFold.attempt twice.listing twice.pool other) := by
      rw [htwice, hpool]
      decide
    obtain ⟨last, hover, hscan⟩ := FoldRule.scan_drop hpassed
    refine ⟨last, hover, hscan.trans ?_⟩
    rw [htwice]
    rfl
  have hlast := hover.listing_eq.trans htwice
  have hlong : arithmeticFold.pass.shouldRun mixtureListing = true ∧
      arithmeticFold.pass.shouldRun once.listing = true ∧
      arithmeticFold.pass.shouldRun twice.listing = true := by
    rw [honce, htwice]
    exact ⟨rfl, rfl, rfl⟩
  have hcomparison : ∀ session : Session,
      session.listing = mixtureOnce ∨ session.listing = mixtureTwice →
      comparisonFold.pass.shouldRun session.listing = true ∧
        comparisonFold.pass.run session = (.ok false, session) := by
    intro session h
    change _ ∧ comparisonFold.scan session.listing.lines.toList session = _
    rcases h with h | h <;> rw [h] <;> exact ⟨rfl, rfl⟩
  refine ⟨last, ?_, hlast, hover.pool_eq.trans hpool, ?_, event, ?_, hkind, ?_⟩
  · change ({} : Config).schedule.iterate (9997 + 3) 0 _ = _
    simp only [Schedule.iterate, Config.schedule, if_true, List.cons_append, List.nil_append,
      Schedule.runOnce, hstart, hlong, hfirst, hsecond, hthird, hcomparison once (.inl honce),
      hcomparison twice (.inr htwice), hcomparison last (.inr hlast), Bool.or_true, Bool.or_false,
      Bool.false_or]
  · have hrecords := (FoldRule.records_of_folded hfirst).2.trans
      (FoldRule.records_of_folded hsecond).2
    exact hrecords.trans (EventLog.Adds.mono hover.records fun _ => .inl)
  · obtain ⟨events, hevents, -⟩ := hover.log_eq
    rw [hevents]
    exact List.mem_append_left _ hevent
  · have cut : mixtureListing.Cut (mixtureListing.lines.toList.take 8)
        ⟨⟨8⟩, .push (.int 5) .int, false⟩ (mixtureListing.lines.toList.drop 9) := rfl
    have hoffset : mixtureListing.offsets[(⟨8⟩ : Handle)]? = some 8 :=
      cut.offsets_eq (Code.regular_of_load load_mixture).distinct rfl
    rw [hlocation, Session.origin?, horigins]
    exact hoffset

/-- The second conjunction was read at offset 8. It is folded when the first has become shorter, and
the event is located at offset 8 still. -/
theorem optimizeMethod_locations_mixture : mixture.IsShortest .empty ∧ ∃ outcome log',
    ({} : Config).schedule.optimizeMethod true ⟨"mixture", "()I", 8, some mixture⟩ .empty {} =
      (outcome, log') ∧
    ∃ event ∈ log'.events.toList, event.kind = .constantFolded ∧ event.location = some 8 ∧
      ∃ session left, event.Reports session left ∧ mixture.ReadAt .empty left 8 := by
  rcases h : ({} : Config).schedule.optimizeMethod true ⟨"mixture", "()I", 8, some mixture⟩
    .empty {} with ⟨outcome, log'⟩
  obtain ⟨count, session, hrun, events, hevents, -⟩ :=
    (Schedule.stages_of_optimizeMethod rfl h).adds load_mixture
  obtain ⟨last, hlast, -, -, -, event, hm, hkind, hlocation⟩ := run_mixture _ {}
  cases hlast.symm.trans hrun
  have hlogged : event ∈ log'.events.toList := by
    rw [hevents]
    exact List.mem_append_left _ hm
  obtain ⟨added, hadded, hlocated⟩ := optimizeMethod_locations (fun _ hpass => hpass) rfl h
  have hnew : event ∈ added := by
    rw [hadded] at hlogged
    simpa using hlogged
  obtain ⟨_, session, left, offset, -, -, hreports, hoffset, -, -, hread⟩ :=
    hlocated event hnew (.inl hkind)
  cases hlocation.symm.trans hoffset
  exact ⟨isShortest_mixture, outcome, log', rfl, event, hlogged, hkind, hlocation, session.listing,
    left, hreports, hread isShortest_mixture⟩

/-! ## A division after a wide increment -/

/-- Adds one to slot 0, with wide operands, and returns `3 / 0`. -/
def quotient : Code where
  maxStack := 2
  maxLocals := 1
  bytes := #[0xC4, 0x84, 0x00, 0x00, 0x00, 0x01, 0x06, 0x03, 0x6C, 0xAC]
  exceptionTable := #[]

def quotientItems : List (Nat × Instruction Nat) :=
  [(0, .increment 0 1), (6, .push (.int 3) .int), (7, .push (.int 0) .int),
    (8, .arithmetic .div .int), (9, .other .intReturn)]

def quotientListing : Listing where
  lines := #[⟨⟨0⟩, .increment 0 1, false⟩, ⟨⟨1⟩, .push (.int 3) .int, false⟩,
    ⟨⟨2⟩, .push (.int 0) .int, false⟩, ⟨⟨3⟩, .arithmetic .div .int, false⟩,
    ⟨⟨4⟩, .other .intReturn, false⟩]
  fresh := 5
  handlers := #[]
  laidOut := true

theorem stream_quotient : Decoding.stream .empty (.ofBytes quotient.bytes) #[] =
    .ok quotientItems.toArray := by
  decide +kernel

theorem load_quotient : quotient.load .empty = .ok quotientListing := by
  refine Code.load_eq_ok.mpr ⟨{ quotientListing with laidOut := false }, 7, by decide +kernel, ?_⟩
  exact Listing.layout_of_straight (by decide) rfl (by decide) (by decide)

/-- The division is passed over. -/
theorem run_quotient (method : Method) (log : EventLog) :
    ({} : Config).schedule.run (Schedule.opening method .empty log quotientListing) =
      (.ok 1, (Schedule.opening method .empty log quotientListing).skip "arithmetic" ⟨1⟩
        "integer division by zero") := by
  have harithmetic : arithmeticFold.pass.run (Schedule.opening method .empty log quotientListing) =
      (.ok false, (Schedule.opening method .empty log quotientListing).skip "arithmetic" ⟨1⟩
        "integer division by zero") := rfl
  have hlong : arithmeticFold.pass.shouldRun
      (Schedule.opening method .empty log quotientListing).listing = true := rfl
  -- there are too few lines for a comparison
  have hshort : comparisonFold.pass.shouldRun ((Schedule.opening method .empty log
      quotientListing).skip "arithmetic" ⟨1⟩ "integer division by zero").listing = false := by
    unfold Session.skip
    split <;> rfl
  change ({} : Config).schedule.iterate (9999 + 1) 0 _ = _
  simp only [Schedule.iterate, Config.schedule, if_true, List.cons_append, List.nil_append,
    Schedule.runOnce, hlong, harithmetic, hshort, Bool.or_false, Bool.false_eq_true, if_false]

/-- The division was read at offset 6, but the event about it is located at offset 3, which is in
the middle of the increment. -/
theorem optimizeMethod_mislocates_quotient : ∃ outcome log' event,
    ({} : Config).schedule.optimizeMethod true ⟨"quotient", "(I)I", 8, some quotient⟩ .empty {} =
      (outcome, log') ∧ event ∈ log'.events.toList ∧ event.kind = .foldSkipped ∧
    quotient.load .empty = .ok quotientListing ∧ event.Reports quotientListing ⟨1⟩ ∧
    event.location = some 3 ∧ quotient.ReadAt .empty ⟨1⟩ 6 ∧ ¬ quotient.ReadAt .empty ⟨1⟩ 3 := by
  rcases h : ({} : Config).schedule.optimizeMethod true ⟨"quotient", "(I)I", 8, some quotient⟩
    .empty {} with ⟨outcome, log'⟩
  obtain ⟨count, session, hrun, events, hevents, -⟩ :=
    (Schedule.stages_of_optimizeMethod rfl h).adds load_quotient
  cases (run_quotient _ _).symm.trans hrun
  have cut : quotientListing.Cut [⟨⟨0⟩, .increment 0 1, false⟩] ⟨⟨1⟩, .push (.int 3) .int, false⟩
      [⟨⟨2⟩, .push (.int 0) .int, false⟩, ⟨⟨3⟩, .arithmetic .div .int, false⟩,
        ⟨⟨4⟩, .other .intReturn, false⟩] := rfl
  have hoffset : quotientListing.offsets[(⟨1⟩ : Handle)]? = some 3 :=
    cut.offsets_eq (Code.regular_of_load load_quotient).distinct rfl
  have hmatch : ArithmeticMatch.at? [⟨⟨1⟩, .push (.int 3) .int, false⟩,
      ⟨⟨2⟩, .push (.int 0) .int, false⟩, ⟨⟨3⟩, .arithmetic .div .int, false⟩,
      ⟨⟨4⟩, .other .intReturn, false⟩] = some ⟨⟨1⟩, none, ⟨2⟩, none, ⟨3⟩, none, ⟨3⟩⟩ := rfl
  refine ⟨outcome, log', ⟨.foldSkipped, some "quotient(I)I", some 3, some "arithmetic",
    some "integer division by zero"⟩, rfl, ?_, rfl, load_quotient,
    .arithmetic cut hmatch (.inl rfl) rfl, rfl, ⟨_, _, stream_quotient, rfl⟩, ?_⟩
  · rw [hevents]
    refine List.mem_append_left _ ?_
    simp [Session.skip, Session.record, Schedule.opening, Session.start, EventLog.record,
      Session.origin?, hoffset, Method.signature]
  · rintro ⟨stream, code, hs, hat⟩
    cases stream_quotient.symm.trans hs
    cases hat

end BytecodeFold
