import BytecodeFold.Proofs.Codec.Compact

/-!
# Regular listings

A listing is regular if every handle names one line, everything that is referred to is there, and
every instruction is one that bytes can give. Decoding gives regular listings, and a pool that
grows, a layout or a replacement by an instruction without targets keeps them so. The canonical form
of a regular listing differs from it in its handles only.
-/

namespace BytecodeFold

variable {τ σ : Type}

/-! ## Instructions that bytes can give -/

/-- The instruction has an encoding, and decoding that gives it back with the same type tags. -/
def Instruction.Writable (pool : ConstantPool) : Instruction τ → Prop
  | push value type => value.pushForm? type ≠ none ∧ value.pushTag type = type
  | load _ type | store _ type => type.promote = type
  | convert source target => source.conversionOpcode? target ≠ none ∧ source.promote = source
  | arithmetic op type =>
    ((op.isBitwise && type.isFloating) || type = .reference) = false ∧ type.promote = type
  | switch .table _ cases => cases ≠ [] ∧ Encoding.keysConsecutive (cases.map (·.1.toInt)) = true
  | switch .lookup _ cases => Encoding.keysSorted (cases.map (·.1.toInt)) = true
  | other kept => Decoding.Readable pool kept
  | _ => True

theorem Instruction.Writable.normalise_eq {pool : ConstantPool} {code : Instruction τ}
    (h : code.Writable pool) : code.normalise = code := by
  cases code with
  | push value type => simp only [normalise, h.2]
  | convert source target => simp only [normalise, h.2]
  | arithmetic op type => simp only [normalise, h.2]
  | load slot type | store slot type => simp only [normalise, show type.promote = type from h]
  | _ => rfl

/-- Only the keys of a switch count, not its targets. -/
theorem Instruction.writable_switch {pool : ConstantPool} {kind : SwitchKind} {default : τ}
    {default' : σ} {cases : List (Int32 × τ)} {cases' : List (Int32 × σ)}
    (hkeys : cases'.map (·.1) = cases.map (·.1)) (h : (switch kind default cases).Writable pool) :
    (switch kind default' cases').Writable pool := by
  have hints : cases'.map (·.1.toInt) = cases.map (·.1.toInt) := by
    simpa [Function.comp_def] using congrArg (List.map Int32.toInt) hkeys
  cases kind with
  | table =>
    refine ⟨?_, hints ▸ h.2⟩
    rintro rfl
    exact h.1 (List.map_eq_nil_iff.mp hkeys.symm)
  | lookup => exact (congrArg Encoding.keysSorted hints).trans h

theorem Instruction.writable_mapTargetsM {pool : ConstantPool} {f : τ → Except Error σ}
    {code : Instruction τ} {result : Instruction σ} (h : code.mapTargetsM f = .ok result)
    (writable : code.Writable pool) : result.Writable pool := by
  cases code with
  | branch | jump | subroutine =>
    obtain ⟨target, -, h⟩ := Outcome.bind_eq_ok.mp h
    cases h
    trivial
  | switch kind default cases =>
    obtain ⟨default', -, h⟩ := Outcome.bind_eq_ok.mp h
    obtain ⟨cases', hcases, h⟩ := Outcome.bind_eq_ok.mp h
    cases h
    refine writable_switch ?_ writable
    have hall := Outcome.list_mapM_eq_ok.mp hcases
    clear * - hall
    induction hall with
    | nil => rfl
    | cons hcase _ ih =>
      obtain ⟨target, -, hcase⟩ := Outcome.bind_eq_ok.mp hcase
      cases hcase
      rw [List.map_cons, List.map_cons, ih]
  | _ =>
    cases h
    exact writable

namespace Decoding

variable {pool grown : ConstantPool} {offset : Nat} {bytes : List UInt8}

/-- Whether the instructions of a shape are written under the tags that they are read with. -/
def shapeWritable : Shape → Bool
  | .literal value type => (value.pushForm? type).isSome && value.pushTag type = type
  | .load type | .loadSlot _ type | .store type | .storeSlot _ type => type.promote = type
  | .convert source target => (source.conversionOpcode? target).isSome && source.promote = source
  | .arithmetic op type =>
    !((op.isBitwise && type.isFloating) || type = .reference) && type.promote = type
  | _ => true

theorem shapeWritable_ofOpcode (opcode : UInt8) : shapeWritable (Shape.ofOpcode opcode) = true := by
  have h : ∀ n : Fin 256, shapeWritable (Shape.ofOpcode (UInt8.ofFin n)) = true := by
    decide +kernel
  exact h opcode.toFin

theorem writable_cases {kind : SwitchKind} {default : Nat} {cases : List (Int32 × Nat)}
    (h : Cases offset kind cases bytes) :
    (Instruction.switch kind default cases).Writable pool := by
  cases kind with
  | table =>
    obtain ⟨low, high, hle, hkeys, -, -⟩ := h
    obtain ⟨hconsecutive, hhead, -⟩ := Encoding.table_keys_iff.mp ⟨hle, hkeys⟩
    refine ⟨?_, by simpa [Function.comp_def] using hconsecutive⟩
    rintro rfl
    cases hhead
  | lookup =>
    obtain ⟨count, -, hsorted, -, -⟩ := h
    exact hsorted

theorem writable_wideOperands {opcode : UInt8} {code : Instruction Nat}
    (h : WideOperands opcode (Shape.ofOpcode opcode) code bytes)
    (readable : ∀ kept, code = .other kept → Readable pool kept) : code.Writable pool := by
  have hshape := shapeWritable_ofOpcode opcode
  cases hs : Shape.ofOpcode opcode with
  | load type | store type =>
    rw [hs] at h hshape
    obtain ⟨slot, rfl, -⟩ := h
    exact (of_decide_eq_true hshape : type.promote = type)
  | increment =>
    rw [hs] at h
    obtain ⟨slot, amount, rfl, -⟩ := h
    trivial
  | _ =>
    rw [hs] at h
    obtain ⟨-, -, rfl⟩ := h
    exact readable _ rfl

/-- What is in the format of a code array is writable. -/
theorem Format.writable {code : Instruction Nat} (h : Format pool offset code bytes)
    (readable : ∀ kept, code = .other kept → Readable pool kept) : code.Writable pool := by
  obtain ⟨opcode, rest, rfl, h⟩ := h
  have hshape := shapeWritable_ofOpcode opcode
  cases hs : Shape.ofOpcode opcode with
  | literal value type | convert value type =>
    rw [hs] at h hshape
    obtain ⟨rfl, -⟩ := h
    obtain ⟨hform, htag⟩ := Bool.and_eq_true_iff.mp hshape
    exact ⟨Option.isSome_iff_ne_none.mp hform, of_decide_eq_true htag⟩
  | arithmetic op type =>
    rw [hs] at h hshape
    obtain ⟨rfl, -⟩ := h
    obtain ⟨hvalid, htag⟩ := Bool.and_eq_true_iff.mp hshape
    rw [Bool.not_eq_true'] at hvalid
    exact ⟨hvalid, of_decide_eq_true htag⟩
  | pushByte =>
    rw [hs] at h
    obtain ⟨value, rfl, -⟩ := h
    exact ⟨by rw [Encoding.pushForm?_byte]; exact Option.some_ne_none _, rfl⟩
  | pushShort =>
    rw [hs] at h
    obtain ⟨value, rfl, -⟩ := h
    exact ⟨by rw [Encoding.pushForm?_short]; exact Option.some_ne_none _, rfl⟩
  | load type | store type =>
    rw [hs] at h hshape
    obtain ⟨slot, rfl, -⟩ := h
    exact (of_decide_eq_true hshape : type.promote = type)
  | loadSlot slot type | storeSlot slot type =>
    rw [hs] at h hshape
    obtain ⟨rfl, -⟩ := h
    exact (of_decide_eq_true hshape : type.promote = type)
  | loadConstant | loadConstantIndexed | branch | jump | subroutine | invokeVirtual =>
    rw [hs] at h
    obtain ⟨_, rfl, -⟩ := h
    trivial
  | increment =>
    rw [hs] at h
    obtain ⟨slot, amount, rfl, -⟩ := h
    trivial
  | compare kind =>
    rw [hs] at h
    obtain ⟨rfl, -⟩ := h
    trivial
  | switch kind =>
    rw [hs] at h
    obtain ⟨padding, default, cases, rest, rfl, -, -, hcases, -⟩ := h
    exact writable_cases hcases
  | widePrefix =>
    rw [hs] at h
    obtain ⟨inner, operands, rfl, h⟩ := h
    exact writable_wideOperands h readable
  | verbatim info =>
    rw [hs] at h
    obtain ⟨-, stack, -, rfl⟩ := h
    exact readable _ rfl
  | invalid =>
    rw [hs] at h
    exact h.elim

theorem writable_instruction {start stop : Cursor} {code : Instruction Nat}
    (h : instruction pool start = .ok (code, stop)) : code.Writable pool := by
  have inside := Nat.le_of_lt (position_lt_of_instruction h)
  obtain ⟨bytes, hformat, -⟩ := (parses_instruction start rfl inside code stop).mp h
  refine hformat.writable fun kept hk => ?_
  exact ⟨start, stop, hk ▸ h⟩

/-! ## Pools that have grown -/

theorem Format.extends {code : Instruction Nat} (extended : pool.Extends grown)
    (h : Format pool offset code bytes) : Format grown offset code bytes := by
  obtain ⟨opcode, rest, rfl, h⟩ := h
  refine ⟨opcode, rest, rfl, ?_⟩
  cases hs : Shape.ofOpcode opcode with
  | verbatim info =>
    rw [hs] at h
    obtain ⟨hlength, stack, hstack, he⟩ := h
    exact ⟨hlength, stack, verbatimEffect_extends extended offset hstack, he⟩
  | _ =>
    rw [hs] at h
    exact h

theorem Formats.extends {items : List (Nat × Instruction Nat)} (extended : pool.Extends grown)
    (h : Formats pool offset items bytes) : Formats grown offset items bytes := by
  induction items generalizing offset bytes with
  | nil => exact h
  | cons item items ih =>
    obtain ⟨xs, ys, hoffset, hformat, htail, rfl⟩ := h
    exact ⟨xs, ys, hoffset, hformat.extends extended, ih htail, rfl⟩

theorem Readable.extends {kept : Verbatim} (extended : pool.Extends grown)
    (h : Readable pool kept) : Readable grown kept := by
  have hformat := (h.format 0).extends extended
  generalize (if kept.wide then [Opcode.wide] else []) ++ kept.opcode :: kept.operands =
    bytes at hformat
  have hreads : (Cursor.mk bytes.toArray 0).Reads bytes ⟨bytes.toArray, 0 + bytes.length⟩ :=
    ⟨List.prefix_refl bytes, rfl⟩
  exact ⟨⟨bytes.toArray, 0⟩, _, (parses_instruction _ rfl (Nat.zero_le _) _ _).mpr
    ⟨bytes, hformat, hreads⟩⟩

end Decoding

theorem Instruction.Writable.extends {pool grown : ConstantPool} {code : Instruction τ}
    (h : code.Writable pool) (extended : pool.Extends grown) : code.Writable grown := by
  cases code with
  | other kept => exact Decoding.Readable.extends extended h
  | switch kind default cases => cases kind <;> exact h
  | _ => exact h

/-- A code array means the same under a pool that has grown. -/
theorem Code.decode_extends {code : Code} {pool grown : ConstantPool} {listing : Listing}
    (extended : pool.Extends grown) (h : code.decode pool = .ok listing) :
    code.decode grown = .ok listing := by
  obtain ⟨items, instructions, handlers, hd, rfl⟩ := Code.decode_eq_ok.mp h
  refine Code.decode_eq_ok.mpr ⟨items, instructions, handlers, ⟨?_, hd.resolved, hd.handlers⟩, rfl⟩
  have hformats := Decoding.formats_of_streams hd.streams (Nat.zero_le _)
  exact Decoding.streams_of_formats (Nat.zero_le _) (hformats.extends extended)

/-! ## Regular listings -/

structure Listing.Regular (pool : ConstantPool) (listing : Listing) : Prop where
  distinct : listing.Distinct
  closed : ∀ handle, listing.Mentions handle → handle ∈ listing.handles
  writable : ∀ line ∈ listing.lines.toList, line.instruction.Writable pool

namespace Listing

variable {listing result : Listing} {pool grown : ConstantPool}

theorem Regular.extends (h : listing.Regular pool) (extended : pool.Extends grown) :
    listing.Regular grown :=
  ⟨h.distinct, h.closed, fun line hm => (h.writable line hm).extends extended⟩

theorem SameLines.mentions {handle : Handle}
    (h : SameLines listing.lines.toList result.lines.toList)
    (hhandlers : result.handlers = listing.handlers) (hm : result.Mentions handle) :
    listing.Mentions handle := by
  cases hm with
  | line hm =>
    obtain ⟨old, hold, hh, -⟩ := Outcome.exists_of_mem_right h hm
    exact hh ▸ .line hold
  | target hm ht =>
    obtain ⟨old, hold, -, hi⟩ := Outcome.exists_of_mem_right h hm
    exact .target hold (hi ▸ ht)
  | handler hm hh => exact .handler (hhandlers ▸ hm) hh

theorem SameLines.renames (h : SameLines listing.lines.toList result.lines.toList)
    (hhandlers : result.handlers = listing.handlers) : Renames id listing result where
  lines :=
    h.imp fun line line' hline => ⟨hline.1, hline.2.trans line.instruction.mapTargets_id.symm⟩
  handlers := by
    have hid : (fun entry : ExceptionHandler => entry.rename id) = id := by
      funext entry
      simp [ExceptionHandler.rename]
    rw [hid, List.map_id, hhandlers]
  injective _ _ _ _ he := he

theorem Regular.sameLines (regular : listing.Regular pool)
    (h : SameLines listing.lines.toList result.lines.toList)
    (hhandlers : result.handlers = listing.handlers) : result.Regular pool where
  distinct := h.distinct regular.distinct
  closed handle hm := by
    rw [handles, h.map_handle]
    exact regular.closed handle (h.mentions hhandlers hm)
  writable := h.forall_instruction regular.writable

theorem layout_handlers (listing : Listing) : listing.layout.2.handlers = listing.handlers := by
  unfold layout
  split <;> rfl

theorem Regular.layout (regular : listing.Regular pool) : listing.layout.2.Regular pool :=
  regular.sameLines (layout_same listing) (layout_handlers listing)

/-- Whatever is referred to after a replacement was there before and was not replaced. -/
theorem Replaced.closed {before segment after : List Line} {first : Line}
    {code : Instruction Handle}
    (replaced : listing.Replaced before first segment after code result)
    (targets : code.targets = [])
    (closed : ∀ handle, listing.Mentions handle → handle ∈ listing.handles) (handle : Handle)
    (hm : result.Mentions handle) : handle ∈ result.handles := by
  have hkeeps : ∀ handle ∈ listing.handles, handle ∉ segment.map (·.handle) →
      handle ∈ result.handles := by
    intro handle hl hs
    rw [replaced.cut.handles_eq, List.map_append] at hl
    rw [replaced.result_cut.handles_eq]
    simp only [List.mem_append, List.mem_cons] at hl ⊢
    tauto
  cases hm with
  | line hm => exact List.mem_map_of_mem hm
  | @target line _ hm ht =>
    rcases replaced.line_cases hm with rfl | ⟨hold, hout⟩
    · rw [targets] at ht
      cases ht
    · exact hkeeps handle (closed handle (.target hold ht))
        (replaced.unreferenced.lines line hold hout handle ht)
  | handler hm hh =>
    rw [replaced.handlers_eq] at hm
    exact hkeeps handle (closed handle (.handler hm hh))
      (replaced.unreferenced.handlers _ hm handle hh)

theorem Regular.replaced {before segment after : List Line} {first : Line}
    {code : Instruction Handle} (regular : listing.Regular pool)
    (replaced : listing.Replaced before first segment after code result)
    (targets : code.targets = []) (writable : code.Writable pool) : result.Regular pool where
  distinct := replaced.result_distinct
  closed := replaced.closed targets regular.closed
  writable := replaced.forall_instruction regular.writable writable

/-- Decoding gives regular listings. -/
theorem regular_of_decode {code : Code} (h : code.decode pool = .ok listing) :
    listing.Regular pool := by
  refine ⟨Code.decode_distinct h, ?_, ?_⟩
  · obtain ⟨items, instructions, handlers, hd, rfl⟩ := Code.decode_eq_ok.mp h
    have hnodup := (Decoding.formats_of_streams hd.streams (Nat.zero_le _)).nodup
    have hlocates := Decoding.locates_starts items
    -- a handle that has an offset is a place in the stream
    have hlive : ∀ (handle : Handle) (place : Nat), (Decoding.starts items)[handle]? = some place →
        handle ∈ (numbered instructions).map (·.handle) := by
      intro handle place hp
      obtain ⟨raw, hi⟩ := (hlocates handle place).mp hp
      have hlt := (List.getElem?_eq_some_iff.mp hi).1
      rw [hd.resolved.length_eq] at hlt
      rw [handles_numbered]
      exact List.mem_map.mpr ⟨handle.index, List.mem_range.mpr hlt, rfl⟩
    intro handle hm
    cases hm with
    | line hm => exact List.mem_map_of_mem hm
    | target hm ht =>
      have hreads := readsAs_of_locates hlocates hnodup hd.resolved
      obtain ⟨item, -, hline⟩ := Outcome.exists_of_mem_right hreads hm
      exact hlive handle _ (hline.placed handle ht)
    | handler hm hh =>
      obtain ⟨entry, -, hentry⟩ := Outcome.exists_of_mem_right hd.handlers hm
      obtain ⟨place, hp⟩ := (exceptionEntry_of_handler
        (fun _ _ hr => hlocates.of_resolveOffset hnodup hr) hentry).2 handle hh
      exact hlive handle place hp
  · obtain ⟨items, instructions, handlers, hd, rfl⟩ := Code.decode_eq_ok.mp h
    have hitems := hd.streams.forall fun _ _ _ hr => Decoding.writable_instruction hr
    intro line hm
    obtain ⟨index, hlt, rfl⟩ := List.mem_mapIdx.mp hm
    obtain ⟨item, hitem, hr⟩ := Outcome.exists_of_mem_right hd.resolved (List.getElem_mem hlt)
    exact Instruction.writable_mapTargetsM hr (hitems item hitem)

/-! ## Canonical forms -/

theorem Regular.rank_injective (regular : listing.Regular pool) {a b : Handle}
    (ha : a ∈ listing.handles) (hb : b ∈ listing.handles) (h : listing.rank a = listing.rank b) :
    a = b := by
  obtain ⟨before, line, after, cut, rfl⟩ := exists_cut ha
  obtain ⟨before', line', after', cut', rfl⟩ := exists_cut hb
  rw [rank, rank, cut.indexOf? regular.distinct, cut'.indexOf? regular.distinct] at h
  have hlength : before.length = before'.length := congrArg Handle.index h
  have hlines := cut.symm.trans cut'
  rw [(List.cons.inj (List.append_inj hlines hlength).2).1]

/-- The place of the line at a cut. -/
theorem Cut.rank_eq {before after : List Line} {line : Line} (cut : listing.Cut before line after)
    (distinct : listing.Distinct) : listing.rank line.handle = ⟨before.length⟩ := by
  rw [rank, cut.indexOf? distinct]
  rfl

/-- The canonical form of a regular listing is the listing under new handles. -/
theorem Regular.renames_canonical (regular : listing.Regular pool) :
    Renames listing.rank listing listing.canonical where
  lines := by
    have hcodes : (listing.lines.toList.map fun line =>
        line.instruction.normalise.mapTargets listing.rank) =
        listing.lines.toList.map fun line => line.instruction.mapTargets listing.rank :=
      List.map_congr_left fun line hm => by rw [(regular.writable line hm).normalise_eq]
    rw [canonical, hcodes, List.forall₂_iff_get]
    refine ⟨by simp [numbered], fun i hi hi' => ?_⟩
    have cut : listing.Cut (listing.lines.toList.take i) (listing.lines.toList.get ⟨i, hi⟩)
        (listing.lines.toList.drop (i + 1)) := by
      rw [Cut, List.get_eq_getElem, ← List.drop_eq_getElem_cons hi, List.take_append_drop]
    have hrank := cut.rank_eq regular.distinct
    rw [List.length_take, Nat.min_eq_left (Nat.le_of_lt hi)] at hrank
    constructor
    · rw [hrank]
      simp [numbered]
    · simp [numbered]
  handlers := by
    rw [canonical, Array.toList_map]
  injective a b ha hb := regular.rank_injective (regular.closed a ha) (regular.closed b hb)

end Listing

end BytecodeFold
