import BytecodeFold.Proofs.Codec.RoundTrip

/-!
# Encoding undoes decoding

A code array is compact if every instruction has the form that the encoder would choose. Decoding
compact code and encoding the listing again gives back every byte and the exception table.
-/

namespace BytecodeFold

open BigEndian (encode)

namespace Decoding

/-! ## Compact forms -/

/-- The word at the start of these bytes. -/
def leading (α : Type) [BigEndian α] (bytes : List UInt8) : α :=
  BigEndian.decode α (bytes.take (BigEndian.size α))

/-- Whether wide operands are needed: a slot is above 255 or an amount does not fit a byte. -/
def compactWide : Shape → List UInt8 → Bool
  | .load _, bytes | .store _, bytes => 0xFF < leading UInt16 bytes
  | .increment, bytes =>
    0xFF < leading UInt16 bytes || !fitsSigned 8 (leading Int16 (bytes.drop 2)).toInt
  | _, _ => true

/-- Whether the bytes after an opcode of this shape are compact. A slot below 4 has a form of its
own, a constant with a small index is loaded by the short form, jumps are short, and the padding
of a switch is zero. -/
def compactOperands (offset : Nat) : Shape → List UInt8 → Bool
  | .load _, bytes | .store _, bytes => 4 ≤ leading UInt8 bytes
  | .loadConstantIndexed wide, bytes => wide || 0xFF < leading UInt16 bytes
  | .jump long, _ | .subroutine long, _ => !long
  | .switch _, bytes => (bytes.take (switchPadding offset)).all (· == 0)
  | .widePrefix, inner :: bytes => compactWide (Shape.ofOpcode inner) bytes
  | _, _ => true

/-- Whether the instruction that starts these bytes is compact. -/
def compactAt (offset : Nat) : List UInt8 → Bool
  | [] => true
  | opcode :: bytes => compactOperands offset (Shape.ofOpcode opcode) bytes

theorem leading_encode {α : Type} [BigEndian α] (a : α) (rest : List UInt8) :
    leading α (encode a ++ rest) = a := by
  rw [leading, ← BigEndian.length_encode a, List.take_left, BigEndian.decode_encode]

end Decoding

/-- Every instruction of the code array is compact. -/
def Code.IsCompact (code : Code) (pool : ConstantPool) : Prop :=
  ∀ stream, Decoding.stream pool (.ofBytes code.bytes) #[] = .ok stream →
    ∀ item ∈ stream, Decoding.compactAt item.1 (code.bytes.toList.drop item.1) = true

namespace Encoding

/-! ## Opcodes of shapes -/

/-- Whether an opcode is the one that the encoder uses for this shape. -/
def namesShape (opcode : UInt8) : Shape → Bool
  | .literal value type => value.pushForm? type = some (.opcode opcode)
  | .pushByte => opcode = Opcode.bipush
  | .pushShort => opcode = Opcode.sipush
  | .loadConstant => opcode = Opcode.ldc
  | .loadConstantIndexed wide => opcode = if wide then Opcode.ldc2W else Opcode.ldcW
  | .load type => opcode = Opcode.iload + type.familyIndex
  | .loadSlot slot type => load slot type = [opcode]
  | .store type => opcode = Opcode.istore + type.familyIndex
  | .storeSlot slot type => store slot type = [opcode]
  | .arithmetic op type =>
    opcode = op.opcode type && !((op.isBitwise && type.isFloating) || type = .reference)
  | .increment => opcode = Opcode.iinc
  | .convert source target => source.conversionOpcode? target = some opcode
  | .compare kind => opcode = kind.opcode
  | .branch condition => opcode = condition.opcode
  | .jump long => opcode = if long then Opcode.gotoW else Opcode.goto
  | .subroutine long => opcode = if long then Opcode.jsrW else Opcode.jsr
  | .switch kind => opcode = switchOpcode kind
  | .invokeVirtual => opcode = Opcode.invokevirtual
  | .widePrefix => opcode = Opcode.wide
  | .verbatim _ | .invalid => true

theorem namesShape_ofOpcode (opcode : UInt8) :
    namesShape opcode (Shape.ofOpcode opcode) = true := by
  have h : ∀ n : Fin 256, namesShape (UInt8.ofFin n) (Shape.ofOpcode (UInt8.ofFin n)) = true := by
    decide +kernel
  exact h opcode.toFin

/-! ## Instructions -/

theorem pushForm?_byte (v : Int8) : (Number.int v.toInt32).pushForm? .byte = some (.byte v) := by
  have hfits : fitsSigned 8 v.toInt32.toInt = true := by
    rw [Int8.toInt_toInt32, fitsSigned_iff]
    exact ⟨v.le_toInt, v.toInt_lt⟩
  have hv : v.toInt32.toInt8 = v := by simp
  simp only [Number.pushForm?, if_pos hfits, hv]

theorem pushForm?_short (v : Int16) :
    (Number.int v.toInt32).pushForm? .short = some (.short v) := by
  have hfits : fitsSigned 16 v.toInt32.toInt = true := by
    rw [Int16.toInt_toInt32, fitsSigned_iff]
    exact ⟨v.le_toInt, v.toInt_lt⟩
  have hv : v.toInt32.toInt16 = v := by simp
  simp only [Number.pushForm?, if_pos hfits, hv]

theorem toUInt16_le (n : UInt8) : n.toUInt16 ≤ 0xFF := by
  rw [UInt16.le_iff_toNat_le, UInt8.toNat_toUInt16]
  exact Nat.le_of_lt_succ n.toNat_lt

theorem localAccess_indexed {base shortBase : UInt8} {slot : UInt8} {type : TypeTag}
    (h : 4 ≤ slot) :
    localAccess base shortBase slot.toUInt16 type = (base + type.familyIndex) :: encode slot := by
  have hnot : ¬ slot.toUInt16 ≤ 3 := by
    rw [UInt16.le_iff_toNat_le, UInt8.toNat_toUInt16]
    have := UInt8.le_iff_toNat_le.mp h
    simp at this ⊢
    omega
  have hslot : slot.toUInt16.toUInt8 = slot := by simp
  simp only [localAccess, if_neg hnot, if_pos (toUInt16_le slot), hslot, Decoding.encode_byte]

theorem localAccess_wide {base shortBase : UInt8} {slot : UInt16} {type : TypeTag}
    (h : 0xFF < slot) :
    localAccess base shortBase slot type =
      Opcode.wide :: (base + type.familyIndex) :: encode slot := by
  have hlt := UInt16.lt_iff_toNat_lt.mp h
  have hnot : ¬ slot ≤ 3 := by
    rw [UInt16.le_iff_toNat_le]
    simp at hlt ⊢
    omega
  have hnot' : ¬ slot ≤ 0xFF := by
    rw [UInt16.le_iff_toNat_le]
    simp at hlt ⊢
    omega
  simp only [localAccess, if_neg hnot, if_neg hnot']

theorem increment_narrow (slot : UInt8) (amount : Int8) :
    increment slot.toUInt16 amount.toInt16 = Opcode.iinc :: (encode slot ++ encode amount) := by
  have hfits : fitsSigned 8 amount.toInt16.toInt = true := by
    rw [Int8.toInt_toInt16, fitsSigned_iff]
    exact ⟨amount.le_toInt, amount.toInt_lt⟩
  have hslot : slot.toUInt16.toUInt8 = slot := by simp
  have hamount : amount.toInt16.toInt8 = amount := by simp
  have hsmall : (slot.toUInt16 ≤ 0xFF && fitsSigned 8 amount.toInt16.toInt) = true := by
    rw [Bool.and_eq_true, decide_eq_true_eq]
    exact ⟨toUInt16_le slot, hfits⟩
  rw [increment, if_pos hsmall, hslot, hamount, Decoding.encode_byte]
  rfl

theorem increment_wide {slot : UInt16} {amount : Int16} {rest : List UInt8}
    (h : Decoding.compactWide .increment (encode slot ++ encode amount ++ rest) = true) :
    increment slot amount = Opcode.wide :: Opcode.iinc :: (encode slot ++ encode amount) := by
  have hdrop : (encode slot ++ (encode amount ++ rest)).drop 2 = encode amount ++ rest :=
    List.drop_left' (BigEndian.length_encode slot)
  simp only [Decoding.compactWide, List.append_assoc, hdrop, Decoding.leading_encode,
    Bool.or_eq_true, decide_eq_true_eq, Bool.not_eq_true'] at h
  have hwide : ¬ (slot ≤ 0xFF && fitsSigned 8 amount.toInt) = true := by
    rw [Bool.and_eq_true, decide_eq_true_eq]
    rintro ⟨hslot, hamount⟩
    rcases h with hlt | hfar
    · exact UInt16.not_le.mpr hlt hslot
    · rw [hfar] at hamount
      cases hamount
  rw [increment, if_neg hwide]

section

variable {offsets : Handle → Option Nat} {handle : Handle} {offset : Nat} {pool : ConstantPool}
  {code : Instruction Handle} {opcode : UInt8} {shape : Shape} {operands rest : List UInt8}
  {f : Handle → Nat}

/-- An instruction with wide operands is written as it was read if it needs them. -/
theorem instruction_of_wideOperands {bytes : List UInt8}
    (h : Decoding.WideOperands opcode (Shape.ofOpcode opcode) (code.mapTargets f) bytes)
    (compact : Decoding.compactWide (Shape.ofOpcode opcode) (bytes ++ rest) = true) :
    instruction offsets handle false code = .ok (Opcode.wide :: opcode :: bytes) := by
  have hname := namesShape_ofOpcode opcode
  cases hs : Shape.ofOpcode opcode with
  | load type | store type =>
    rw [hs] at h compact hname
    obtain ⟨slot, he, rfl⟩ := h
    cases code <;> cases he
    simp only [Decoding.compactWide, Decoding.leading_encode, decide_eq_true_eq] at compact
    rw [of_decide_eq_true hname]
    exact congrArg Except.ok (localAccess_wide compact)
  | increment =>
    rw [hs] at h compact hname
    obtain ⟨slot, amount, he, rfl⟩ := h
    cases code <;> cases he
    rw [of_decide_eq_true hname]
    exact congrArg Except.ok (increment_wide compact)
  | _ =>
    rw [hs] at h
    obtain ⟨hret, -, he⟩ := h
    cases code <;> cases he
    simp [instruction]

theorem instruction_of_constant (family : Decoding.family shape = .constant)
    (name : namesShape opcode shape = true)
    (h : Decoding.Operands pool offset opcode shape (code.mapTargets f) operands)
    (compact : Decoding.compactOperands offset shape (operands ++ rest) = true) :
    instruction offsets handle false code = .ok (opcode :: operands) := by
  cases shape with
  | literal value type =>
    obtain ⟨he, rfl⟩ := h
    cases code <;> cases he
    simp only [instruction, push, of_decide_eq_true name]
  | pushByte =>
    obtain ⟨value, he, rfl⟩ := h
    cases code <;> cases he
    simp only [instruction, push, pushForm?_byte, of_decide_eq_true name]
  | pushShort =>
    obtain ⟨value, he, rfl⟩ := h
    cases code <;> cases he
    simp only [instruction, push, pushForm?_short, of_decide_eq_true name]
  | loadConstant =>
    obtain ⟨index, he, rfl⟩ := h
    cases code <;> cases he
    have hi : index.toUInt16.toUInt8 = index := by simp
    simp [instruction, loadConstant, toUInt16_le index, hi, Decoding.encode_byte,
      of_decide_eq_true name]
  | loadConstantIndexed wide =>
    obtain ⟨index, he, rfl⟩ := h
    cases code <;> cases he
    rw [of_decide_eq_true name]
    cases wide with
    | true => rfl
    | false =>
      simp only [Decoding.compactOperands, Decoding.leading_encode, Bool.false_or,
        decide_eq_true_eq] at compact
      simp [instruction, loadConstant, UInt16.not_le.mpr compact]
  | _ => cases family

theorem instruction_of_slot (family : Decoding.family shape = .slot)
    (name : namesShape opcode shape = true)
    (h : Decoding.Operands pool offset opcode shape (code.mapTargets f) operands)
    (compact : Decoding.compactOperands offset shape (operands ++ rest) = true) :
    instruction offsets handle false code = .ok (opcode :: operands) := by
  cases shape with
  | load type | store type =>
    obtain ⟨slot, he, rfl⟩ := h
    cases code <;> cases he
    simp only [Decoding.compactOperands, Decoding.leading_encode, decide_eq_true_eq] at compact
    rw [of_decide_eq_true name]
    exact congrArg Except.ok (localAccess_indexed compact)
  | loadSlot slot type | storeSlot slot type =>
    obtain ⟨he, rfl⟩ := h
    cases code <;> cases he
    exact congrArg Except.ok (of_decide_eq_true name)
  | increment =>
    obtain ⟨slot, amount, he, rfl⟩ := h
    cases code <;> cases he
    rw [of_decide_eq_true name]
    exact congrArg Except.ok (increment_narrow slot amount)
  | _ => cases family

theorem instruction_of_fixed (family : Decoding.family shape = .fixed)
    (name : namesShape opcode shape = true)
    (h : Decoding.Operands pool offset opcode shape (code.mapTargets f) operands) :
    instruction offsets handle false code = .ok (opcode :: operands) := by
  cases shape with
  | arithmetic op type =>
    obtain ⟨he, rfl⟩ := h
    cases code <;> cases he
    obtain ⟨hopcode, hvalid⟩ := Bool.and_eq_true_iff.mp name
    rw [Bool.not_eq_true'] at hvalid
    simp only [instruction, hvalid, of_decide_eq_true hopcode, Bool.false_eq_true, if_false]
  | convert source target =>
    obtain ⟨he, rfl⟩ := h
    cases code <;> cases he
    simp only [instruction, of_decide_eq_true name]
  | compare kind =>
    obtain ⟨he, rfl⟩ := h
    cases code <;> cases he
    rw [of_decide_eq_true name]
    rfl
  | invokeVirtual =>
    obtain ⟨index, he, rfl⟩ := h
    cases code <;> cases he
    rw [of_decide_eq_true name]
    rfl
  | verbatim info =>
    obtain ⟨-, stack, -, he⟩ := h
    cases code <;> cases he
    simp [instruction]
  | _ => cases family

theorem instruction_of_transfer (family : Decoding.family shape = .transfer)
    (name : namesShape opcode shape = true) (hoffset : offsets handle = some offset)
    (placed : ∀ target ∈ code.targets, Placed offsets target)
    (bounded : ∀ handle, placeOf offsets handle ≤ 65535) (few : code.FewCases)
    (h : Decoding.Operands pool offset opcode shape (code.mapTargets (placeOf offsets)) operands)
    (compact : Decoding.compactOperands offset shape (operands ++ rest) = true) :
    instruction offsets handle false code = .ok (opcode :: operands) := by
  cases shape with
  | branch condition =>
    obtain ⟨target, he, ht⟩ := h
    cases code <;> cases he
    rw [of_decide_eq_true name]
    have hd := (shortDisplacement_eq_ok hoffset (placed _ (List.mem_singleton.mpr rfl))).mpr ht
    exact Outcome.bind_eq_ok.mpr ⟨operands, hd, rfl⟩
  | jump long | subroutine long =>
    obtain ⟨target, he, ht⟩ := h
    cases code <;> cases he
    cases long with
    | true => cases compact
    | false =>
      rw [of_decide_eq_true name]
      have hd := (shortDisplacement_eq_ok hoffset (placed _ (List.mem_singleton.mpr rfl))).mpr ht
      exact Outcome.bind_eq_ok.mpr ⟨operands, hd, rfl⟩
  | switch kind =>
    obtain ⟨padding, default, cases, cases', he, hlength, -, hcases, rfl⟩ := h
    cases code <;> cases he
    have hpadding : padding = List.replicate (switchPadding offset) 0 := by
      simp only [Decoding.compactOperands, List.append_assoc, ← hlength, List.take_left,
        List.all_eq_true, beq_iff_eq] at compact
      exact List.eq_replicate_iff.mpr ⟨hlength, compact⟩
    rw [of_decide_eq_true name, hpadding]
    exact (switch_eq_ok hoffset placed bounded few).mpr ⟨cases', hcases, rfl⟩
  | _ => cases family

/-- An instruction in compact form is written as it was read. -/
theorem instruction_of_format (hoffset : offsets handle = some offset)
    (placed : ∀ target ∈ code.targets, Placed offsets target)
    (bounded : ∀ handle, placeOf offsets handle ≤ 65535) (few : code.FewCases)
    {bytes : List UInt8}
    (h : Decoding.Format pool offset (code.mapTargets (placeOf offsets)) bytes)
    (compact : Decoding.compactAt offset (bytes ++ rest) = true) :
    instruction offsets handle false code = .ok bytes := by
  obtain ⟨opcode, operands, rfl, h⟩ := h
  have name := namesShape_ofOpcode opcode
  change Decoding.compactOperands offset (Shape.ofOpcode opcode) (operands ++ rest) =
    true at compact
  generalize Shape.ofOpcode opcode = shape at h name compact
  cases family : Decoding.family shape with
  | constant => exact instruction_of_constant family name h compact
  | slot => exact instruction_of_slot family name h compact
  | fixed => exact instruction_of_fixed family name h
  | transfer => exact instruction_of_transfer family name hoffset placed bounded few h compact
  | wide =>
    cases shape <;> cases family
    obtain ⟨inner, operands, rfl, h⟩ := h
    rw [of_decide_eq_true name]
    exact instruction_of_wideOperands h compact
  | invalid =>
    cases shape <;> cases family
    exact h.elim

end

end Encoding

/-! ## Resolved targets -/

theorem Instruction.mapTargets_of_mapTargetsM {τ σ : Type} {resolve : τ → Except Error σ}
    {f : σ → τ} {P : σ → Prop} (h : ∀ t s, resolve t = .ok s → f s = t ∧ P s) {code : Instruction τ}
    {resolved : Instruction σ} (hm : code.mapTargetsM resolve = .ok resolved) :
    resolved.mapTargets f = code ∧ ∀ target ∈ resolved.targets, P target := by
  cases code with
  | branch condition target | jump target | subroutine target =>
    obtain ⟨s, hs, hm⟩ := Outcome.bind_eq_ok.mp hm
    cases hm
    obtain ⟨rfl, hp⟩ := h target s hs
    exact ⟨rfl, fun t ht => by rw [List.mem_singleton.mp ht]; exact hp⟩
  | switch kind default cases =>
    obtain ⟨s, hs, hm⟩ := Outcome.bind_eq_ok.mp hm
    obtain ⟨resolvedCases, hcases, hm⟩ := Outcome.bind_eq_ok.mp hm
    cases hm
    obtain ⟨rfl, hp⟩ := h default s hs
    have hmap : resolvedCases.map (fun case => (case.1, f case.2)) = cases ∧
        ∀ target ∈ resolvedCases.map (·.2), P target := by
      have hall := Outcome.list_mapM_eq_ok.mp hcases
      clear * - h hall
      induction hall with
      | nil => exact ⟨rfl, by simp⟩
      | @cons case _ rest _ hcase _ ih =>
        obtain ⟨t, ht, hcase⟩ := Outcome.bind_eq_ok.mp hcase
        cases hcase
        obtain ⟨he, hpt⟩ := h case.2 t ht
        exact ⟨by rw [List.map_cons, ih.1, he], List.forall_mem_cons.mpr ⟨hpt, ih.2⟩⟩
    exact ⟨by rw [mapTargets, hmap.1], List.forall_mem_cons.mpr ⟨hp, hmap.2⟩⟩
  | _ =>
    cases hm
    exact ⟨rfl, fun t ht => by cases ht⟩

/-- A switch takes at least four bytes for each of its cases. -/
theorem Decoding.Format.fewCases {pool : ConstantPool} {offset : Nat} {code : Instruction Nat}
    {bytes : List UInt8} (h : Format pool offset code bytes) (short : bytes.length ≤ 65535) :
    code.FewCases := by
  cases code with
  | switch kind default cases =>
    obtain ⟨opcode, operands, rfl, h⟩ := h
    cases hs : Shape.ofOpcode opcode with
    | switch kind' =>
      rw [hs] at h
      obtain ⟨padding, _, _, rest, he, hlength, -, hcases, rfl⟩ := h
      cases he
      have hsize : (Instruction.switch kind default cases).size offset false ≤ 65535 := by
        rw [← Encoding.length_cases hcases]
        simp only [List.length_cons, List.length_append, hlength, length_longDistance] at short
        omega
      exact Instruction.fewCases_of_size hsize
    | widePrefix =>
      rw [hs] at h
      obtain ⟨inner, rest, rfl, h⟩ := h
      cases hi : Shape.ofOpcode inner <;> simp [hi, WideOperands] at h
    | _ => simp [hs, Operands, Kept] at h
  | _ => trivial

theorem Instruction.fewCases_mapTargets {τ σ : Type} {f : τ → σ} {code : Instruction τ} :
    (code.mapTargets f).FewCases ↔ code.FewCases := by
  cases code with
  | switch kind default cases => simp only [mapTargets, FewCases, List.length_map]
  | _ => exact Iff.rfl

/-! ## Items and lines -/

namespace Decoding

variable {pool : ConstantPool} {offset : Nat} {items : List (Nat × Instruction Nat)}
  {bytes : List UInt8}

theorem Formats.bounds (h : Formats pool offset items bytes) {item : Nat × Instruction Nat}
    (hm : item ∈ items) : offset ≤ item.1 ∧ item.1 < offset + bytes.length := by
  induction items generalizing offset bytes with
  | nil => cases hm
  | cons head rest ih =>
    obtain ⟨xs, ys, hhead, hformat, hrest, rfl⟩ := h
    have hpos := List.length_pos_iff.mpr hformat.ne_nil
    rw [List.length_append]
    rcases List.mem_cons.mp hm with rfl | hm
    · omega
    · have := ih hrest hm
      omega

theorem Formats.nodup (h : Formats pool offset items bytes) : (items.map (·.1)).Nodup := by
  induction items generalizing offset bytes with
  | nil => exact List.nodup_nil
  | cons head rest ih =>
    obtain ⟨xs, ys, hhead, hformat, hrest, rfl⟩ := h
    refine List.nodup_cons.mpr ⟨fun hm => ?_, ih hrest⟩
    obtain ⟨item, hm, he⟩ := List.mem_map.mp hm
    have hpos := List.length_pos_iff.mpr hformat.ne_nil
    have := (hrest.bounds hm).1
    have hfirst : item.1 = head.1 := he
    omega

/-- The offset of every instruction under its place in the stream. -/
def starts (items : List (Nat × Instruction Nat)) : Std.HashMap Handle Nat :=
  items.zipIdx.foldl (fun table entry => table.insert ⟨entry.2⟩ entry.1.1) ∅

/-- The table gives the offset of every instruction under its place in the stream, and nothing
else. -/
def Locates (table : Handle → Option Nat) (items : List (Nat × Instruction Nat)) : Prop :=
  ∀ (handle : Handle) (place : Nat),
    table handle = some place ↔ ∃ code, items[handle.index]? = some (place, code)

theorem locates_starts (items : List (Nat × Instruction Nat)) : Locates (starts items) items := by
  intro handle place
  have hnodup : (items.zipIdx.map fun entry => Handle.mk entry.2).Nodup := by
    have hkeys : (items.zipIdx.map fun entry => Handle.mk entry.2) =
        (List.range' 0 items.length).map Handle.mk := by
      rw [← List.zipIdx_map_snd 0 items, List.map_map]
      rfl
    rw [hkeys]
    exact List.Nodup.map (fun _ _ => Handle.mk.inj) List.nodup_range'
  rw [starts, getElem?_foldl_insert hnodup]
  constructor
  · rintro ⟨⟨item, index⟩, hm, rfl, rfl⟩
    exact ⟨item.2, List.mk_mem_zipIdx_iff_getElem?.mp hm⟩
  · rintro ⟨code, hi⟩
    exact ⟨((place, code), handle.index), List.mk_mem_zipIdx_iff_getElem?.mpr hi, rfl, rfl⟩

theorem Locates.of_resolveOffset {table : Handle → Option Nat} (h : Locates table items)
    (distinct : (items.map (·.1)).Nodup) {size target : Nat} {handle : Handle}
    (hr : resolveOffset (boundaries items.toArray) size target = .ok handle) :
    table handle = some target := by
  cases hb : (boundaries items.toArray)[target]? with
  | none => simp [resolveOffset, hb] at hr
  | some index =>
    rw [resolveOffset, hb] at hr
    cases hr
    exact (h _ _).mpr ((boundaries_eq_some distinct).mp hb)

theorem Locates.bounded {table : Handle → Option Nat} (h : Locates table items)
    (hf : Formats pool 0 items bytes) (short : bytes.length ≤ 65535) (handle : Handle) :
    Encoding.placeOf table handle ≤ 65535 := by
  rw [Encoding.placeOf]
  cases hp : table handle with
  | none => exact Nat.zero_le _
  | some place =>
    obtain ⟨code, hi⟩ := (h handle place).mp hp
    have := (hf.bounds (List.mem_of_getElem? hi)).2
    rw [Option.getD_some]
    simp only at this
    omega

end Decoding

namespace Listing

section

variable {table : Handle → Option Nat}

/-- The line stands where the instruction was read, and refers to the same places. -/
structure ReadsAs (table : Handle → Option Nat) (item : Nat × Instruction Nat) (line : Line) :
    Prop where
  offset_eq : table line.handle = some item.1
  short : line.long = false
  instruction_eq : line.instruction.mapTargets (Encoding.placeOf table) = item.2
  placed : ∀ target ∈ line.instruction.targets, Encoding.Placed table target

theorem readsAs_of_locates {items : List (Nat × Instruction Nat)}
    {instructions : List (Instruction Handle)} (h : Decoding.Locates table items)
    (distinct : (items.map (·.1)).Nodup) {size : Nat}
    (resolved : List.Forall₂ (fun item instruction => item.2.mapTargetsM
      (Decoding.resolveOffset (Decoding.boundaries items.toArray) size) = .ok instruction)
      items instructions) :
    List.Forall₂ (ReadsAs table) items (numbered instructions) := by
  have htarget : ∀ target handle,
      Decoding.resolveOffset (Decoding.boundaries items.toArray) size target = .ok handle →
        Encoding.placeOf table handle = target ∧ Encoding.Placed table handle := by
    intro target handle hr
    have hp := h.of_resolveOffset distinct hr
    exact ⟨by rw [Encoding.placeOf, hp, Option.getD_some], Encoding.placed_of_eq_some hp⟩
  rw [List.forall₂_iff_get] at resolved ⊢
  obtain ⟨hlength, resolved⟩ := resolved
  refine ⟨by simpa [numbered] using hlength, fun i hi hi' => ?_⟩
  obtain ⟨hinstruction, hplaced⟩ :=
    Instruction.mapTargets_of_mapTargetsM htarget (resolved i hi (hlength ▸ hi))
  have hline : (numbered instructions).get ⟨i, hi'⟩ =
      ⟨⟨i⟩, instructions.get ⟨i, hlength ▸ hi⟩, false⟩ := by
    simp [numbered]
  rw [hline]
  refine ⟨(h _ _).mpr ⟨(items.get ⟨i, hi⟩).2, ?_⟩, rfl, hinstruction, hplaced⟩
  exact List.getElem?_eq_getElem hi

/-- Lines that read as compact instructions are written as those were read, and laid out where
they were. -/
theorem written_of_formats {pool : ConstantPool} {items : List (Nat × Instruction Nat)}
    {lines : List Line} (hlines : List.Forall₂ (ReadsAs table) items lines)
    (bounded : ∀ handle, Encoding.placeOf table handle ≤ 65535) {whole bytes : List UInt8}
    (short : whole.length ≤ 65535) {offset : Nat} (hbytes : whole.drop offset = bytes)
    (hformats : Decoding.Formats pool offset items bytes)
    (compact : ∀ item ∈ items, Decoding.compactAt item.1 (whole.drop item.1) = true) :
    ∃ chunks, List.Forall₂ (fun line chunk =>
        Encoding.instruction table line.handle line.long line.instruction = .ok chunk)
        lines chunks ∧
      bytes = chunks.flatten ∧ (placedFrom offset lines).map (·.2) = items.map (·.1) ∧
      lengthFrom offset lines = offset + bytes.length := by
  induction hlines generalizing offset bytes with
  | nil =>
    have hnil : bytes = [] := hformats
    exact ⟨[], .nil, hnil, rfl, by rw [hnil]; rfl⟩
  | @cons item line items lines hline _ ih =>
    obtain ⟨chunk, rest, hitem, hformat, hrest, rfl⟩ := hformats
    obtain ⟨hoffset, hshort, hinstruction, hplaced⟩ := hline
    have hlength : chunk.length ≤ 65535 := by
      have := congrArg List.length hbytes
      rw [List.length_drop, List.length_append] at this
      omega
    have hcompact := compact item List.mem_cons_self
    rw [hitem] at hoffset hcompact
    rw [hbytes] at hcompact
    rw [← hinstruction] at hformat
    have hfew := Instruction.fewCases_mapTargets.mp (hformat.fewCases hlength)
    have hchunk := Encoding.instruction_of_format hoffset hplaced bounded hfew hformat hcompact
    have hsize := Encoding.length_instruction hoffset hplaced bounded hfew hchunk
    have hdrop : whole.drop (offset + chunk.length) = rest := by
      rw [← List.drop_drop, hbytes, List.drop_left]
    obtain ⟨chunks, hchunks, hflatten, hoffsets, hlast⟩ :=
      ih hdrop hrest fun item hm => compact item (List.mem_cons_of_mem _ hm)
    refine ⟨chunk :: chunks, .cons (by rw [hshort]; exact hchunk) hchunks,
      by rw [hflatten]; rfl, ?_, ?_⟩
    · rw [placedFrom, hshort, ← hsize, List.map_cons, List.map_cons, hoffsets, hitem]
    · rw [lengthFrom, hshort, ← hsize, hlast, List.length_append, Nat.add_assoc]

/-- An instruction that is written in its short form does not have to be widened. -/
theorem widen_of_written {line : Line} {offset : Nat} (hoffset : table line.handle = some offset)
    (placed : ∀ target ∈ line.instruction.targets, Encoding.Placed table target)
    {chunk : List UInt8}
    (h : Encoding.instruction table line.handle false line.instruction = .ok chunk) :
    widen table line offset = .ok line := by
  refine widen_of_near fun target hm => ⟨_, placed target hm, ?_⟩
  cases hi : line.instruction with
  | branch condition far | jump far | subroutine far =>
    rw [hi] at h hm placed
    cases List.mem_singleton.mp hm
    obtain ⟨-, -, hfits, -⟩ := Encoding.shortTarget_of_ok hoffset (placed target hm) h
    exact .inr hfits
  | switch kind default cases => exact .inl rfl
  | _ =>
    rw [hi] at hm
    cases hm

end

variable {pool : ConstantPool} {items : List (Nat × Instruction Nat)}
  {instructions : List (Instruction Handle)}

theorem locates_offsets
    (h : (placedFrom 0 (numbered instructions)).map (·.2) = items.map (·.1)) :
    Decoding.Locates (place (numbered instructions).toArray).offsets items := by
  intro handle offset
  have hdistinct : ((numbered instructions).toArray.toList.map (·.handle)).Nodup :=
    nodup_numbered instructions
  rw [offsets_eq_some hdistinct]
  have hline : ∀ i : Nat, (placedFrom 0 (numbered instructions))[i]?.map (·.1) =
      instructions[i]?.map fun code => ⟨⟨i⟩, code, false⟩ := by
    intro i
    rw [← List.getElem?_map, map_placedFrom, numbered, List.getElem?_mapIdx]
  have hoffset : ∀ i : Nat, (placedFrom 0 (numbered instructions))[i]?.map (·.2) =
      items[i]?.map (·.1) := by
    intro i
    rw [← List.getElem?_map, h, List.getElem?_map]
  constructor
  · rintro ⟨line, hm, rfl⟩
    obtain ⟨i, hi⟩ := List.mem_iff_getElem?.mp hm
    have hl := hline i
    have ho := hoffset i
    rw [hi] at hl ho
    obtain ⟨code, -, rfl⟩ := Option.map_eq_some_iff.mp hl.symm
    obtain ⟨item, hitem, rfl⟩ := Option.map_eq_some_iff.mp ho.symm
    exact ⟨item.2, hitem⟩
  · rintro ⟨code, hitem⟩
    have ho := hoffset handle.index
    rw [hitem] at ho
    obtain ⟨pair, hpair, rfl⟩ := Option.map_eq_some_iff.mp ho
    have hl := hline handle.index
    rw [hpair] at hl
    obtain ⟨code, -, hl⟩ := Option.map_eq_some_iff.mp hl.symm
    exact ⟨pair.1, List.mem_of_getElem? hpair, congrArg Line.handle hl.symm⟩

/-- An exception handler is written as it was read. -/
theorem exceptionEntry_of_handler {table : Handle → Option Nat} {length : Nat}
    {resolve : Nat → Except Error Handle}
    (hresolve : ∀ target handle, resolve target = .ok handle → table handle = some target)
    {entry : ExceptionEntry} {handler : ExceptionHandler}
    (h : Decoding.exceptionHandler resolve length entry = .ok handler) :
    Encoding.exceptionEntry table length handler = .ok entry ∧
      ∀ handle ∈ handler.handles, ∃ place, table handle = some place := by
  obtain ⟨start, hstart, h⟩ := Outcome.bind_eq_ok.mp h
  have hs := hresolve _ _ hstart
  dsimp only at h
  split at h
  case isTrue hend =>
    rw [Outcome.pure_eq_ok, Outcome.ok_bind] at h
    obtain ⟨target, htarget, h⟩ := Outcome.bind_eq_ok.mp h
    cases h
    have ht := hresolve _ _ htarget
    constructor
    · simp [Encoding.exceptionEntry, hs, ht, ← hend]
    · simp [ExceptionHandler.handles, hs, ht]
  case isFalse =>
    obtain ⟨stop, hstop, h⟩ := Outcome.bind_eq_ok.mp h
    obtain ⟨last, hlast, rfl⟩ := Outcome.map_eq_ok.mp hstop
    obtain ⟨target, htarget, h⟩ := Outcome.bind_eq_ok.mp h
    cases h
    have hl := hresolve _ _ hlast
    have ht := hresolve _ _ htarget
    constructor
    · simp [Encoding.exceptionEntry, hs, hl, ht]
    · simp [ExceptionHandler.handles, hs, hl, ht]

/-- Nothing has to be widened in lines that are written in their short forms. -/
theorem layoutRound_of_written {lines : Array Line} {handlers : Array ExceptionHandler}
    {chunks : List (List UInt8)} (distinct : (lines.toList.map (·.handle)).Nodup)
    (hreads : List.Forall₂ (ReadsAs (place lines).offsets) items lines.toList)
    (hchunks : List.Forall₂ (fun line chunk => Encoding.instruction (place lines).offsets
      line.handle line.long line.instruction = .ok chunk) lines.toList chunks)
    (hhandlers : ∀ entry ∈ handlers.toList, ∀ handle ∈ entry.handles,
      ∃ offset, (place lines).offsets[handle]? = some offset)
    (hlength : lengthFrom 0 lines.toList ≤ 65535) :
    layoutRound handlers lines = .ok (lengthFrom 0 lines.toList, lines) := by
  refine layoutRound_eq_ok.mpr ⟨rfl, hlength, ?_, unplaced?_eq_none.mpr hhandlers⟩
  conv => arg 3; rw [← map_placedFrom 0 lines.toList]
  rw [List.forall₂_map_right_iff, List.forall₂_same]
  intro pair hm
  have hline : pair.1 ∈ lines.toList := mem_of_mem_placedFrom hm
  obtain ⟨item, -, hread⟩ := Outcome.exists_of_mem_right hreads hline
  obtain ⟨chunk, -, hchunk⟩ := Outcome.exists_of_mem_right hchunks.flip hline
  rw [hread.short] at hchunk
  exact widen_of_written ((offsets_eq_some distinct).mpr ⟨pair.1, hm, rfl⟩) hread.placed hchunk

/-- Compact code comes back from its listing byte for byte, with its exception table. -/
theorem encode_undoes_decode {code : Code} {listing : Listing} (short : code.bytes.size ≤ 65535)
    (decoded : code.decode pool = .ok listing) (compact : code.IsCompact pool) :
    listing.encode.1 = .ok (code.bytes, code.exceptionTable) := by
  obtain ⟨items, instructions, handlers, ⟨hstreams, hresolved, hhandlers⟩, rfl⟩ :=
    Code.decode_eq_ok.mp decoded
  have hformats : Decoding.Formats pool 0 items code.bytes.toList :=
    Decoding.formats_of_streams hstreams (Nat.zero_le _)
  have hcompact : ∀ item ∈ items,
      Decoding.compactAt item.1 (code.bytes.toList.drop item.1) = true := by
    intro item hm
    exact compact items.toArray (Decoding.stream_eq_ok.mpr ⟨items, hstreams, rfl⟩) item
      (List.mem_toArray.mpr hm)
  -- The lines are laid out where the instructions were read, whatever the table says of handles;
  -- so the table of the layout names the places that were read.
  have hwritten : ∀ table, Decoding.Locates table items → _ := fun table hlocates =>
    written_of_formats (readsAs_of_locates hlocates hformats.nodup hresolved)
      (hlocates.bounded hformats short) short rfl hformats hcompact
  obtain ⟨-, -, -, hplaced, hlength⟩ := hwritten _ (Decoding.locates_starts items)
  have hlocates := locates_offsets hplaced
  obtain ⟨chunks, hchunks, hbytes, -, -⟩ := hwritten _ hlocates
  have hentries := hhandlers.flip.imp fun handler entry he =>
    exceptionEntry_of_handler
      (fun target handle hr => hlocates.of_resolveOffset hformats.nodup hr) he
  have hsize : lengthFrom 0 (numbered instructions) = code.bytes.size := by
    rw [hlength, Nat.zero_add, List.drop_zero, Array.length_toList]
  have hround : layoutRound handlers.toArray (numbered instructions).toArray =
      .ok (code.bytes.size, (numbered instructions).toArray) := by
    rw [← hsize] at short ⊢
    refine layoutRound_of_written (nodup_numbered instructions)
      (readsAs_of_locates hlocates hformats.nodup hresolved) hchunks ?_ short
    intro handler hm
    obtain ⟨entry, -, he⟩ := Outcome.exists_of_mem_right hentries.flip hm
    exact he.2
  rw [encode, layout_of_unchanged hround]
  refine emit_eq_ok.mpr ⟨chunks, ?_, hbytes, rfl, ?_⟩
  · exact hchunks
  · exact hentries.imp fun handler entry he => he.1

/-- A test of slot 4 that goes back to the start or returns, under a handler for the whole code. -/
def guarded : Code := ⟨1, 5, #[0x15, 0x04, 0x99, 0xFF, 0xFE, 0xB1], #[⟨0, 6, 0, 0⟩]⟩

def guardedItems : List (Nat × Instruction Nat) :=
  [(0, .load 4 .int), (2, .branch (.zero .eq) 0),
    (5, .other ⟨0xB1, false, [], ⟨0, 0⟩, .methodReturn⟩)]

def guardedListing : Listing :=
  ⟨#[⟨⟨0⟩, .load 4 .int, false⟩, ⟨⟨1⟩, .branch (.zero .eq) ⟨0⟩, false⟩,
    ⟨⟨2⟩, .other ⟨0xB1, false, [], ⟨0, 0⟩, .methodReturn⟩, false⟩], 3,
    #[⟨⟨0⟩, none, ⟨0⟩, 0⟩], false⟩

theorem guarded_streams : Decoding.Streams .empty (.ofBytes guarded.bytes) guardedItems := by
  have hload : Shape.ofOpcode 0x15 = .load .int := by decide +kernel
  have hbranch : Shape.ofOpcode 0x99 = .branch (.zero .eq) := by decide +kernel
  have hreturn : Shape.ofOpcode 0xB1 = .verbatim ⟨"return", .none, 0, 0, .methodReturn⟩ := by
    decide +kernel
  refine Decoding.streams_of_formats (Nat.zero_le _) ⟨[0x15, 0x04], _, rfl, .mk hload ⟨4, rfl, rfl⟩,
    ⟨[0x99, 0xFF, 0xFE], _, rfl, .mk hbranch ⟨0, rfl, by decide, by decide⟩,
      ⟨[0xB1], [], rfl, .mk hreturn ⟨rfl, ⟨0, 0⟩, rfl, rfl⟩, rfl, rfl⟩, rfl⟩, rfl⟩

theorem guarded_decode : guarded.decode .empty = .ok guardedListing := by
  have hstart : Decoding.resolveOffset (Decoding.boundaries guardedItems.toArray) 6 0 =
      .ok ⟨0⟩ := by
    have hfirst : guardedItems[0]? = some (0, .load 4 .int) := rfl
    rw [Decoding.resolveOffset, (Decoding.boundaries_eq_some (by decide)).mpr ⟨_, hfirst⟩]
  refine Code.decode_eq_ok.mpr ⟨guardedItems, _, _, ⟨guarded_streams,
    .cons rfl (.cons (Outcome.bind_eq_ok.mpr ⟨_, hstart, rfl⟩) (.cons rfl .nil)),
    .cons (Outcome.bind_eq_ok.mpr ⟨_, hstart, Outcome.bind_eq_ok.mpr ⟨none, rfl,
      Outcome.bind_eq_ok.mpr ⟨_, hstart, rfl⟩⟩⟩) .nil⟩, rfl⟩

theorem encode_undoes_decode_guarded :
    guardedListing.encode.1 = .ok (#[0x15, 0x04, 0x99, 0xFF, 0xFE, 0xB1], #[⟨0, 6, 0, 0⟩]) := by
  refine encode_undoes_decode (by decide) guarded_decode ?_
  intro stream hs item hm
  cases hs.symm.trans (Decoding.stream_eq_ok.mpr ⟨guardedItems, guarded_streams, rfl⟩)
  have hall : ∀ item ∈ guardedItems,
      Decoding.compactAt item.1 (guarded.bytes.toList.drop item.1) = true := by decide +kernel
  exact hall item (List.mem_toArray.mp hm)

end Listing

end BytecodeFold
