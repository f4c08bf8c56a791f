import BytecodeFold.Proofs.Codec.Compact

/-!
# Sizes of instructions that were read

The shortest form of an instruction takes no more bytes than the form that it was read from. A
branch that was read reaches its target with two bytes, unless it was a jump in its long form.
-/

namespace BytecodeFold

open BigEndian (encode)

namespace Decoding

variable {pool : ConstantPool} {offset : Nat} {code : Instruction Nat} {bytes : List UInt8}

/-- An instruction at an offset has room in this many bytes, and reaches its targets from there in
its short form, or has room for its long one. -/
structure HasRoom (offset : Nat) (code : Instruction Nat) (length : Nat) : Prop where
  size_le : code.size offset false ≤ length
  reach : ∀ target ∈ code.targets, code.isSwitch = true ∨
    fitsSigned 16 ((target : Int) - offset) = true ∨ code.isJump = true ∧ 5 ≤ length

theorem HasRoom.of_targets_eq_nil {length : Nat} (h : code.size offset false ≤ length)
    (targets : code.targets = []) : HasRoom offset code length := by
  refine ⟨h, ?_⟩
  rw [targets]
  intro target hm
  cases hm

theorem size_localAccess_le (slot : UInt8) :
    (if slot.toUInt16 ≤ 3 then 1 else if slot.toUInt16 ≤ 0xFF then 2 else 4) ≤ 2 := by
  rw [if_pos (Encoding.toUInt16_le slot)]
  split <;> omega

/-- Whether the slot that an opcode names by itself is one of the first four. -/
def namesFirstSlots : Shape → Bool
  | .loadSlot slot _ | .storeSlot slot _ => slot ≤ 3
  | _ => true

theorem namesFirstSlots_ofOpcode (opcode : UInt8) :
    namesFirstSlots (Shape.ofOpcode opcode) = true := by
  have hall : ∀ n : Fin 256, namesFirstSlots (Shape.ofOpcode (UInt8.ofFin n)) = true := by
    decide +kernel
  exact hall opcode.toFin

theorem hasRoom_of_wideOperands {opcode : UInt8} {shape : Shape}
    (h : WideOperands opcode shape code bytes) : HasRoom offset code (bytes.length + 2) := by
  cases shape with
  | load type | store type =>
    obtain ⟨slot, rfl, rfl⟩ := h
    refine .of_targets_eq_nil ?_ rfl
    rw [BigEndian.length_encode, Instruction.size]
    change _ ≤ 4
    split
    · omega
    · split <;> omega
  | increment =>
    obtain ⟨slot, amount, rfl, rfl⟩ := h
    refine .of_targets_eq_nil ?_ rfl
    rw [List.length_append, BigEndian.length_encode, BigEndian.length_encode, Instruction.size]
    change _ ≤ 6
    split <;> omega
  | _ =>
    obtain ⟨-, hlength, rfl⟩ := h
    refine .of_targets_eq_nil ?_ rfl
    simp only [Instruction.size, if_true, hlength]
    omega

section

variable {opcode : UInt8} {shape : Shape} {operands : List UInt8}

theorem hasRoom_of_constant (family : family shape = .constant)
    (name : Encoding.namesShape opcode shape = true)
    (h : Operands pool offset opcode shape code operands) :
    HasRoom offset code (operands.length + 1) := by
  cases shape with
  | literal value type =>
    obtain ⟨rfl, rfl⟩ := h
    have hform : value.pushForm? type = some (.opcode opcode) := of_decide_eq_true name
    exact .of_targets_eq_nil (by simp [Instruction.size, hform]) rfl
  | pushByte =>
    obtain ⟨value, rfl, rfl⟩ := h
    refine .of_targets_eq_nil ?_ rfl
    simp only [Instruction.size, Encoding.pushForm?_byte]
    exact Nat.le_refl 2
  | pushShort =>
    obtain ⟨value, rfl, rfl⟩ := h
    refine .of_targets_eq_nil ?_ rfl
    simp only [Instruction.size, Encoding.pushForm?_short]
    exact Nat.le_refl 3
  | loadConstant =>
    obtain ⟨index, rfl, rfl⟩ := h
    refine .of_targets_eq_nil ?_ rfl
    simp only [Instruction.size, Bool.not_false, Bool.true_and, decide_eq_true_eq,
      if_pos (Encoding.toUInt16_le index)]
    exact Nat.le_refl 2
  | loadConstantIndexed wide =>
    obtain ⟨index, rfl, rfl⟩ := h
    refine .of_targets_eq_nil ?_ rfl
    rw [BigEndian.length_encode, Instruction.size]
    change _ ≤ 3
    split <;> omega
  | _ => cases family

theorem hasRoom_of_slot (family : family shape = .slot) (first : namesFirstSlots shape = true)
    (h : Operands pool offset opcode shape code operands) :
    HasRoom offset code (operands.length + 1) := by
  cases shape with
  | load type | store type =>
    obtain ⟨slot, rfl, rfl⟩ := h
    exact .of_targets_eq_nil (size_localAccess_le slot) rfl
  | loadSlot slot type | storeSlot slot type =>
    obtain ⟨rfl, rfl⟩ := h
    have hslot : slot ≤ 3 := of_decide_eq_true first
    exact .of_targets_eq_nil (by simp [Instruction.size, hslot]) rfl
  | increment =>
    obtain ⟨slot, amount, rfl, rfl⟩ := h
    refine .of_targets_eq_nil ?_ rfl
    have hfits : fitsSigned 8 amount.toInt16.toInt = true := by
      rw [Int8.toInt_toInt16, fitsSigned_iff]
      exact ⟨amount.le_toInt, amount.toInt_lt⟩
    simp only [Instruction.size, hfits, Bool.and_true, decide_eq_true_eq,
      if_pos (Encoding.toUInt16_le slot)]
    exact Nat.le_refl 3
  | _ => cases family

theorem hasRoom_of_fixed (family : family shape = .fixed)
    (h : Operands pool offset opcode shape code operands) :
    HasRoom offset code (operands.length + 1) := by
  cases shape with
  | arithmetic op type | convert source target | compare kind =>
    obtain ⟨rfl, rfl⟩ := h
    exact .of_targets_eq_nil (Nat.le_refl 1) rfl
  | invokeVirtual =>
    obtain ⟨index, rfl, rfl⟩ := h
    exact .of_targets_eq_nil (Nat.le_refl 3) rfl
  | verbatim info =>
    obtain ⟨-, stack, -, rfl⟩ := h
    refine .of_targets_eq_nil ?_ rfl
    simp only [Instruction.size, Bool.false_eq_true, if_false]
    omega
  | _ => cases family

theorem hasRoom_of_transfer (family : family shape = .transfer)
    (h : Operands pool offset opcode shape code operands) :
    HasRoom offset code (operands.length + 1) := by
  cases shape with
  | branch condition =>
    obtain ⟨target, rfl, hfits, rfl⟩ := h
    refine ⟨Nat.le_refl 3, fun other hm => ?_⟩
    rw [List.mem_singleton.mp hm]
    exact .inr (.inl hfits)
  | jump long | subroutine long =>
    obtain ⟨target, rfl, h⟩ := h
    cases long with
    | true =>
      obtain ⟨-, rfl⟩ := h
      exact ⟨Nat.le_add_left 3 2, fun _ _ => .inr (.inr ⟨rfl, Nat.le_refl 5⟩)⟩
    | false =>
      obtain ⟨hfits, rfl⟩ := h
      refine ⟨Nat.le_refl 3, fun other hm => ?_⟩
      rw [List.mem_singleton.mp hm]
      exact .inr (.inl hfits)
  | switch kind =>
    obtain ⟨padding, default, cases, rest, rfl, hlength, -, hcases, rfl⟩ := h
    refine ⟨?_, fun _ _ => .inl rfl⟩
    rw [← Encoding.length_cases hcases, List.length_append, List.length_append, hlength,
      length_longDistance]
    omega
  | _ => cases family

end

/-- Whatever was read has room where it stood. -/
theorem Format.hasRoom (h : Format pool offset code bytes) : HasRoom offset code bytes.length := by
  obtain ⟨opcode, operands, rfl, h⟩ := h
  rw [List.length_cons]
  have name := Encoding.namesShape_ofOpcode opcode
  have first := namesFirstSlots_ofOpcode opcode
  generalize Shape.ofOpcode opcode = shape at h name first
  cases family : Decoding.family shape with
  | constant => exact hasRoom_of_constant family name h
  | slot => exact hasRoom_of_slot family first h
  | fixed => exact hasRoom_of_fixed family h
  | transfer => exact hasRoom_of_transfer family h
  | wide =>
    cases shape <;> cases family
    obtain ⟨inner, operands, rfl, h⟩ := h
    exact hasRoom_of_wideOperands h
  | invalid =>
    cases shape <;> cases family
    exact h.elim

end Decoding

end BytecodeFold
