import BytecodeFold.Instruction.Text

/-!
# Encoded sizes

How many bytes an instruction takes in the code array. The size of a switch depends on the
offset it stands at, because its operands start at a multiple of four; the size of a jump
depends on its form.

`Instruction.wordSize` is the size as it is computed, in checked 32-bit words.
-/

namespace BytecodeFold

/-- Whether an integer is a signed word of this many bits. -/
def fitsSigned (bits : Nat) (value : Int) : Bool :=
  let bound : Int := Nat.pow 2 (bits - 1)
  value < bound && -bound ≤ value

/-- The ways to push a literal. -/
inductive PushForm where
  | opcode (opcode : UInt8)
  | byte (value : Int8)
  | short (value : Int16)
  deriving DecidableEq

namespace Number

/-- The opcode that pushes one of the small literals `0`, `1`, …, given the opcodes for them
in order from `first` on. -/
def smallOpcode? {α : Type} [DecidableEq α] (first : UInt8) (literals : List α)
    (value : α) : Option PushForm :=
  (literals.findIdx? (· == value)).map fun index => .opcode (first + UInt8.ofNat index)

/-- How a literal tagged with a type is pushed, if it can be. -/
def pushForm? (value : Number) (type : TypeTag) : Option PushForm :=
  let byte? (v : Int32) : Option PushForm :=
    if fitsSigned 8 v.toInt then some (.byte v.toInt8) else none
  let short? (v : Int32) : Option PushForm :=
    if fitsSigned 16 v.toInt then some (.short v.toInt16) else none
  match value, type with
  | .int v, .byte => byte? v
  | .int v, .short => short? v
  | .int v, .int | .int v, .char =>
    if -1 ≤ v.toInt && v.toInt ≤ 5 then
      some (.opcode (Opcode.iconst0 + v.toInt8.toUInt8))
    else byte? v <|> short? v
  | .long v, .long => smallOpcode? Opcode.lconst0 [0, 1] v
  | .float v, .float =>
    smallOpcode? Opcode.fconst0 [.ofInt .single 0, .ofInt .single 1, .ofInt .single 2] v
  | .double v, .double => smallOpcode? Opcode.dconst0 [.ofInt .double 0, .ofInt .double 1] v
  | _, _ => none

end Number

/-- The padding between the opcode of a switch and its operands. -/
def switchPadding (offset : Nat) : Nat := (4 - (offset + 1) % 4) % 4

/-- The size of an instruction at an offset. A literal that no instruction pushes counts as
one byte. -/
def Instruction.size {τ : Type} (offset : Nat) (long : Bool) : Instruction τ → Nat
  | push value type =>
    match value.pushForm? type with
    | some (.opcode _) | none => 1
    | some (.byte _) => 2
    | some (.short _) => 3
  | loadConstant index wide => if !wide && index ≤ 0xFF then 2 else 3
  | load slot _ | store slot _ => if slot ≤ 3 then 1 else if slot ≤ 0xFF then 2 else 4
  | convert .. | arithmetic .. | compare _ => 1
  | branch .. | invokeVirtual _ => 3
  | jump _ | subroutine _ => if long then 5 else 3
  | increment slot amount => if slot ≤ 0xFF && fitsSigned 8 amount.toInt then 3 else 6
  | switch .table _ cases => 1 + switchPadding offset + 12 + 4 * cases.length
  | switch .lookup _ cases => 1 + switchPadding offset + 8 + 8 * cases.length
  | other code => 1 + (if code.wide then 1 else 0) + code.operands.length

theorem Instruction.size_pos {τ : Type} (offset : Nat) (long : Bool)
    (instruction : Instruction τ) : 0 < instruction.size offset long := by
  unfold Instruction.size
  split <;> (try split) <;> (try split) <;> omega

/-! ## Sizes in words -/

/-- The padding of a switch, computed in words. -/
def wordPadding (offset : UInt32) : Except Error UInt32 :=
  return (4 - (← checkedAdd offset 1) % 4) % 4

/-- The size of an instruction, computed in words. -/
def Instruction.wordSize {τ : Type} (offset : UInt32) (long : Bool) :
    Instruction τ → Except Error UInt32
  | switch kind _ cases => do
    let padding ← wordPadding offset
    let (fixed, each) : UInt32 × UInt32 := match kind with
      | .table => (12, 4)
      | .lookup => (8, 8)
    checkedAdd (1 + padding) (← checkedAdd fixed (← checkedMul each (wordLength cases)))
  | other code => checkedAdd (if code.wide then 2 else 1) (wordLength code.operands)
  | instruction => .ok (UInt32.ofNat (instruction.size offset.toNat long))

/-- The offset after an instruction. -/
def Instruction.wordEnd {τ : Type} (offset : UInt32) (long : Bool) (instruction : Instruction τ) :
    Except Error UInt32 :=
  instruction.wordSize offset long >>= checkedAdd offset

theorem wordPadding_eq {offset : UInt32} (h : offset.toNat + 1 < 4294967296) :
    ∃ padding, wordPadding offset = .ok padding ∧ padding.toNat = switchPadding offset.toNat := by
  have hadd : checkedAdd offset 1 = .ok (UInt32.ofNat (offset.toNat + 1)) := if_pos h
  refine ⟨(4 - UInt32.ofNat (offset.toNat + 1) % 4) % 4, ?_, ?_⟩
  · rw [wordPadding, hadd]
    rfl
  · have hmod : (UInt32.ofNat (offset.toNat + 1) % 4).toNat = (offset.toNat + 1) % 4 := by
      rw [UInt32.toNat_mod, UInt32.toNat_ofNat_of_lt' h]
      rfl
    have hle : UInt32.ofNat (offset.toNat + 1) % 4 ≤ 4 := by
      rw [UInt32.le_iff_toNat_le, hmod]
      exact Nat.le_of_lt (Nat.mod_lt _ (by decide))
    rw [UInt32.toNat_mod, UInt32.toNat_sub_of_le _ _ hle, hmod]
    rfl

/-- In words, a size is what it is in numbers, unless the offset is the last of all. -/
theorem Instruction.wordSize_eq {τ : Type} (offset : UInt32) (long : Bool)
    (instruction : Instruction τ) :
    instruction.wordSize offset long = checkedWord (instruction.size offset.toNat long) ∨
      offset.toNat + 1 = 4294967296 ∧ instruction.wordSize offset long = .error .wordOverflow := by
  -- the size of an instruction that is neither a switch nor kept byte for byte is at most six
  have hsmall : ∀ size : Nat, size ≤ 6 → Except.ok (UInt32.ofNat size) = checkedWord size :=
    fun size h => (if_pos (by omega)).symm
  cases instruction with
  | switch kind default cases =>
    by_cases hlast : offset.toNat + 1 < 4294967296
    · refine .inl ?_
      obtain ⟨padding, hp, hpadding⟩ := wordPadding_eq hlast
      have hone : (1 + padding).toNat = 1 + switchPadding offset.toNat := by
        have hlt : switchPadding offset.toNat < 4 := Nat.mod_lt _ (by decide)
        rw [UInt32.toNat_add, hpadding, UInt32.toNat_one]
        exact Nat.mod_eq_of_lt (by omega)
      cases kind with
      | table | lookup =>
        rw [wordSize, hp]
        change (checkedMul _ _ >>= fun body => checkedAdd _ body >>= checkedAdd (1 + padding)) = _
        rw [checkedMul_wordLength (by decide), ← bind_assoc, checkedWord_bind_add]
        exact (checkedWord_bind_add _ _).trans
          (by rw [hone]; simp only [size, UInt32.reduceToNat, Nat.add_assoc])
    · refine .inr ⟨by have := offset.toNat_lt; omega, ?_⟩
      have hadd : checkedAdd offset 1 = .error .wordOverflow := if_neg hlast
      have hpadding : wordPadding offset = .error .wordOverflow := by
        rw [wordPadding, hadd]
        rfl
      change (wordPadding offset >>= _) = _
      rw [hpadding]
      rfl
  | other code =>
    refine .inl ?_
    rw [wordSize, checkedAdd, toNat_wordLength, size]
    have hfixed : (if code.wide then 2 else 1 : UInt32).toNat = 1 + if code.wide then 1 else 0 := by
      split <;> rfl
    rw [hfixed]
    by_cases hl : code.operands.length ≤ 4294967295
    · rw [Nat.min_eq_left hl]
    · rw [Nat.min_eq_right (by omega), checkedWord_of_le (by omega), checkedWord_of_le (by omega)]
  | push value type =>
    refine .inl (hsmall _ ?_)
    rw [size]
    split <;> decide
  | loadConstant index wide | jump target | subroutine target | increment slot amount =>
    refine .inl (hsmall _ ?_)
    rw [size]
    split <;> decide
  | load slot type | store slot type =>
    refine .inl (hsmall _ ?_)
    rw [size]
    split
    · decide
    · split <;> decide
  | convert | arithmetic | compare =>
    exact .inl (hsmall 1 (by decide))
  | branch | invokeVirtual => exact .inl (hsmall 3 (by decide))

theorem Instruction.wordEnd_eq {τ : Type} (offset : UInt32) (long : Bool)
    (instruction : Instruction τ) :
    instruction.wordEnd offset long =
      checkedWord (offset.toNat + instruction.size offset.toNat long) := by
  rw [wordEnd]
  rcases instruction.wordSize_eq offset long with h | ⟨hlast, h⟩
  · rw [h]
    exact checkedWord_bind_add _ _
  · have hpos := instruction.size_pos offset.toNat long
    rw [h, checkedWord_of_le (by omega)]
    rfl

theorem Instruction.lt_of_wordEnd {τ : Type} {offset next : UInt32} {long : Bool}
    {instruction : Instruction τ} (h : instruction.wordEnd offset long = .ok next) :
    offset.toNat < next.toNat := by
  have hpos := instruction.size_pos offset.toNat long
  rw [wordEnd_eq, checkedWord_eq_ok] at h
  omega

end BytecodeFold
