import BytecodeFold.Proofs.Codec.Reading

/-!
# Types of decoded code

An instruction is well typed if its literal has the type it is tagged with and nothing is
converted to a reference. Every instruction that is read from a code array is.
-/

namespace BytecodeFold

variable {τ σ : Type}

def Instruction.WellTyped : Instruction τ → Prop
  | push value type => value.naturalType = type.promote
  | convert _ target => target ≠ .reference
  | _ => True

def Listing.WellTyped (listing : Listing) : Prop :=
  ∀ line ∈ listing.lines.toList, line.instruction.WellTyped

theorem Instruction.wellTyped_mapTargetsM {f : τ → Except Error σ} {code : Instruction τ}
    {result : Instruction σ} (h : code.mapTargetsM f = .ok result) (typed : code.WellTyped) :
    result.WellTyped := by
  cases code with
  | push | convert =>
    cases h
    exact typed
  | branch | jump | subroutine =>
    obtain ⟨target, -, h⟩ := Outcome.bind_eq_ok.mp h
    cases h
    trivial
  | switch =>
    obtain ⟨default, -, h⟩ := Outcome.bind_eq_ok.mp h
    obtain ⟨cases, -, h⟩ := Outcome.bind_eq_ok.mp h
    cases h
    trivial
  | _ =>
    cases h
    trivial

/-- What a reader gives has a property. -/
def Reader.Yields {α : Type} (P : α → Prop) (reader : Reader α) : Prop :=
  ∀ start value stop, reader start = .ok (value, stop) → P value

namespace Reader.Yields

variable {α β : Type} {P : β → Prop}

theorem pure {b : β} (h : P b) : Yields P (Pure.pure b : Reader β) := by
  intro start value stop he
  cases he
  exact h

theorem throw (error : Error) : Yields P (MonadExcept.throw error : Reader β) := by
  intro start value stop he
  cases he

theorem bind {reader : Reader α} {next : α → Reader β} (h : ∀ a, Yields P (next a)) :
    Yields P (reader >>= next) := by
  intro start value stop he
  obtain ⟨a, mid, -, hnext⟩ := Reader.bind_eq_ok.mp he
  exact h a mid value stop hnext

end Reader.Yields

namespace Decoding

/-- Whether the literal that an opcode names is well typed, and so on for conversions. -/
def shapeTyped : Shape → Bool
  | .literal value type => value.naturalType = type.promote
  | .convert _ target => target ≠ .reference
  | _ => true

theorem shapeTyped_ofOpcode (opcode : UInt8) : shapeTyped (Shape.ofOpcode opcode) = true := by
  have h : ∀ n : Fin 256, shapeTyped (Shape.ofOpcode (UInt8.ofFin n)) = true := by
    decide +kernel
  exact h opcode.toFin

theorem wellTyped_operands (pool : ConstantPool) (offset : Nat) (opcode : UInt8) {shape : Shape}
    (typed : shapeTyped shape = true) :
    Reader.Yields Instruction.WellTyped (operands pool offset opcode shape) := by
  cases shape with
  | literal value type =>
    have ht : value.naturalType = type.promote := of_decide_eq_true typed
    exact .pure ht
  | convert source target =>
    have ht : target ≠ .reference := of_decide_eq_true typed
    exact .pure ht
  | loadSlot | storeSlot | arithmetic | compare => exact .pure trivial
  | pushByte | pushShort => exact .bind fun _ => .pure rfl
  | loadConstant | loadConstantIndexed | load | store | invokeVirtual | branch =>
    exact .bind fun _ => .pure trivial
  | increment => exact .bind fun _ => .bind fun _ => .pure trivial
  | jump long | subroutine long => cases long <;> exact .bind fun _ => .pure trivial
  | switch => exact .bind fun _ => .bind fun _ => .bind fun _ => .pure trivial
  | widePrefix =>
    refine .bind fun opcode => ?_
    unfold wideOperands
    split
    · exact .bind fun _ => .pure trivial
    · exact .bind fun _ => .pure trivial
    · exact .bind fun _ => .bind fun _ => .pure trivial
    · split
      · exact .bind fun _ => .pure trivial
      · exact .throw _
  | verbatim info =>
    change Reader.Yields Instruction.WellTyped (verbatim pool offset opcode info)
    unfold verbatim
    split
    · exact .throw _
    · exact .bind fun _ => .bind fun _ => .pure trivial
  | invalid => exact .throw _

theorem wellTyped_instruction {pool : ConstantPool} {start stop : Cursor}
    {decoded : Instruction Nat} (h : instruction pool start = .ok (decoded, stop)) :
    decoded.WellTyped := by
  obtain ⟨offset, mid, -, h⟩ := Reader.bind_eq_ok.mp h
  obtain ⟨opcode, mid', -, h⟩ := Reader.bind_eq_ok.mp h
  exact wellTyped_operands pool offset opcode (shapeTyped_ofOpcode opcode) _ _ _ h

end Decoding

theorem Code.decode_wellTyped {code : Code} {pool : ConstantPool} {listing : Listing}
    (h : code.decode pool = .ok listing) : listing.WellTyped := by
  obtain ⟨items, instructions, handlers, hd, rfl⟩ := Code.decode_eq_ok.mp h
  have hitems := hd.streams.forall fun _ _ _ hr => Decoding.wellTyped_instruction hr
  intro line hm
  obtain ⟨index, hlt, rfl⟩ := List.mem_mapIdx.mp hm
  obtain ⟨item, hitem, hr⟩ := Outcome.exists_of_mem_right hd.resolved (List.getElem_mem hlt)
  exact Instruction.wellTyped_mapTargetsM hr (hitems item hitem)

end BytecodeFold
