import BytecodeFold.ConstantPool.Lookup
import BytecodeFold.Descriptor
import BytecodeFold.Instruction.Text
import BytecodeFold.Listing.Basic

/-!
# Stack depth and locals

`Listing.maxStack` walks along the control flow from the first instruction and from every
exception handler, which starts with the thrown reference on the stack. An instruction is
visited once, with the depth at which it is first reached. A subroutine starts with its
return address on the stack, and the code after the call goes on with the depth before it.

Every step of the walk takes an instruction off the ones not visited yet or an entry off
the list of what to visit, so the walk ends.
-/

namespace BytecodeFold

/-- The stack effect of an instruction. That of `invokevirtual` follows from the
descriptor of the method. -/
def Instruction.stackEffect (pool : ConstantPool) (instruction : Instruction Handle) :
    Except Error StackEffect :=
  match instruction.stackEffect?, instruction with
  | some effect, _ => .ok effect
  | none, .invokeVirtual index => do
    let descriptor ← MethodDescriptor.parse (← pool.memberDescriptor index)
    return ⟨← checkedSlots (1 + (← descriptor.parameterSlots)), descriptor.resultSlots⟩
  | none, code => .error (.invalidOperand s!"no stack behavior known for {code.text}")

namespace Listing

/-- An instruction with the handle that follows it in the stream. -/
structure Site where
  instruction : Instruction Handle
  next : Option Handle

/-- Every instruction under its handle. -/
def sites (listing : Listing) : Std.HashMap Handle Site :=
  listing.lines.zipIdx.foldl
    (fun table (line, index) =>
      table.insert line.handle ⟨line.instruction, listing.lines[index + 1]?.map (·.handle)⟩)
    ∅

/-- What to visit after an instruction, first to last, each with its depth. -/
def Site.successors (site : Site) (depth after : Nat) : List (Handle × Nat) :=
  match site.instruction with
  | .subroutine target => (site.next.toList.map (·, depth)) ++ [(target, after)]
  | instruction =>
    let next := if instruction.fallsThrough then site.next.toList else []
    (next ++ instruction.targets.reverse).map (·, after)

/-- The greatest depth reached, from the sites not visited yet and a list of what to visit
with its depth. -/
def walk (sites : Std.HashMap Handle Site) (pool : ConstantPool)
    (pending : Std.HashMap Handle Site) (agenda : List (Handle × Nat)) (deepest : Nat) :
    Except Error Nat :=
  match agenda with
  | [] => .ok deepest
  | (handle, depth) :: agenda =>
    match _found : pending[handle]? with
    | none =>
      if sites.contains handle then walk sites pool pending agenda deepest
      else .error (.invalidHandle handle)
    | some site =>
      match site.instruction.stackEffect pool with
      | .error e => .error e
      | .ok effect =>
        if depth < effect.pops then
          .error (.malformed
            (.stackUnderflow handle site.instruction.text depth effect.pops))
        else
          let after := depth - effect.pops + effect.pushes
          walk sites pool (pending.erase handle) (site.successors depth after ++ agenda)
            (max (max deepest depth) after)
  termination_by (pending.size, agenda.length)
  decreasing_by
    · exact Prod.Lex.right _ (Nat.lt_succ_self _)
    · apply Prod.Lex.left
      have present : handle ∈ pending := by
        rw [Std.HashMap.mem_iff_isSome_getElem?, _found]
        rfl
      have nonempty : pending.size ≠ 0 := fun zero =>
        Std.HashMap.isEmpty_iff_forall_not_mem.mp
          (by simp [Std.HashMap.isEmpty_eq_size_eq_zero, zero]) handle present
      rw [Std.HashMap.size_erase, if_pos present]
      omega

/-- The greatest operand stack depth on any path through the listing. -/
def maxStack (listing : Listing) (pool : ConstantPool) : Except Error UInt16 := do
  let sites := listing.sites
  let handlers := listing.handlers.toList.reverse.map fun entry => (entry.handler, 1)
  let deepest ← walk sites pool sites (handlers ++ listing.head?.toList.map (·, 0)) 0
  if deepest ≤ 65535 then return UInt16.ofNat deepest
  else throw (.malformed (.stackTooDeep deepest))

/-- The number of local slots the listing needs, the arguments included. -/
def maxLocals (listing : Listing) (argumentSlots : Nat) : Except Error UInt16 :=
  let needed := listing.lines.foldl
    (fun needed line =>
      match line.instruction.localSlot? with
      | some (slot, size) => max needed (slot.toNat + size)
      | none => needed)
    argumentSlots
  if needed ≤ 65535 then .ok (UInt16.ofNat needed)
  else .error (.malformed (.tooManyLocals needed))

end Listing

end BytecodeFold
