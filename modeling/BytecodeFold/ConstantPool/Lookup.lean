import BytecodeFold.Binary.Arithmetic
import BytecodeFold.ConstantPool.Basic

/-!
# Reading a constant pool

Lookups follow the references between entries and fail on an index that is not usable and
on an entry of the wrong kind.
-/

namespace BytecodeFold.ConstantPool

/-- The entry at a usable index. -/
def entry (pool : ConstantPool) (index : UInt16) : Except Error Entry :=
  match pool.get? index with
  | some entry => .ok entry
  | none => .error (.malformed (.unusableIndex index pool.count))

/-- The literal of the numeric entry at an index. -/
def number (pool : ConstantPool) (index : UInt16) : Except Error Number := do
  match (← pool.entry index).number? with
  | some number => return number
  | none => throw (.nonNumericConstant index)

/-- The text of the entry at an index. -/
def utf8 (pool : ConstantPool) (index : UInt16) : Except Error String := do
  match ← pool.entry index with
  | .utf8 text => return text
  | other => throw (.malformed (.wrongEntry index other.kindName "Utf8"))

/-- The binary name of the class at an index. -/
def className (pool : ConstantPool) (index : UInt16) : Except Error String := do
  match ← pool.entry index with
  | .classRef name => pool.utf8 name
  | other => throw (.malformed (.wrongEntry index other.kindName "Class"))

/-- The name and the descriptor of a member reference or a dynamic call site. -/
def member (pool : ConstantPool) (index : UInt16) : Except Error (String × String) := do
  let reference ← pool.entry index
  let some pairIndex := reference.nameAndType?
    | throw (.malformed (.wrongEntry index reference.kindName "a member reference"))
  match ← pool.entry pairIndex with
  | .nameAndType name descriptor => return (← pool.utf8 name, ← pool.utf8 descriptor)
  | other => throw (.malformed (.wrongEntry pairIndex other.kindName "NameAndType"))

def memberDescriptor (pool : ConstantPool) (index : UInt16) : Except Error String :=
  return (← pool.member index).2

/-- Whether two entries hold the same value. Floating-point entries are compared as
numbers, so not-a-number differs from itself and the zeros are equal. -/
def sameValue : Entry → Entry → Bool
  | .float a, .float b => a.numericallyEqual b
  | .double a, .double b => a.numericallyEqual b
  | a, b => a == b

/-- Whether two pools hold the same values at the same indices. -/
def sameValues (left right : ConstantPool) : Bool :=
  left.count == right.count &&
    (left.slots.zip right.slots).all fun
      | (some a, some b) => sameValue a b
      | (none, none) => true
      | _ => false

end BytecodeFold.ConstantPool
