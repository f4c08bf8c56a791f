import BytecodeFold.Number.Basic

/-!
# Constant pool entries

An entry is a literal or refers to other entries by their index.
-/

namespace BytecodeFold

/-- One entry of a constant pool. -/
inductive Entry where
  | utf8 (text : String)
  | integer (value : Int32)
  | float (value : Binary32)
  | long (value : Int64)
  | double (value : Binary64)
  | classRef (name : UInt16)
  | stringRef (text : UInt16)
  | fieldRef (owner nameAndType : UInt16)
  | methodRef (owner nameAndType : UInt16)
  | interfaceMethodRef (owner nameAndType : UInt16)
  | nameAndType (name descriptor : UInt16)
  | methodHandle (kind : UInt8) (member : UInt16)
  | methodType (descriptor : UInt16)
  | dynamic (bootstrap nameAndType : UInt16)
  | invokeDynamic (bootstrap nameAndType : UInt16)
  | moduleName (name : UInt16)
  | packageName (name : UInt16)
  deriving DecidableEq

namespace Entry

/-- The name of the entry's kind. -/
def kindName : Entry → String
  | utf8 _ => "Utf8"
  | integer _ => "Integer"
  | float _ => "Float"
  | long _ => "Long"
  | double _ => "Double"
  | classRef _ => "Class"
  | stringRef _ => "String"
  | fieldRef .. => "FieldRef"
  | methodRef .. => "MethodRef"
  | interfaceMethodRef .. => "InterfaceMethodRef"
  | nameAndType .. => "NameAndType"
  | methodHandle .. => "MethodHandle"
  | methodType _ => "MethodType"
  | dynamic .. => "Dynamic"
  | invokeDynamic .. => "InvokeDynamic"
  | moduleName _ => "Module"
  | packageName _ => "Package"

/-- How many indices the entry takes. -/
def slots : Entry → Nat
  | long _ | double _ => 2
  | _ => 1

/-- The literal of a numeric entry. -/
def number? : Entry → Option Number
  | integer value => some (.int value)
  | long value => some (.long value)
  | float value => some (.float value)
  | double value => some (.double value)
  | _ => none

/-- The entry that holds a number. -/
def ofNumber : Number → Entry
  | .int value => integer value
  | .long value => long value
  | .float value => float value
  | .double value => double value

/-- The name and type of a member reference or a dynamic call site. -/
def nameAndType? : Entry → Option UInt16
  | fieldRef _ index | methodRef _ index | interfaceMethodRef _ index | dynamic _ index
  | invokeDynamic _ index => some index
  | _ => none

@[simp] theorem number?_ofNumber (number : Number) : (ofNumber number).number? = some number := by
  cases number <;> rfl

end Entry

end BytecodeFold
