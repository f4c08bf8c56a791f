import BytecodeFold.Code
import BytecodeFold.ConstantPool.Basic
import BytecodeFold.Descriptor

/-!
# Methods and classes

A class as far as folding is concerned: its name, version and flags, its constant pool and
its methods.
-/

namespace BytecodeFold

/-- A method; abstract and native ones have no code. -/
structure Method where
  name : String
  descriptor : String
  access : UInt16
  code : Option Code
  deriving DecidableEq

namespace Method

/-- The flag of a method that has no receiver in slot 0. -/
def staticFlag : UInt16 := 0x0008

def isStatic (method : Method) : Bool := method.access &&& staticFlag != 0

/-- Name and descriptor together, as events name a method. -/
def signature (method : Method) : String := method.name ++ method.descriptor

def parsedDescriptor (method : Method) : Except Error MethodDescriptor :=
  MethodDescriptor.parse method.descriptor

/-- The local slots taken by the arguments, the receiver included. -/
def argumentSlots (method : Method) : Except Error Nat := do
  let descriptor ← method.parsedDescriptor
  checkedSlots ((← descriptor.parameterSlots) + if method.isStatic then 0 else 1)

end Method

/-- A version of the class file format. -/
structure ClassVersion where
  major : UInt16 := 52
  minor : UInt16 := 0
  deriving DecidableEq

/-- A class. -/
structure ClassModel where
  name : String
  version : ClassVersion := {}
  /-- Public, with the modern treatment of superclass calls, unless said otherwise. -/
  access : UInt16 := 0x0021
  pool : ConstantPool := .empty
  methods : Array Method := #[]
  deriving DecidableEq

/-- The first method with this name. -/
def ClassModel.findMethod? (model : ClassModel) (name : String) : Option Method :=
  model.methods.find? (·.name == name)

end BytecodeFold
