/-!
# Code attributes

The body of a method as it stands in a class file.
-/

namespace BytecodeFold

/-- An entry of an exception table, in offsets. `stop` is the first offset that is not
covered any more. -/
structure ExceptionEntry where
  start : UInt16
  stop : UInt16
  handler : UInt16
  catchType : UInt16
  deriving DecidableEq

/-- The code of a method. -/
structure Code where
  maxStack : UInt16
  maxLocals : UInt16
  bytes : Array UInt8
  exceptionTable : Array ExceptionEntry
  deriving DecidableEq

end BytecodeFold
