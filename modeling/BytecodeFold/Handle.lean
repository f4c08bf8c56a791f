/-!
# Handles of instructions

An instruction keeps its handle while the listing around it is edited. A handle is
never given out twice, so a handle whose instruction is gone names nothing.
-/

namespace BytecodeFold

/-- A stable name for one instruction of a listing. -/
structure Handle where
  index : Nat
  deriving DecidableEq, Hashable

/-- Handles are written `@n` in messages. -/
def Handle.text (handle : Handle) : String := s!"@{handle.index}"

/-- What can refer to an instruction: another instruction, or an exception handler
given by its place in the exception table. -/
inductive Referrer where
  | instruction (handle : Handle)
  | exceptionHandler (index : Nat)
  deriving DecidableEq

def Referrer.text : Referrer → String
  | .instruction handle => handle.text
  | .exceptionHandler index => s!"exception handler #{index}"

end BytecodeFold
