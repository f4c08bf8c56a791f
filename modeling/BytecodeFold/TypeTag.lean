/-!
# Type tags

The computational types of the machine. `long` and `double` values take two slots of the
operand stack and of the local variables, all others one. Values smaller than an `int` are
kept as `int`s.
-/

namespace BytecodeFold

/-- The type a constant, a local or an operation is tagged with. -/
inductive TypeTag where
  | byte
  | char
  | short
  | int
  | long
  | float
  | double
  | reference
  deriving DecidableEq

namespace TypeTag

def all : List TypeTag := [byte, char, short, int, long, float, double, reference]

theorem mem_all (tag : TypeTag) : tag ∈ all := by
  cases tag <;> decide

/-- The letter of the type. -/
def text : TypeTag → String
  | byte => "B"
  | char => "C"
  | short => "S"
  | int => "I"
  | long => "J"
  | float => "F"
  | double => "D"
  | reference => "L"

/-- The type of such a value on the operand stack. -/
def promote : TypeTag → TypeTag
  | byte | char | short => int
  | tag => tag

/-- How many slots a value of the type takes. -/
def slots : TypeTag → Nat
  | long | double => 2
  | _ => 1

def isWide (tag : TypeTag) : Bool := tag.slots = 2

def isIntegral : TypeTag → Bool
  | byte | char | short | int | long => true
  | _ => false

def isFloating : TypeTag → Bool
  | float | double => true
  | _ => false

/-- The letter that starts the mnemonics of the type's instructions. -/
def mnemonicLetter (tag : TypeTag) : Char :=
  match tag.promote with
  | long => 'l'
  | float => 'f'
  | double => 'd'
  | reference => 'a'
  | _ => 'i'

/-- The place of the type in the instruction families that are ordered
`int`, `long`, `float`, `double`, `reference`. -/
def familyIndex (tag : TypeTag) : UInt8 :=
  match tag.promote with
  | long => 1
  | float => 2
  | double => 3
  | reference => 4
  | _ => 0

end TypeTag

end BytecodeFold
