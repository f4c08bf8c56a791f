import BytecodeFold.Handle

/-!
# Errors

Every failure of the library is one of these causes. `Malformation` says what is wrong
with code, constant pool or descriptor; `Error` adds the failures that do not blame
the class file. The wording is in `Malformation.message` and `Error.message` alone.

Sizes and offsets are 32-bit words and slot counts 16-bit words, and sums of them are checked:
a sum that does not fit its word is `Error.wordOverflow`. Nothing handles that error, so
whatever runs into it stops there.
-/

namespace BytecodeFold

/-- What is wrong with a class file. -/
inductive Malformation where
  /-- A fault a caller found, in the caller's words. -/
  | note (text : String)
  | notABoundary (offset codeLength : Nat)
  | branchBeforeCode (offset : Nat) (target : Int)
  | emptyTable (offset : Nat) (low high : Int)
  | negativePairCount (offset : Nat) (count : Int)
  | unsortedKey (offset : Nat) (key : Int)
  | notWidenable (offset : Nat) (opcode : UInt8)
  | invalidOpcode (offset : Nat) (opcode : UInt8)
  | variableLength (offset : Nat) (mnemonic : String)
  | noDimensions (offset : Nat)
  | codeTooLong (length : Nat)
  | lengthMismatch (encoded laidOut : Nat)
  | stackUnderflow (handle : Handle) (instruction : String) (depth pops : Nat)
  | stackTooDeep (depth : Nat)
  | tooManyLocals (count : Nat)
  | unusableIndex (index : UInt16) (count : Nat)
  | wrongEntry (index : UInt16) (found expected : String)
  | trailingField (descriptor : String)
  | trailingMethod (descriptor : String)
  | noParameterList (descriptor : String)
  | emptyClassName (descriptor : String)
  | invalidType (character : Char) (descriptor : String)
  deriving DecidableEq

/-- Two upper-case hexadecimal digits. -/
def hexByte (byte : UInt8) : String :=
  let digit (n : Nat) : Char := (Nat.digitChar n).toUpper
  String.ofList [digit (byte.toNat / 16), digit (byte.toNat % 16)]

def Malformation.message : Malformation → String
  | note text => text
  | notABoundary offset codeLength =>
    s!"Offset {offset} is not an instruction boundary (code length {codeLength})"
  | branchBeforeCode offset target => s!"Branch at offset {offset} targets invalid offset {target}"
  | emptyTable offset low high => s!"tableswitch at offset {offset} has low {low} above high {high}"
  | negativePairCount offset count =>
    s!"lookupswitch at offset {offset} has negative pair count {count}"
  | unsortedKey offset key => s!"lookupswitch at offset {offset} has unsorted key {key}"
  | notWidenable offset opcode => s!"wide at offset {offset} modifies opcode 0x{hexByte opcode}"
  | invalidOpcode offset opcode => s!"Invalid opcode 0x{hexByte opcode} at offset {offset}"
  | variableLength offset mnemonic =>
    s!"Opcode {mnemonic} at offset {offset} cannot be kept opaque"
  | noDimensions offset => s!"multianewarray at offset {offset} has zero dimensions"
  | codeTooLong length => s!"Code array of {length} bytes exceeds the 65535 byte limit"
  | lengthMismatch encoded laidOut => s!"Encoded {encoded} bytes but layout computed {laidOut}"
  | stackUnderflow handle instruction depth pops =>
    s!"Stack underflow at {handle.text} ({instruction}): depth {depth} but pops {pops}"
  | stackTooDeep depth => s!"Operand stack depth {depth} exceeds 65535"
  | tooManyLocals count => s!"Method needs {count} local slots"
  | unusableIndex index count => s!"Constant pool index {index} is not usable (count {count})"
  | wrongEntry index found expected =>
    s!"Constant pool entry {index} is {found}, expected {expected}"
  | trailingField descriptor => s!"Trailing characters in field descriptor '{descriptor}'"
  | trailingMethod descriptor => s!"Trailing characters in method descriptor '{descriptor}'"
  | noParameterList descriptor => s!"Method descriptor '{descriptor}' does not start with '('"
  | emptyClassName descriptor => s!"Empty class name in descriptor '{descriptor}'"
  | invalidType character descriptor =>
    s!"Invalid type character '{character}' in descriptor '{descriptor}'"

/-- Why an operation failed. -/
inductive Error where
  | malformed (cause : Malformation)
  | outOfBounds
  | unresolvedLoad (slot : UInt16)
  | nonNumericConstant (index : UInt16)
  | danglingTarget (target : Handle) (referrer : Referrer)
  | unsupportedOperation (text : String)
  | unsupportedComparison (text : String)
  | poolOverflow
  | branchOutOfRange (offset : Nat)
  | invalidHandle (handle : Handle)
  | invalidOperand (text : String)
  /-- A sum or product does not fit its word. -/
  | wordOverflow
  deriving DecidableEq

namespace Error

/-- What went wrong, in words. -/
def message : Error → String
  | malformed cause => cause.message
  | outOfBounds => "Out of Bound read would have occurred!"
  | unresolvedLoad slot => s!"Load of local {slot} does not resolve to a constant"
  | nonNumericConstant index => s!"Constant pool entry {index} is not numeric"
  | danglingTarget target referrer =>
    s!"Deleting {target.text} would orphan its reference from {referrer.text}"
  | unsupportedOperation text => s!"Unsupported arithmetic operation - {text}"
  | unsupportedComparison text => s!"Unsupported comparison - {text}"
  | poolOverflow => "Constant pool is full"
  | branchOutOfRange offset => s!"Branch at offset {offset} cannot reach its target"
  | invalidHandle handle => s!"Invalid instruction handle - {handle.text}"
  | invalidOperand text => s!"Invalid operand - {text}"
  | wordOverflow => "Arithmetic overflow"

/-- The message for a diagnostic that names the place where the error was raised. Only
a malformed class file is reported with its place. -/
def report (file : String) (line : Nat) : Error → String
  | malformed cause => s!"Malformed - {file}:{line}: {cause.message}"
  | error => error.message

/-- Recoverable errors only say that one match cannot be folded. -/
def isRecoverable : Error → Bool
  | unresolvedLoad _ | nonNumericConstant _ => true
  | _ => false

/-- Method-local errors give up one method and leave the rest of the class alone. -/
def isMethodLocal : Error → Bool
  | danglingTarget .. | unsupportedOperation _ | unsupportedComparison _ | poolOverflow
  | branchOutOfRange _ => true
  | _ => false

end Error

/-! ## Checked words -/

/-- A number as a 32-bit word, if it fits one. -/
def checkedWord (value : Nat) : Except Error UInt32 :=
  if value < 4294967296 then .ok (UInt32.ofNat value) else .error .wordOverflow

def checkedAdd (a b : UInt32) : Except Error UInt32 := checkedWord (a.toNat + b.toNat)

def checkedMul (a b : UInt32) : Except Error UInt32 := checkedWord (a.toNat * b.toNat)

/-- The length of a list as a word, the greatest word for a list that is longer. -/
def wordLength {α : Type} (items : List α) : UInt32 := UInt32.ofNat (min items.length 4294967295)

theorem checkedWord_eq_ok {value : Nat} {word : UInt32} :
    checkedWord value = .ok word ↔ word.toNat = value := by
  unfold checkedWord
  split
  case isTrue h =>
    rw [Except.ok.injEq]
    constructor
    · rintro rfl
      exact Nat.mod_eq_of_lt h
    · rintro rfl
      exact UInt32.ofNat_toNat
  case isFalse h =>
    constructor
    · intro h
      cases h
    · rintro rfl
      exact absurd word.toNat_lt h

theorem checkedWord_of_le {value : Nat} (h : 4294967296 ≤ value) :
    checkedWord value = .error .wordOverflow := if_neg (by omega)

theorem checkedWord_toNat (word : UInt32) : checkedWord word.toNat = .ok word :=
  checkedWord_eq_ok.mpr rfl

/-- Words that are added up one by one overflow exactly if their sum does. -/
theorem checkedWord_bind_add (value : Nat) (word : UInt32) :
    (checkedWord value >>= fun b => checkedAdd word b) = checkedWord (word.toNat + value) := by
  by_cases h : value < 4294967296
  · have hv : checkedWord value = .ok (UInt32.ofNat value) := if_pos h
    rw [hv]
    change checkedWord (word.toNat + (UInt32.ofNat value).toNat) = _
    rw [UInt32.toNat_ofNat_of_lt' h]
  · rw [checkedWord_of_le (by omega), checkedWord_of_le (by omega)]
    rfl

theorem toNat_wordLength {α : Type} (items : List α) :
    (wordLength items).toNat = min items.length 4294967295 := by
  rw [wordLength, UInt32.toNat_ofNat']
  omega

theorem checkedMul_wordLength {α : Type} {factor : UInt32} (h : 2 ≤ factor.toNat) (items : List α) :
    checkedMul factor (wordLength items) = checkedWord (factor.toNat * items.length) := by
  rw [checkedMul, toNat_wordLength]
  by_cases hl : items.length ≤ 4294967295
  · rw [Nat.min_eq_left hl]
  · have h1 : factor.toNat * 4294967295 ≥ 2 * 4294967295 := Nat.mul_le_mul_right _ h
    have h2 : factor.toNat * items.length ≥ 2 * items.length := Nat.mul_le_mul_right _ h
    rw [Nat.min_eq_right (by omega), checkedWord_of_le (by omega), checkedWord_of_le (by omega)]

/-- A count of slots, if it fits a 16-bit word. -/
def checkedSlots (count : Nat) : Except Error Nat :=
  if count < 65536 then .ok count else .error .wordOverflow

end BytecodeFold
