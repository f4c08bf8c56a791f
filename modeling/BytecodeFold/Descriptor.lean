import BytecodeFold.Error
import BytecodeFold.TypeTag

/-!
# Field and method descriptors

A descriptor is the text that states the type of a field or the parameters and the result
of a method. `FieldType.parse` and `MethodDescriptor.parse` read one, `text` writes it, and
`slots` counts the slots a value takes.
-/

namespace BytecodeFold

/-- The innermost type of a field. -/
inductive ElementType where
  | byte
  | char
  | double
  | float
  | int
  | long
  | short
  | boolean
  /-- A class or interface, by its binary name. -/
  | object (name : String)
  deriving DecidableEq

/-- A field type: an element type under a number of array dimensions. -/
structure FieldType where
  dimensions : Nat
  element : ElementType
  deriving DecidableEq

namespace ElementType

def chars : ElementType → List Char
  | byte => ['B']
  | char => ['C']
  | double => ['D']
  | float => ['F']
  | int => ['I']
  | long => ['J']
  | short => ['S']
  | boolean => ['Z']
  | object name => 'L' :: (name.toList ++ [';'])

/-- The type of such a value on the operand stack. -/
def stackType : ElementType → TypeTag
  | byte | char | short | boolean | int => .int
  | long => .long
  | float => .float
  | double => .double
  | object _ => .reference

/-- The first byte of a character in UTF-8. -/
def leadByte (c : Char) : Nat :=
  if c.toNat < 0x80 then c.toNat
  else if c.toNat < 0x800 then 0xC0 + c.toNat / 0x40
  else if c.toNat < 0x10000 then 0xE0 + c.toNat / 0x1000
  else 0xF0 + c.toNat / 0x40000

/-- Reads an element type from the front of `cs`. A character that starts no type is
reported by its first byte, read as a code point. -/
def scan (descriptor : String) (cs : List Char) : Except Error (ElementType × List Char) :=
  match cs with
  | [] => .error .outOfBounds
  | 'B' :: rest => .ok (byte, rest)
  | 'C' :: rest => .ok (char, rest)
  | 'D' :: rest => .ok (double, rest)
  | 'F' :: rest => .ok (float, rest)
  | 'I' :: rest => .ok (int, rest)
  | 'J' :: rest => .ok (long, rest)
  | 'S' :: rest => .ok (short, rest)
  | 'Z' :: rest => .ok (boolean, rest)
  | 'L' :: rest =>
    let name := rest.takeWhile (· != ';')
    match rest.dropWhile (· != ';') with
    | [] => .error .outOfBounds
    | _ :: rest =>
      if name.isEmpty then .error (.malformed (.emptyClassName descriptor))
      else .ok (object (String.ofList name), rest)
  | c :: _ => .error (.malformed (.invalidType (Char.ofNat (leadByte c)) descriptor))

theorem length_scan_lt {descriptor : String} {cs rest : List Char} {element : ElementType}
    (h : scan descriptor cs = .ok (element, rest)) : rest.length < cs.length := by
  unfold scan at h
  split at h
  case h_1 => cases h
  case h_10 tail =>
    have bound : (tail.dropWhile (· != ';')).length ≤ tail.length :=
      (List.dropWhile_sublist _).length_le
    dsimp only at h
    split at h
    · cases h
    · rename_i dropped
      rw [dropped] at bound
      split at h
      · cases h
      · cases h
        simp only [List.length_cons] at bound ⊢
        omega
  case h_11 => cases h
  all_goals
    cases h
    exact Nat.lt_succ_self _

end ElementType

namespace FieldType

def chars (field : FieldType) : List Char :=
  List.replicate field.dimensions '[' ++ field.element.chars

/-- The descriptor of the type. -/
def text (field : FieldType) : String := String.ofList field.chars

/-- The type of such a value on the operand stack. -/
def stackType (field : FieldType) : TypeTag :=
  if field.dimensions = 0 then field.element.stackType else .reference

/-- How many slots a value of the type takes. -/
def slots (field : FieldType) : Nat := field.stackType.slots

/-- Reads a field type from the front of `cs`. -/
def scan (descriptor : String) (cs : List Char) : Except Error (FieldType × List Char) :=
  match ElementType.scan descriptor (cs.dropWhile (· == '[')) with
  | .error e => .error e
  | .ok (element, rest) => .ok (⟨(cs.takeWhile (· == '[')).length, element⟩, rest)

theorem length_scan_lt {descriptor : String} {cs rest : List Char} {field : FieldType}
    (h : scan descriptor cs = .ok (field, rest)) : rest.length < cs.length := by
  unfold scan at h
  split at h
  · cases h
  · rename_i scanned
    cases h
    exact Nat.lt_of_lt_of_le (ElementType.length_scan_lt scanned)
      (List.dropWhile_sublist _).length_le

/-- Reads a descriptor that is exactly one field type. -/
def parse (descriptor : String) : Except Error FieldType :=
  match scan descriptor descriptor.toList with
  | .error e => .error e
  | .ok (field, []) => .ok field
  | .ok (_, _ :: _) => .error (.malformed (.trailingField descriptor))

end FieldType

/-- The parameters and the result of a method; `void` has no result. -/
structure MethodDescriptor where
  parameters : List FieldType
  result : Option FieldType
  deriving DecidableEq

namespace MethodDescriptor

def text (method : MethodDescriptor) : String :=
  let result := match method.result with
    | none => ['V']
    | some field => field.chars
  String.ofList ('(' :: (method.parameters.flatMap FieldType.chars ++ ')' :: result))

/-- How many slots the parameters take. -/
def parameterSlots (method : MethodDescriptor) : Except Error Nat :=
  checkedSlots (method.parameters.foldr (fun field total => field.slots + total) 0)

/-- How many slots the result takes. -/
def resultSlots (method : MethodDescriptor) : Nat :=
  match method.result with
  | none => 0
  | some field => field.slots

/-- Reads field types up to a closing parenthesis, which is read too; `seen` holds those
already read, latest first. -/
def scanParameters (descriptor : String) (cs : List Char) (seen : List FieldType) :
    Except Error (List FieldType × List Char) :=
  match cs with
  | [] => .error .outOfBounds
  | c :: rest =>
    if c = ')' then .ok (seen.reverse, rest)
    else
      match _scanned : FieldType.scan descriptor (c :: rest) with
      | .error e => .error e
      | .ok (field, rest) => scanParameters descriptor rest (field :: seen)
  termination_by cs.length
  decreasing_by exact FieldType.length_scan_lt _scanned

/-- Reads the result type, `V` for none. -/
def scanResult (descriptor : String) (cs : List Char) :
    Except Error (Option FieldType × List Char) :=
  match cs with
  | [] => .error .outOfBounds
  | c :: rest =>
    if c = 'V' then .ok (none, rest)
    else
      match FieldType.scan descriptor (c :: rest) with
      | .error e => .error e
      | .ok (field, rest) => .ok (some field, rest)

/-- Reads a method descriptor such as `(ILjava/lang/String;)J`. -/
def parse (descriptor : String) : Except Error MethodDescriptor :=
  match descriptor.toList with
  | [] => .error .outOfBounds
  | c :: cs =>
    if c = '(' then do
      let (parameters, cs) ← scanParameters descriptor cs []
      let (result, rest) ← scanResult descriptor cs
      if rest.isEmpty then return ⟨parameters, result⟩
      else throw (.malformed (.trailingMethod descriptor))
    else .error (.malformed (.noParameterList descriptor))

end MethodDescriptor

end BytecodeFold
