import BytecodeFold.ConstantPool.Entry
import BytecodeFold.Error

/-!
# The constant pool

Index 0 is never used, and a `long` or `double` takes two indices, the second of which is
unusable. Entries are only ever appended. `intern` reuses an entry that is equal already;
numeric entries are equal when they have the same kind and bits.
-/

namespace BytecodeFold

/-- A constant pool: what stands at each index, from index 0 on. -/
structure ConstantPool where
  slots : Array (Option Entry)
  deriving DecidableEq

namespace ConstantPool

/-- The pool with no entry, in which index 0 is taken. -/
def empty : ConstantPool := ⟨#[none]⟩

/-- One more than the highest index. -/
def count (pool : ConstantPool) : Nat := pool.slots.size

/-- The entry at an index, if the index is usable. -/
def get? (pool : ConstantPool) (index : UInt16) : Option Entry :=
  match pool.slots[index.toNat]? with
  | some slot => slot
  | none => none

/-- The entries from an index on, each with its index. -/
def entriesFrom (pool : ConstantPool) (start : Nat) : List (Nat × Entry) :=
  (pool.slots.toList.zipIdx.drop start).filterMap fun (slot, index) => slot.map (index, ·)

/-! ## Growing

Every operation gives back its result and the pool after it. The pool is left as it was when
a single entry does not fit; an operation on several entries keeps those that did. -/

/-- Appends an entry, which has to end below index 65535. -/
def push (pool : ConstantPool) (entry : Entry) : Except Error UInt16 × ConstantPool :=
  if pool.count + entry.slots ≤ 65535 then
    let index := UInt16.ofNat pool.count
    let slots := pool.slots.push (some entry)
    (.ok index, ⟨if entry.slots = 2 then slots.push none else slots⟩)
  else (.error .poolOverflow, pool)

/-- The first index that holds this entry. -/
def indexOf? (pool : ConstantPool) (entry : Entry) : Option Nat :=
  pool.slots.findIdx? fun
    | some candidate => candidate == entry
    | none => false

/-- The index of an entry, which is appended only if the pool has none that is equal. -/
def intern (pool : ConstantPool) (entry : Entry) : Except Error UInt16 × ConstantPool :=
  match pool.indexOf? entry with
  | some index => (.ok (UInt16.ofNat index), pool)
  | none => pool.push entry

/-- Goes on with the index of an entry, unless it could not be added. -/
def andThen (added : Except Error UInt16 × ConstantPool)
    (next : UInt16 → ConstantPool → Except Error UInt16 × ConstantPool) :
    Except Error UInt16 × ConstantPool :=
  match added with
  | (.ok index, pool) => next index pool
  | (.error e, pool) => (.error e, pool)

def addNumber (pool : ConstantPool) (number : Number) : Except Error UInt16 × ConstantPool :=
  pool.intern (.ofNumber number)

def addUtf8 (pool : ConstantPool) (text : String) : Except Error UInt16 × ConstantPool :=
  pool.intern (.utf8 text)

/-- Interns a class together with its name. -/
def addClass (pool : ConstantPool) (name : String) : Except Error UInt16 × ConstantPool :=
  andThen (pool.addUtf8 name) fun index pool => pool.intern (.classRef index)

/-- Interns a string literal together with its contents. -/
def addString (pool : ConstantPool) (text : String) : Except Error UInt16 × ConstantPool :=
  andThen (pool.addUtf8 text) fun index pool => pool.intern (.stringRef index)

def addNameAndType (pool : ConstantPool) (name descriptor : String) :
    Except Error UInt16 × ConstantPool :=
  andThen (pool.addUtf8 name) fun nameIndex pool =>
    andThen (pool.addUtf8 descriptor) fun descriptorIndex pool =>
      pool.intern (.nameAndType nameIndex descriptorIndex)

/-- Interns a reference to a method with its owner, name and descriptor. -/
def addMethodRef (pool : ConstantPool) (owner name descriptor : String) :
    Except Error UInt16 × ConstantPool :=
  andThen (pool.addClass owner) fun ownerIndex pool =>
    andThen (pool.addNameAndType name descriptor) fun memberIndex pool =>
      pool.intern (.methodRef ownerIndex memberIndex)

/-- Interns a reference to a field with its owner, name and descriptor. -/
def addFieldRef (pool : ConstantPool) (owner name descriptor : String) :
    Except Error UInt16 × ConstantPool :=
  andThen (pool.addClass owner) fun ownerIndex pool =>
    andThen (pool.addNameAndType name descriptor) fun memberIndex pool =>
      pool.intern (.fieldRef ownerIndex memberIndex)

end ConstantPool

end BytecodeFold
