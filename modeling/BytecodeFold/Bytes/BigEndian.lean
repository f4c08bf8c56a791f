import BytecodeFold.Binary.Format

/-!
# Big-endian words

Class files store every word with its most significant byte first. `BigEndian` describes
the words of a fixed number of bytes, and `encode` and `decode` are the two directions;
`decode_encode` and `encode_decode` say that each undoes the other.
-/

namespace BytecodeFold

/-- The `width` base-256 digits of `n`, most significant first; higher digits are dropped. -/
def bytesOfNat : Nat → Nat → List UInt8
  | 0, _ => []
  | width + 1, n => UInt8.ofNat (n / Nat.pow 256 width) :: bytesOfNat width n

/-- The number with these base-256 digits, most significant first. -/
def natOfBytes : List UInt8 → Nat
  | [] => 0
  | byte :: rest => byte.toNat * Nat.pow 256 rest.length + natOfBytes rest

@[simp] theorem length_bytesOfNat (width n : Nat) : (bytesOfNat width n).length = width := by
  induction width with
  | zero => rfl
  | succ width ih => simp [bytesOfNat, ih]

theorem natOfBytes_bytesOfNat (width n : Nat) :
    natOfBytes (bytesOfNat width n) = n % Nat.pow 256 width := by
  induction width with
  | zero => simp [bytesOfNat, natOfBytes, Nat.mod_one]
  | succ width ih =>
    have digit : (UInt8.ofNat (n / Nat.pow 256 width)).toNat = n / Nat.pow 256 width % 256 :=
      UInt8.toNat_ofNat'
    have split : n % Nat.pow 256 (width + 1) =
        n % Nat.pow 256 width + Nat.pow 256 width * (n / Nat.pow 256 width % 256) :=
      Nat.mod_mul
    rw [bytesOfNat, natOfBytes, length_bytesOfNat, ih, digit, split, Nat.mul_comm, Nat.add_comm]

theorem natOfBytes_lt (bytes : List UInt8) : natOfBytes bytes < Nat.pow 256 bytes.length := by
  induction bytes with
  | nil => exact Nat.one_pos
  | cons byte rest ih =>
    have digit : byte.toNat * Nat.pow 256 rest.length ≤ 255 * Nat.pow 256 rest.length :=
      Nat.mul_le_mul_right _ (Nat.le_of_lt_succ byte.toNat_lt)
    have power : Nat.pow 256 (rest.length + 1) = Nat.pow 256 rest.length * 256 := rfl
    rw [natOfBytes, List.length_cons, power]
    omega

theorem bytesOfNat_mul_add (width k n : Nat) :
    bytesOfNat width (k * Nat.pow 256 width + n) = bytesOfNat width n := by
  induction width generalizing k with
  | zero => rfl
  | succ width ih =>
    have positive : 0 < Nat.pow 256 width := Nat.pow_pos (by decide)
    have power : k * Nat.pow 256 (width + 1) = k * 256 * Nat.pow 256 width := by
      rw [Nat.mul_assoc, Nat.mul_comm 256]
      rfl
    have digit : UInt8.ofNat (k * 256 + n / Nat.pow 256 width) =
        UInt8.ofNat (n / Nat.pow 256 width) := by
      apply UInt8.toNat.inj
      rw [UInt8.toNat_ofNat', UInt8.toNat_ofNat']
      omega
    rw [bytesOfNat, bytesOfNat, power, ih, Nat.add_comm, Nat.add_mul_div_right _ _ positive,
      Nat.add_comm, digit]

theorem bytesOfNat_natOfBytes (bytes : List UInt8) :
    bytesOfNat bytes.length (natOfBytes bytes) = bytes := by
  induction bytes with
  | nil => rfl
  | cons byte rest ih =>
    have positive : 0 < Nat.pow 256 rest.length := Nat.pow_pos (by decide)
    have digit : (byte.toNat * Nat.pow 256 rest.length + natOfBytes rest) /
        Nat.pow 256 rest.length = byte.toNat := by
      rw [Nat.add_comm, Nat.add_mul_div_right _ _ positive, Nat.div_eq_of_lt (natOfBytes_lt rest),
        Nat.zero_add]
    rw [natOfBytes, List.length_cons, bytesOfNat, digit, UInt8.ofNat_toNat, bytesOfNat_mul_add, ih]

/-- The words of `size` bytes. -/
class BigEndian (α : Type) where
  size : Nat
  toNat : α → Nat
  ofNat : Nat → α
  toNat_lt (a : α) : toNat a < Nat.pow 256 size
  ofNat_toNat (a : α) : ofNat (toNat a) = a
  toNat_ofNat {n : Nat} (h : n < Nat.pow 256 size) : toNat (ofNat n) = n

namespace BigEndian

variable {α : Type} [BigEndian α]

/-- The bytes of a word. -/
def encode (a : α) : List UInt8 := bytesOfNat (size α) (toNat a)

/-- The word with these bytes. -/
def decode (α : Type) [BigEndian α] (bytes : List UInt8) : α := ofNat (natOfBytes bytes)

@[simp] theorem length_encode (a : α) : (encode a).length = size α := length_bytesOfNat _ _

theorem decode_encode (a : α) : decode α (encode a) = a := by
  rw [decode, encode, natOfBytes_bytesOfNat, Nat.mod_eq_of_lt (toNat_lt a), ofNat_toNat]

theorem encode_decode {bytes : List UInt8} (h : bytes.length = size α) :
    encode (decode α bytes) = bytes := by
  rw [encode, decode, toNat_ofNat (h ▸ natOfBytes_lt bytes), ← h, bytesOfNat_natOfBytes]

end BigEndian

instance : BigEndian UInt8 where
  size := 1
  toNat := UInt8.toNat
  ofNat := UInt8.ofNat
  toNat_lt := UInt8.toNat_lt
  ofNat_toNat _ := UInt8.ofNat_toNat
  toNat_ofNat h := UInt8.toNat_ofNat_of_lt h

instance : BigEndian UInt16 where
  size := 2
  toNat := UInt16.toNat
  ofNat := UInt16.ofNat
  toNat_lt := UInt16.toNat_lt
  ofNat_toNat _ := UInt16.ofNat_toNat
  toNat_ofNat h := UInt16.toNat_ofNat_of_lt h

instance : BigEndian UInt32 where
  size := 4
  toNat := UInt32.toNat
  ofNat := UInt32.ofNat
  toNat_lt := UInt32.toNat_lt
  ofNat_toNat _ := UInt32.ofNat_toNat
  toNat_ofNat h := UInt32.toNat_ofNat_of_lt h

instance : BigEndian UInt64 where
  size := 8
  toNat := UInt64.toNat
  ofNat := UInt64.ofNat
  toNat_lt := UInt64.toNat_lt
  ofNat_toNat _ := UInt64.ofNat_toNat
  toNat_ofNat h := UInt64.toNat_ofNat_of_lt h

instance : BigEndian Int8 where
  size := 1
  toNat a := a.toUInt8.toNat
  ofNat n := (UInt8.ofNat n).toInt8
  toNat_lt a := a.toUInt8.toNat_lt
  ofNat_toNat a := by simp
  toNat_ofNat h := by rw [UInt8.toUInt8_toInt8]; exact UInt8.toNat_ofNat_of_lt h

instance : BigEndian Int16 where
  size := 2
  toNat a := a.toUInt16.toNat
  ofNat n := (UInt16.ofNat n).toInt16
  toNat_lt a := a.toUInt16.toNat_lt
  ofNat_toNat a := by simp
  toNat_ofNat h := by rw [UInt16.toUInt16_toInt16]; exact UInt16.toNat_ofNat_of_lt h

instance : BigEndian Int32 where
  size := 4
  toNat a := a.toUInt32.toNat
  ofNat n := (UInt32.ofNat n).toInt32
  toNat_lt a := a.toUInt32.toNat_lt
  ofNat_toNat a := by simp
  toNat_ofNat h := by rw [UInt32.toUInt32_toInt32]; exact UInt32.toNat_ofNat_of_lt h

instance : BigEndian Int64 where
  size := 8
  toNat a := a.toUInt64.toNat
  ofNat n := (UInt64.ofNat n).toInt64
  toNat_lt a := a.toUInt64.toNat_lt
  ofNat_toNat a := by simp
  toNat_ofNat h := by rw [UInt64.toUInt64_toInt64]; exact UInt64.toNat_ofNat_of_lt h

instance : BigEndian Binary32 where
  size := 4
  toNat a := a.bits.toNat
  ofNat n := ⟨BitVec.ofNat _ n⟩
  toNat_lt a := a.bits.isLt
  ofNat_toNat a := by simp
  toNat_ofNat h := (BitVec.toNat_ofNat _ _).trans (Nat.mod_eq_of_lt h)

instance : BigEndian Binary64 where
  size := 8
  toNat a := a.bits.toNat
  ofNat n := ⟨BitVec.ofNat _ n⟩
  toNat_lt a := a.bits.isLt
  ofNat_toNat a := by simp
  toNat_ofNat h := (BitVec.toNat_ofNat _ _).trans (Nat.mod_eq_of_lt h)

end BytecodeFold
