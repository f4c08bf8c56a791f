import BytecodeFold.Proofs.Number.Typing
import Mathlib.Data.Int.Bitwise
import Mathlib.Data.Int.ModEq

/-!
# Words and the integers they hold

Bitwise operators, shifts and conversions between integral types, in terms of the integers that
the words hold in two's complement. The operands first become words of the width of the result, so
their low bits decide, and the distance of a shift counts modulo the width. A conversion gives the
one integer of the target's range that agrees with the operand in the bits the target keeps.
-/

namespace BytecodeFold

/-! ## Words of any width -/

section Word

variable {w : Nat} {op : ArithmeticOp} {a b : Int} {d : BitVec w}

/-- The bits of a word are those of the integer that was stored in it. -/
theorem getLsbD_ofInt (a : Int) {i : Nat} (hi : i < w) :
    (BitVec.ofInt w a).getLsbD i = a.testBit i := by
  cases a with
  | ofNat n =>
    rw [Int.ofNat_eq_natCast, BitVec.ofInt_natCast, BitVec.getLsbD_ofNat]
    simp [hi, Int.testBit]
  | negSucc n =>
    rw [BitVec.ofInt_negSucc_eq_not_ofNat, BitVec.getLsbD_not, BitVec.getLsbD_ofNat]
    simp [hi, Int.testBit]

theorem testBit_toInt (x : BitVec w) {i : Nat} (hi : i < w) : x.toInt.testBit i = x.getLsbD i := by
  rw [← getLsbD_ofInt x.toInt hi, BitVec.ofInt_toInt]

theorem toNat_ofInt_cast (a : Int) : ((BitVec.ofInt w a).toNat : Int) = a % (2 ^ w : Nat) := by
  have hpos : (0 : Int) < (2 ^ w : Nat) := Int.natCast_pos.mpr (Nat.two_pow_pos w)
  rw [BitVec.toNat_ofInt, Int.toNat_of_nonneg (Int.emod_nonneg _ (Int.ne_of_gt hpos))]

theorem toInt_shiftLeft_ofInt (a : Int) (s : Nat) :
    (BitVec.ofInt w a <<< s).toInt = (a * (2 ^ s : Nat)).bmod (2 ^ w) := by
  rw [BitVec.toInt_shiftLeft, Nat.shiftLeft_eq, Int.natCast_mul, toNat_ofInt_cast,
    Int.emod_mul_bmod]

theorem toInt_sshiftRight_ofInt (a : Int) (s : Nat) :
    ((BitVec.ofInt w a).sshiftRight s).toInt = (a.bmod (2 ^ w)).fdiv (2 ^ s : Nat) := by
  rw [BitVec.toInt_sshiftRight, BitVec.toInt_ofInt, Int.shiftRight_eq_div_pow,
    Int.fdiv_eq_ediv_of_nonneg _ (Int.natCast_nonneg _)]

theorem toInt_ushiftRight_ofInt (a : Int) (s : Nat) :
    (BitVec.ofInt w a >>> s).toInt = ((a % (2 ^ w : Nat)) / (2 ^ s : Nat)).bmod (2 ^ w) := by
  rw [BitVec.toInt_eq_toNat_bmod, BitVec.toNat_ushiftRight, Nat.shiftRight_eq_div_pow,
    Int.natCast_ediv, toNat_ofInt_cast]

/-- A distance counts modulo the width, also a negative one. -/
theorem toNat_smod_ofInt (hd : d.toInt = w) (hdvd : w ∣ 2 ^ w) :
    ((BitVec.ofInt w b).smod d).toNat = (b % w).toNat := by
  have hmod : ((BitVec.ofInt w b).smod d).toInt = b % w := by
    rw [BitVec.toInt_smod, BitVec.toInt_ofInt, hd,
      Int.fmod_eq_emod_of_nonneg _ (Int.natCast_nonneg w),
      ← Int.emod_emod_of_dvd _ (Int.natCast_dvd_natCast.mpr hdvd), Int.bmod_emod,
      Int.emod_emod_of_dvd _ (Int.natCast_dvd_natCast.mpr hdvd)]
  have hnonneg : 0 ≤ b % w := by
    have hpos : (w : Int) ≠ 0 := by
      intro h
      obtain rfl : w = 0 := by omega
      simp at hdvd
    exact Int.emod_nonneg b hpos
  have hlt := ((BitVec.ofInt w b).smod d).isLt
  rw [BitVec.toInt_eq_toNat_cond] at hmod
  split at hmod <;> omega

theorem toNat_umod_ofInt (hd : d.toNat = w) (hdvd : w ∣ 2 ^ w) :
    (BitVec.ofInt w b % d).toNat = (b % w).toNat := by
  have hcast : (((BitVec.ofInt w b % d).toNat : Nat) : Int) = b % w := by
    rw [BitVec.toNat_umod, hd, Int.natCast_emod, toNat_ofInt_cast,
      Int.emod_emod_of_dvd _ (Int.natCast_dvd_natCast.mpr hdvd)]
  omega

/-- A shift or bitwise operation on words whose width is `d`. -/
def bitwiseWord (op : ArithmeticOp) (x y d : BitVec w) : BitVec w :=
  match op with
  | .and => x &&& y
  | .or => x ||| y
  | .xor => x ^^^ y
  | .shl => x <<< y.smod d
  | .shr => x.sshiftRight' (y.smod d)
  | _ => x >>> (y % d)

/-- `r` is the result of a bitwise operator on the words of width `w` that hold `a` and `b`. A
shift to the left wraps, one to the right takes the floor, of the signed or the unsigned value. -/
def IsWordResult (w : Nat) (op : ArithmeticOp) (a b r : Int) : Prop :=
  let distance := (b % w).toNat
  match op with
  | .and => ∀ i < w, r.testBit i = (a.testBit i && b.testBit i)
  | .or => ∀ i < w, r.testBit i = (a.testBit i || b.testBit i)
  | .xor => ∀ i < w, r.testBit i = (a.testBit i ^^ b.testBit i)
  | .shl => r = (a * (2 ^ distance : Nat)).bmod (2 ^ w)
  | .shr => r = (a.bmod (2 ^ w)).fdiv (2 ^ distance : Nat)
  | .ushr => r = ((a % (2 ^ w : Nat)) / (2 ^ distance : Nat)).bmod (2 ^ w)
  | _ => False

theorem isWordResult_bitwiseWord (hop : op.isBitwise = true) (hint : d.toInt = w)
    (hnat : d.toNat = w) (hdvd : w ∣ 2 ^ w) :
    IsWordResult w op a b (bitwiseWord op (BitVec.ofInt w a) (BitVec.ofInt w b) d).toInt := by
  cases op with
  | and =>
    intro i hi
    rw [testBit_toInt _ hi, bitwiseWord, BitVec.getLsbD_and, getLsbD_ofInt a hi, getLsbD_ofInt b hi]
  | or =>
    intro i hi
    rw [testBit_toInt _ hi, bitwiseWord, BitVec.getLsbD_or, getLsbD_ofInt a hi, getLsbD_ofInt b hi]
  | xor =>
    intro i hi
    rw [testBit_toInt _ hi, bitwiseWord, BitVec.getLsbD_xor, getLsbD_ofInt a hi, getLsbD_ofInt b hi]
  | shl =>
    rw [IsWordResult, bitwiseWord, BitVec.shiftLeft_eq', toNat_smod_ofInt hint hdvd]
    exact toInt_shiftLeft_ofInt a _
  | shr =>
    rw [IsWordResult, bitwiseWord, BitVec.sshiftRight', toNat_smod_ofInt hint hdvd]
    exact toInt_sshiftRight_ofInt a _
  | ushr =>
    simp only [IsWordResult, bitwiseWord]
    rw [BitVec.ushiftRight_eq', toNat_umod_ofInt hnat hdvd]
    exact toInt_ushiftRight_ofInt a _
  | _ => cases hop

end Word

/-! ## Numbers -/

namespace TypeTag

/-- The width of the words that hold values of an integral type. -/
def wordWidth (type : TypeTag) : Nat := if type.promote = .long then 64 else 32

/-- How many bits of an integer a value of an integral type keeps. -/
def bits : TypeTag → Nat
  | byte => 8
  | char | short => 16
  | long => 64
  | _ => 32

/-- The lowest value of an integral type. -/
def lowest : TypeTag → Int
  | byte => -128
  | char => 0
  | short => -32768
  | long => -9223372036854775808
  | _ => -2147483648

/-- The integers that are values of an integral type. -/
def InRange (type : TypeTag) (r : Int) : Prop :=
  type.lowest ≤ r ∧ r < type.lowest + (2 ^ type.bits : Nat)

/-- A range holds one integer of every residue class. -/
theorem InRange.unique {type : TypeTag} {r other : Int} (hr : type.InRange r)
    (hother : type.InRange other) (h : other ≡ r [ZMOD (2 ^ type.bits : Nat)]) : other = r := by
  have hdvd : ((2 ^ type.bits : Nat) : Int) ∣ other - r := h.symm.dvd
  have hlt : |other - r| < (2 ^ type.bits : Nat) := by
    unfold InRange at hr hother
    rw [abs_lt]
    omega
  exact Int.sub_eq_zero.mp (Int.eq_zero_of_abs_lt_dvd hdvd hlt)

end TypeTag

namespace Number

variable {op : ArithmeticOp} {left right value other : Number} {type : TypeTag} {a b r : Int}

/-- The integer that a number of an integral kind stands for. -/
def integer? : Number → Option Int
  | int value => some value.toInt
  | long value => some value.toInt
  | _ => none

theorem eq_of_integer? (htype : value.naturalType = other.naturalType)
    (hv : value.integer? = some r) (ho : other.integer? = some r) : value = other := by
  cases value with
  | int x =>
    cases other with
    | int y => exact congrArg _ (Int32.toInt_inj.mp (Option.some.inj (hv.trans ho.symm)))
    | _ => cases htype
  | long x =>
    cases other with
    | long y => exact congrArg _ (Int64.toInt_inj.mp (Option.some.inj (hv.trans ho.symm)))
    | _ => cases htype
  | float x => cases hv
  | double x => cases hv

theorem toInt_toBitVec (h : value.integer? = some a) :
    value.toInt.toBitVec = BitVec.ofInt 32 a := by
  cases value with
  | int x =>
    cases h
    exact (BitVec.ofInt_toInt).symm
  | long x =>
    cases h
    refine BitVec.eq_of_toInt_eq ?_
    rw [BitVec.toInt_ofInt]
    exact x.toInt_toInt32
  | _ => cases h

theorem toLong_toBitVec (h : value.integer? = some a) :
    value.toLong.toBitVec = BitVec.ofInt 64 a := by
  cases value with
  | int x =>
    cases h
    refine BitVec.eq_of_toInt_eq ?_
    rw [BitVec.toInt_ofInt, ← x.toInt_toInt64, ← BitVec.toInt_ofInt]
    exact congrArg BitVec.toInt BitVec.ofInt_toInt.symm
  | long x =>
    cases h
    exact (BitVec.ofInt_toInt).symm
  | _ => cases h

theorem toBitVec_bitwise32 (op : ArithmeticOp) (x y : Int32) :
    (bitwise32 op x y).toBitVec = bitwiseWord op x.toBitVec y.toBitVec 32 := by
  cases op <;> rfl

theorem toBitVec_bitwise64 (op : ArithmeticOp) (x y : Int64) :
    (bitwise64 op x y).toBitVec = bitwiseWord op x.toBitVec y.toBitVec 64 := by
  cases op <;> rfl

theorem evaluate_of_isBitwise (hop : op.isBitwise = true) :
    evaluate op left right type = (bitwise op left right type).map some := by
  cases op with
  | shl | shr | ushr | and | or | xor => rfl
  | _ => cases hop

theorem promote_of_isIntegral (h : type.isIntegral = true) :
    type.promote = .int ∨ type.promote = .long := by
  cases type with
  | long => exact .inr rfl
  | byte | char | short | int => exact .inl rfl
  | _ => cases h

/-- A bitwise operator works on the words of the result's width that hold its operands. -/
theorem evaluate_bitwise (hop : op.isBitwise = true) (htype : type.isIntegral = true)
    (hl : left.integer? = some a) (hr : right.integer? = some b) :
    ∃ value r, evaluate op left right type = .ok (some value) ∧ value.naturalType = type.promote ∧
      value.integer? = some r ∧ IsWordResult type.wordWidth op a b r := by
  rw [evaluate_of_isBitwise hop]
  rcases promote_of_isIntegral htype with hp | hp
  · refine ⟨.int (bitwise32 op left.toInt right.toInt), _, by simp only [bitwise, hp, Except.map],
      hp.symm, rfl, ?_⟩
    rw [TypeTag.wordWidth, hp, if_neg (by decide), ← Int32.toInt_toBitVec, toBitVec_bitwise32,
      toInt_toBitVec hl, toInt_toBitVec hr]
    exact isWordResult_bitwiseWord hop (by decide) (by decide) (by decide)
  · refine ⟨.long (bitwise64 op left.toLong right.toLong), _,
      by simp only [bitwise, hp, Except.map], hp.symm, rfl, ?_⟩
    rw [TypeTag.wordWidth, hp, if_pos rfl, ← Int64.toInt_toBitVec, toBitVec_bitwise64,
      toLong_toBitVec hl, toLong_toBitVec hr]
    exact isWordResult_bitwiseWord hop (by decide) (by decide) (by decide)

/-! ## Conversions -/

theorem toInt_toInt (h : value.integer? = some a) : value.toInt.toInt = a.bmod (2 ^ 32) := by
  rw [← Int32.toInt_toBitVec, toInt_toBitVec h, BitVec.toInt_ofInt]

theorem toLong_toInt (h : value.integer? = some a) : value.toLong.toInt = a.bmod (2 ^ 64) := by
  rw [← Int64.toInt_toBitVec, toLong_toBitVec h, BitVec.toInt_ofInt]

/-- Masking the low half of an `int` gives the residue that is not negative. -/
theorem toInt_and_mask (h : value.integer? = some a) :
    (value.toInt &&& 0xFFFF).toInt = a % (2 ^ 16 : Nat) := by
  have hnat : (value.toInt &&& 0xFFFF).toBitVec.toNat = (BitVec.ofInt 32 a).toNat % 2 ^ 16 := by
    rw [Int32.toBitVec_and, toInt_toBitVec h, BitVec.toNat_and]
    exact Nat.and_two_pow_sub_one_eq_mod _ 16
  have hlt : (BitVec.ofInt 32 a).toNat % 2 ^ 16 < 2 ^ 16 := Nat.mod_lt _ (by decide)
  rw [← Int32.toInt_toBitVec, BitVec.toInt_eq_toNat_cond, hnat, if_pos (by omega), Int.natCast_emod,
    toNat_ofInt_cast]
  exact Int.emod_emod_of_dvd _ (by decide)

/-- The integer that a conversion gives. -/
theorem integer?_convert (htype : type.isIntegral = true) (h : value.integer? = some a) :
    (value.convert type).integer? =
      some (if type = .char then a % (2 ^ 16 : Nat) else a.bmod (2 ^ type.bits)) := by
  have hnarrow : ∀ k, k ∣ 2 ^ 32 → value.toInt.toInt.bmod k = a.bmod k := by
    intro k hk
    rw [toInt_toInt h, Int.bmod_bmod_of_dvd hk]
  cases type with
  | int => exact congrArg some (toInt_toInt h)
  | long => exact congrArg some (toLong_toInt h)
  | byte =>
    refine congrArg some ?_
    rw [Int8.toInt_toInt32, Int32.toInt_toInt8]
    exact hnarrow _ (by decide)
  | short =>
    refine congrArg some ?_
    rw [Int16.toInt_toInt32, Int32.toInt_toInt16]
    exact hnarrow _ (by decide)
  | char => exact congrArg some (toInt_and_mask h)
  | _ => cases htype

theorem bmod_inRange (htype : type.isIntegral = true) (hchar : type ≠ .char) :
    type.InRange (a.bmod (2 ^ type.bits)) := by
  have hlow := @Int.le_bmod a (2 ^ type.bits) (Nat.two_pow_pos _)
  have hhigh := @Int.bmod_lt a (2 ^ type.bits) (Nat.two_pow_pos _)
  cases type with
  | char => exact absurd rfl hchar
  | byte | short | int | long =>
    simp only [TypeTag.InRange, TypeTag.lowest, TypeTag.bits] at hlow hhigh ⊢
    omega
  | _ => cases htype

/-- A conversion stays in the range of its target and keeps the residue class. -/
theorem convert_inRange (htype : type.isIntegral = true) (h : value.integer? = some a) :
    ∃ r, (value.convert type).integer? = some r ∧ type.InRange r ∧
      r ≡ a [ZMOD (2 ^ type.bits : Nat)] := by
  refine ⟨_, integer?_convert htype h, ?_⟩
  by_cases hchar : type = .char
  · subst hchar
    rw [if_pos rfl]
    refine ⟨⟨Int.emod_nonneg _ (by decide), ?_⟩, Int.mod_modEq _ _⟩
    have hlt := Int.emod_lt_of_pos a (show (0 : Int) < (2 ^ 16 : Nat) by decide)
    simp only [TypeTag.lowest, TypeTag.bits]
    omega
  · rw [if_neg hchar]
    exact ⟨bmod_inRange htype hchar, Int.bmod_emod⟩

theorem naturalType_convert_integral (value : Number) (htype : type.isIntegral = true) :
    (value.convert type).naturalType = type.promote := by
  refine naturalType_convert value ?_
  rintro rfl
  cases htype

theorem convert_convert (htype : type.isIntegral = true) (h : value.integer? = some a) :
    (value.convert type).convert type = value.convert type := by
  obtain ⟨r, hr, hin, -⟩ := convert_inRange htype h
  obtain ⟨r', hr', hin', hmod⟩ := convert_inRange htype hr
  obtain rfl : r' = r := hin.unique hin' hmod
  refine eq_of_integer? ?_ hr' hr
  rw [naturalType_convert_integral _ htype, naturalType_convert_integral _ htype]

/-- A word that is not narrower than the number holds the number itself. -/
theorem bmod_wordWidth (h : value.integer? = some a)
    (hfits : value.naturalType = .int ∨ type.promote = .long) :
    a.bmod (2 ^ type.wordWidth) = a := by
  have hwidth : type.wordWidth = 32 ∨ type.wordWidth = 64 := by
    unfold TypeTag.wordWidth
    split
    · exact .inr rfl
    · exact .inl rfl
  cases value with
  | int x =>
    cases h
    have hlow := x.le_toInt
    have hhigh := x.toInt_lt
    rcases hwidth with hw | hw <;> rw [hw] <;> exact Int.bmod_eq_of_le (by omega) (by omega)
  | long x =>
    cases h
    rcases hfits with ht | ht
    · cases ht
    · rw [TypeTag.wordWidth, if_pos ht]
      have hlow := x.le_toInt
      have hhigh := x.toInt_lt
      exact Int.bmod_eq_of_le (by omega) (by omega)
  | _ => cases h

/-- Bitwise operators, shifts and conversions between integral types compute in two's complement.
The left operand of a shift counts as the word of the result's width that holds it, which is the
operand itself unless a `long` is shifted as an `int`. -/
theorem words_follow_twos_complement :
    (∀ (op : ArithmeticOp) (left right : Number) (type : TypeTag) (a b : Int),
      op.isBitwise = true → type.isIntegral = true →
      left.integer? = some a → right.integer? = some b →
      ∃ value r, evaluate op left right type = .ok (some value) ∧
        value.naturalType = type.promote ∧ value.integer? = some r ∧
        IsWordResult type.wordWidth op a b r) ∧
    (∀ (left : Number) (type : TypeTag) (a : Int), left.integer? = some a →
      left.naturalType = .int ∨ type.promote = .long → a.bmod (2 ^ type.wordWidth) = a) ∧
    (∀ (value : Number) (type : TypeTag) (a : Int),
      type.isIntegral = true → value.integer? = some a →
      (∃ r, (value.convert type).integer? = some r ∧ type.InRange r ∧
        r ≡ a [ZMOD (2 ^ type.bits : Nat)] ∧
        ∀ other, type.InRange other → other ≡ a [ZMOD (2 ^ type.bits : Nat)] → other = r) ∧
      (value.convert type).convert type = value.convert type ∧
      (value.convert type).naturalType = type.promote) := by
  refine ⟨fun _ _ _ _ _ _ hop htype hl hr => evaluate_bitwise hop htype hl hr,
    fun _ _ _ h hfits => bmod_wordWidth h hfits, ?_⟩
  intro value type a htype h
  obtain ⟨r, hr, hin, hmod⟩ := convert_inRange htype h
  exact ⟨⟨r, hr, hin, hmod, fun other ho hm => hin.unique ho (hm.trans hmod.symm)⟩,
    convert_convert htype h, naturalType_convert_integral value htype⟩

/-- Shifting a negative `int` right by -62, as a `long`, divides it by four. -/
theorem words_follow_twos_complement_shr :
    ∃ value, evaluate .shr (.int (-14)) (.int (-62)) .long = .ok (some value) ∧
      value.integer? = some (-4) := by
  obtain ⟨value, r, hvalue, -, hr, hresult⟩ := words_follow_twos_complement.1 .shr (.int (-14))
    (.int (-62)) .long (-14) (-62) rfl rfl (by decide) (by decide)
  obtain rfl : r = -4 := hresult.trans (by decide)
  exact ⟨value, hvalue, hr⟩

end Number

end BytecodeFold
