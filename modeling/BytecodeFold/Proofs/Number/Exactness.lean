import BytecodeFold.Proofs.Binary.Integers
import BytecodeFold.Proofs.Number.Words

/-!
# Integer arithmetic through `double`

Sums, products, quotients and remainders of integers are computed in `double`. For `int` operands
the outcome is the exact integer, clamped to the range of `int`: the operands have 32 bits, so the
integer part of the rounded result is right wherever it matters. For `long` operands it is the
exact integer as long as 53 bits hold the operands and the result. Only a division by zero is left
without a result.
-/

namespace BytecodeFold

namespace Binary

variable {x : Binary64} {z : ℤ}

/-- Clamping hides what lies beyond 53 bits. -/
theorem HasPart.truncateClamped (h : HasPart x z) {low high : ℤ} (hlow : -2 ^ 53 ≤ low)
    (hhigh : high ≤ 2 ^ 53) : x.truncateClamped low high = max low (min high z) := by
  obtain ⟨negative, m, exponent, magnitude, hdatum, hpart, rfl⟩ := h
  rw [Binary.truncateClamped, hdatum, Datum.truncateClamped_finite]
  unfold signed
  split <;> omega

theorem HasPart.truncateClamped_of_le (h : HasPart x z) (hz : |z| ≤ 2 ^ 53) {low high : ℤ}
    (hlow : low ≤ -2 ^ 53) (hhigh : 2 ^ 53 ≤ high) : x.truncateClamped low high = z := by
  obtain ⟨negative, m, exponent, magnitude, hdatum, hpart, rfl⟩ := h
  have hle : magnitude ≤ 2 ^ 53 := by
    rw [Int.abs_eq_natAbs, natAbs_signed] at hz
    exact_mod_cast hz
  rw [Binary.truncateClamped, hdatum, Datum.truncateClamped_finite]
  unfold signed
  split <;> omega

theorem HasPart.toInt32 (h : HasPart x z) :
    x.toInt32.toInt = max (-2147483648) (min 2147483647 z) := by
  rw [Binary.toInt32, h.truncateClamped (by norm_num) (by norm_num)]
  exact Int32.toInt_ofInt_of_le (by omega) (by omega)

theorem HasPart.toInt64 (h : HasPart x z) (hz : |z| ≤ 2 ^ 53) : x.toInt64.toInt = z := by
  rw [Binary.toInt64, h.truncateClamped_of_le hz (by norm_num) (by norm_num)]
  rw [abs_le] at hz
  exact Int64.toInt_ofInt_of_le (by omega) (by omega)

theorem signedUnits_eq_zero {s : Bool} {m : ℕ} {q unit : ℤ} : signedUnits s m q unit = 0 ↔
    m = 0 := by
  cases s <;> simp [signedUnits]

/-- A number equals zero when its significand does. -/
theorem numericallyEqual_zero {s : Bool} {m : ℕ} {q : ℤ} (h : x.datum = .finite s m q) :
    x.numericallyEqual (zero .double false) = true ↔ m = 0 := by
  have hzero : ∀ unit, signedUnits false 0 Format.double.minExponent unit = 0 :=
    fun _ => signedUnits_eq_zero.mpr rfl
  rw [numericallyEqual, Binary.compare, h, datum_zero]
  simp only [Datum.compare, hzero, beq_iff_eq, Option.some.injEq, compare_eq_iff_eq]
  exact signedUnits_eq_zero

end Binary

namespace Number

variable {op : ArithmeticOp} {left right : Number} {type : TypeTag} {a b z : Int}

/-- The exact result of an arithmetic operator on integers. Quotients are cut toward zero, and a
remainder has the sign of the dividend. -/
def exactResult? (op : ArithmeticOp) (a b : Int) : Option Int :=
  match op with
  | .add => some (a + b)
  | .sub => some (a - b)
  | .mul => some (a * b)
  | .div => if b = 0 then none else some (a.tdiv b)
  | .rem => if b = 0 then none else some (a.tmod b)
  | _ => none

theorem toDouble_eq_ofInt (h : left.integer? = some a) : left.toDouble = .ofInt .double a := by
  cases left <;> cases h <;> rfl

theorem natAbs_of_integer? (h : left.integer? = some a) : a.natAbs ≤ 2 ^ 63 := by
  cases left with
  | int x | long x =>
    cases h
    have hlow := x.le_toInt
    have hhigh := x.toInt_lt
    omega
  | _ => cases h

/-- The test for a zero divisor, which is made on the `double`, finds the integer zero only. -/
theorem divisor_eq_zero (h : right.integer? = some b) :
    right.toDouble.numericallyEqual (.zero .double false) = true ↔ b = 0 := by
  rw [toDouble_eq_ofInt h]
  constructor
  · intro hzero
    obtain ⟨s, m, q, magnitude, hdatum, hpart, rfl⟩ := Binary.ofInt_hasPart
      (lt_of_le_of_lt (natAbs_of_integer? h) (by decide))
    obtain rfl := (Binary.numericallyEqual_zero hdatum).mp hzero
    simp only [Nat.cast_zero, zero_mul, Nat.floor_zero] at hpart
    obtain rfl : magnitude = 0 := by omega
    cases s <;> rfl
  · rintro rfl
    exact (Binary.numericallyEqual_zero (Binary.datum_zero false)).mpr rfl

/-- The intermediate result in `double` has the exact integer part. -/
theorem evaluate_hasPart (hl : left.integer? = some a) (hr : right.integer? = some b)
    (ha : a.natAbs ≤ 2 ^ 53) (hb : b.natAbs ≤ 2 ^ 53) (h : exactResult? op a b = some z) :
    ∃ x, evaluate op left right type = .ok (some (ofDouble x type)) ∧ x.HasPart z := by
  have hx : left.toDouble.Holds a := toDouble_eq_ofInt hl ▸ Binary.ofInt_holds ha
  have hy : right.toDouble.Holds b := toDouble_eq_ofInt hr ▸ Binary.ofInt_holds hb
  have hdivisor : b ≠ 0 →
      (type.isIntegral && right.toDouble.numericallyEqual (.zero .double false)) ≠ true := by
    intro hne hzero
    exact hne ((divisor_eq_zero hr).mp (Bool.and_eq_true_iff.mp hzero).2)
  cases op with
  | add =>
    cases h
    exact ⟨_, rfl, hx.add hy⟩
  | sub =>
    cases h
    exact ⟨_, rfl, hx.sub hy⟩
  | mul =>
    cases h
    exact ⟨_, rfl, hx.mul hy⟩
  | div =>
    simp only [exactResult?] at h
    split at h
    case isTrue => cases h
    case isFalse hne =>
      cases h
      exact ⟨_, if_neg (hdivisor hne), hx.div hy hne⟩
  | rem =>
    simp only [exactResult?] at h
    split at h
    case isTrue => cases h
    case isFalse hne =>
      cases h
      exact ⟨_, if_neg (hdivisor hne), hx.rem hy hne⟩
  | _ => cases h

/-- Only an integral division by zero has no result. -/
theorem evaluate_eq_none_iff (htype : type.isIntegral = true) (hl : left.integer? = some a)
    (hr : right.integer? = some b) :
    evaluate op left right type = .ok none ↔ (op = .div ∨ op = .rem) ∧ b = 0 := by
  have hdivides : ∀ value : Number,
      (if (type.isIntegral && right.toDouble.numericallyEqual (.zero .double false)) = true
        then Except.ok none else Except.ok (some value) : Except Error (Option Number)) = .ok none ↔
      b = 0 := by
    intro value
    rw [htype, Bool.true_and, ← divisor_eq_zero hr]
    split
    case isTrue h => simp [h]
    case isFalse h => simp [h]
  have hbitwise : op.isBitwise = true → evaluate op left right type ≠ .ok none := by
    intro hop hnone
    obtain ⟨value, -, hvalue, -⟩ := evaluate_bitwise hop htype hl hr
    rw [hvalue] at hnone
    cases hnone
  cases op with
  | add | sub | mul => simp [evaluate]
  | div => exact (hdivides _).trans (by simp)
  | rem => exact (hdivides _).trans (by simp)
  | shl | shr | ushr | and | or | xor => simp [hbitwise rfl]

/-- Arithmetic on integers is exact, up to clamping for `int` and within 53 bits for `long`, and
only an integral division by zero has no result. -/
theorem integer_arithmetic_exact :
    (∀ (op : ArithmeticOp) (a b : Int32) (z : Int), exactResult? op a.toInt b.toInt = some z →
      ∃ value : Int32, evaluate op (.int a) (.int b) .int = .ok (some (.int value)) ∧
        value.toInt = max (-2 ^ 31) (min (2 ^ 31 - 1) z)) ∧
    (∀ (op : ArithmeticOp) (a b : Int64) (z : Int), exactResult? op a.toInt b.toInt = some z →
      |a.toInt| ≤ 2 ^ 53 → |b.toInt| ≤ 2 ^ 53 → |z| ≤ 2 ^ 53 →
      ∃ value : Int64, evaluate op (.long a) (.long b) .long = .ok (some (.long value)) ∧
        value.toInt = z) ∧
    (∀ (op : ArithmeticOp) (left right : Number) (type : TypeTag) (a b : Int),
      type.isIntegral = true → left.integer? = some a → right.integer? = some b →
      (evaluate op left right type = .ok none ↔ (op = .div ∨ op = .rem) ∧ b = 0)) := by
  refine ⟨?_, ?_, fun _ _ _ _ _ _ htype hl hr => evaluate_eq_none_iff htype hl hr⟩
  · intro op a b z h
    have hbound : ∀ c : Int32, c.toInt.natAbs ≤ 2 ^ 53 := by
      intro c
      have hlow := c.le_toInt
      have hhigh := c.toInt_lt
      omega
    obtain ⟨x, hx, hpart⟩ := @evaluate_hasPart op (.int a) (.int b) .int _ _ z rfl rfl
      (hbound a) (hbound b) h
    refine ⟨x.toInt32, hx, ?_⟩
    rw [hpart.toInt32]
    norm_num
  · intro op a b z h ha hb hz
    rw [Int.abs_eq_natAbs] at ha hb
    obtain ⟨x, hx, hpart⟩ := @evaluate_hasPart op (.long a) (.long b) .long _ _ z rfl rfl
      (by exact_mod_cast ha) (by exact_mod_cast hb) h
    exact ⟨x.toInt64, hx, hpart.toInt64 hz⟩

/-- The lowest `int` has no opposite, and two thirds of a unit are cut off the largest quotient of
`long`s by three. -/
theorem integer_arithmetic_exact_quotients :
    (∃ value : Int32, evaluate .div (.int (-2147483648)) (.int (-1)) .int =
      .ok (some (.int value)) ∧
      value.toInt = 2147483647) ∧
    ∃ value : Int64, evaluate .div (.long 9007199254740992) (.long (-3)) .long =
        .ok (some (.long value)) ∧ value.toInt = -3002399751580330 := by
  constructor
  · exact integer_arithmetic_exact.1 .div (-2147483648) (-1) 2147483648 (by decide)
  · exact integer_arithmetic_exact.2.1 .div 9007199254740992 (-3) (-3002399751580330) (by decide)
      (by decide) (by decide) (by decide)

end Number

end BytecodeFold
