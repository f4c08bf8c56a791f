import BytecodeFold.Proofs.Binary.Rounding

/-!
# Integers in double precision

Arithmetic on integers of at most 53 bits. The exact result of an operation is a rational number
that is rounded once, and its integer part survives: it comes out right as far as 53 bits reach,
and beyond them when the exact one is.
-/

namespace BytecodeFold

/-- The integer with this sign and magnitude. -/
def signed (negative : Bool) (magnitude : ℕ) : ℤ :=
  if negative then -magnitude else magnitude

theorem signed_mul (s t : Bool) (a b : ℕ) :
    signed s a * signed t b = signed (s != t) (a * b) := by
  cases s <;> cases t <;> simp [signed]

theorem signed_tdiv (s t : Bool) (a b : ℕ) :
    (signed s a).tdiv (signed t b) = signed (s != t) (a / b) := by
  cases s <;> cases t <;> simp [signed, Int.neg_tdiv, Int.tdiv_neg]

theorem signed_tmod (s t : Bool) (a b : ℕ) :
    (signed s a).tmod (signed t b) = signed s (a % b) := by
  cases s <;> cases t <;> simp [signed, Int.neg_tmod, Int.tmod_neg, Int.natCast_emod] <;> rfl

theorem natAbs_signed (s : Bool) (a : ℕ) : (signed s a).natAbs = a := by
  cases s <;> simp [signed]

theorem signed_natAbs (z : ℤ) : signed (z < 0) z.natAbs = z := by
  unfold signed
  by_cases hz : z < 0
  · rw [if_pos (by simpa using hz)]
    omega
  · rw [if_neg (by simpa using hz)]
    omega

theorem pos_of_signed_ne_zero {s : Bool} {a : ℕ} (h : signed s a ≠ 0) : 0 < a := by
  rw [← natAbs_signed s a]
  exact Int.natAbs_pos.mpr h

theorem signed_neg (s : Bool) (a : ℕ) : signed (!s) a = -signed s a := by
  cases s <;> simp [signed]

/-- A significand in smaller units has the same value. -/
theorem units_value (m : ℕ) {exponent unit : ℤ} (hunit : unit ≤ exponent) :
    ((m * Nat.pow 2 (exponent - unit).toNat : ℕ) : ℚ) * 2 ^ unit = m * 2 ^ exponent := by
  obtain ⟨k, hk⟩ := Int.eq_ofNat_of_zero_le (show 0 ≤ exponent - unit by omega)
  rw [hk, Int.toNat_natCast, Nat.pow_eq, Nat.cast_mul, Nat.cast_pow, Nat.cast_ofNat, ← zpow_natCast,
    mul_assoc, ← zpow_add₀ two_ne_zero]
  congr 2
  omega

theorem signedUnits_value {negative : Bool} {m magnitude : ℕ} {exponent unit : ℤ}
    (hunit : unit ≤ exponent) (hvalue : (m : ℚ) * 2 ^ exponent = magnitude) :
    (signedUnits negative m exponent unit : ℚ) * 2 ^ unit = signed negative magnitude := by
  have hunits := (units_value m hunit).trans hvalue
  unfold signedUnits signed
  cases negative with
  | false => exact_mod_cast hunits
  | true =>
    simp only [if_true]
    push_cast at hunits ⊢
    linarith

/-- Remainders scale with the units. -/
theorem mod_scaled {m n a b : ℕ} {c : ℚ} (hc : 0 < c) (hm : m * c = a) (hn : n * c = b) :
    ((m % n : ℕ) : ℚ) * c = (a % b : ℕ) := by
  have hquotient : m / n = a / b := by
    rw [← Nat.floor_div_eq_div (K := ℚ), ← Nat.floor_div_eq_div (K := ℚ), ← hm, ← hn,
      mul_div_mul_right _ _ hc.ne']
  have hleft : (n : ℚ) * (m / n : ℕ) + (m % n : ℕ) = m := by exact_mod_cast Nat.div_add_mod m n
  have hright : (b : ℚ) * (a / b : ℕ) + (a % b : ℕ) = a := by exact_mod_cast Nat.div_add_mod a b
  rw [hquotient] at hleft
  have hscaled : (n : ℚ) * c * (a / b : ℕ) + (m % n : ℕ) * c = m * c := by
    rw [← hleft]
    ring
  rw [hm, hn] at hscaled
  linarith

theorem Datum.truncateClamped_finite (low high : ℤ) (negative : Bool) (m : ℕ) (exponent : ℤ) :
    (Datum.finite negative m exponent).truncateClamped low high =
      max low (min high (signed negative ⌊(m * 2 ^ exponent : ℚ)⌋₊)) := by
  unfold Datum.truncateClamped signed
  dsimp only
  rw [scaleRatio_div m Nat.one_pos exponent, Nat.cast_one, div_one]

namespace Binary

variable {x y : Binary64} {a b z : ℤ}

/-- `x` is the integer `a`, which has at most 53 bits. -/
def Holds (x : Binary64) (a : ℤ) : Prop :=
  ∃ negative m exponent magnitude, x.datum = .finite negative m exponent ∧
    (m : ℚ) * 2 ^ exponent = (magnitude : ℕ) ∧ magnitude ≤ 2 ^ 53 ∧ a = signed negative magnitude

/-- `z` is the integer part of `x`, or both are beyond 53 bits. -/
def HasPart (x : Binary64) (z : ℤ) : Prop :=
  ∃ negative m exponent magnitude, x.datum = .finite negative m exponent ∧
    (⌊(m * 2 ^ exponent : ℚ)⌋₊ = magnitude ∨
      2 ^ 53 ≤ ⌊(m * 2 ^ exponent : ℚ)⌋₊ ∧ 2 ^ 53 < magnitude) ∧
    z = signed negative magnitude

/-! ## Rounding in double precision -/

theorem datum_zero (negative : Bool) :
    (zero .double negative).datum = .finite negative 0 Format.double.minExponent :=
  datum_of_fields (f := .double) (by decide) negative 0 0 (by decide) rfl (by decide)

theorem round_datum_double (negative : Bool) {n d : ℕ} (hn : 0 < n) (hd : 0 < d) (exponent : ℤ)
    {x : ℚ} (hx : x = n / d * 2 ^ exponent) (hlow : 1 / 2 ^ 53 ≤ x) (hhigh : x < 2 ^ 128) :
    ∃ m q, (round .double negative n d exponent).datum = .finite negative m q ∧
      RoundsTo 53 x (m * 2 ^ q) := by
  have hpos : 0 < x := hx ▸ ratio_pos hn hd
  have hleast : -53 ≤ Int.log 2 x :=
    (Int.zpow_le_iff_le_log Nat.one_lt_two hpos).mp (by simpa [zpow_neg] using hlow)
  have hmost : Int.log 2 x < 128 := log_lt_of_lt hpos (by exact_mod_cast hhigh)
  have hmin : Format.double.minExponent = -1074 := by decide
  refine round_datum .double (by decide) negative hn hd exponent hx ?_ ?_
  · rw [hmin, lastPlace, show Format.double.precision = 53 from rfl]
    omega
  · rw [hmin, lastPlace, show Format.double.precision = 53 from rfl,
      show Format.double.exponentBits = 11 from rfl]
    norm_num
    omega

/-- A quotient of integers keeps its integer part when it is rounded. -/
theorem round_hasPart (negative : Bool) {n d : ℕ} (hd : 0 < d) (exponent : ℤ) {a b : ℕ} (hb : 0 < b)
    (hvalue : (n / d * 2 ^ exponent : ℚ) = a / b) (hfits : a ≤ 2 ^ 53 ∨ b = 1) (ha : a < 2 ^ 128)
    (hb' : b ≤ 2 ^ 53) :
    HasPart (round .double negative n d exponent) (signed negative (a / b)) := by
  have hbq : (0 : ℚ) < b := by exact_mod_cast hb
  rcases Nat.eq_zero_or_pos n with rfl | hn
  · have hzero : a = 0 := by
      rw [Nat.cast_zero, zero_div, zero_mul, eq_comm, div_eq_zero_iff] at hvalue
      rcases hvalue with h | h
      · exact_mod_cast h
      · exact absurd h hbq.ne'
    refine ⟨negative, 0, Format.double.minExponent, 0, ?_, by simp, by simp [hzero]⟩
    rw [round, if_pos rfl, datum_zero]
  · have hpos : 0 < a := by
      have hratio := hvalue ▸ @ratio_pos n d hn hd exponent
      exact_mod_cast (div_pos_iff_of_pos_right hbq).mp hratio
    have hone : (1 : ℚ) ≤ a := by exact_mod_cast hpos
    have hlow : (1 / 2 ^ 53 : ℚ) ≤ a / b := by
      have hbound : (b : ℚ) ≤ 2 ^ 53 := by exact_mod_cast hb'
      exact div_le_div₀ (by positivity) hone hbq hbound
    have hhigh : (a / b : ℚ) < 2 ^ 128 :=
      lt_of_le_of_lt (div_le_self (by positivity) (by exact_mod_cast hb)) (by exact_mod_cast ha)
    obtain ⟨m, q, hdatum, rounds⟩ :=
      round_datum_double negative hn hd exponent hvalue.symm hlow hhigh
    refine ⟨negative, m, q, a / b, hdatum, ?_, rfl⟩
    rcases hfits with hfits | rfl
    · exact .inl (rounds.floor_div (by decide) hfits hb)
    · rw [Nat.cast_one, div_one] at rounds
      rw [Nat.div_one]
      exact rounds.floor_natCast (by decide)

theorem round_hasPart_nat (negative : Bool) {n : ℕ} (exponent : ℤ) {magnitude : ℕ}
    (hvalue : (n * 2 ^ exponent : ℚ) = magnitude) (hbound : magnitude < 2 ^ 128) :
    HasPart (round .double negative n 1 exponent) (signed negative magnitude) := by
  have h := round_hasPart negative (n := n) (a := magnitude) Nat.one_pos exponent Nat.one_pos
    (by rw [Nat.cast_one, div_one, div_one, hvalue]) (.inr rfl) hbound (by decide)
  rwa [Nat.div_one] at h

theorem ofScaledInt_hasPart {sum exponent : ℤ} (hvalue : (sum * 2 ^ exponent : ℚ) = z)
    (hbound : z.natAbs < 2 ^ 128) : HasPart (ofScaledInt .double sum exponent) z := by
  have hpos : (0 : ℚ) < 2 ^ exponent := by positivity
  have hsign : sum < 0 ↔ z < 0 := by
    rw [← Int.cast_lt_zero (R := ℚ), ← Int.cast_lt_zero (R := ℚ), ← hvalue]
    constructor
    · intro h
      exact mul_neg_of_neg_of_pos h hpos
    · intro h
      by_contra hn
      exact absurd h (not_lt.mpr (mul_nonneg (not_lt.mp hn) hpos.le))
  have hmagnitude : (sum.natAbs * 2 ^ exponent : ℚ) = z.natAbs := by
    rw [Nat.cast_natAbs, Nat.cast_natAbs, Int.cast_abs, Int.cast_abs, ← hvalue, abs_mul,
      abs_of_pos hpos]
  have h := round_hasPart_nat (decide (sum < 0)) exponent hmagnitude hbound
  rwa [decide_eq_decide.mpr hsign, signed_natAbs, ← decide_eq_decide.mpr hsign] at h

theorem ofInt_hasPart (hbound : z.natAbs < 2 ^ 128) : HasPart (ofInt .double z) z :=
  ofScaledInt_hasPart (by rw [zpow_zero, mul_one]) hbound

/-- An integer of at most 53 bits becomes a `double` without rounding. -/
theorem ofInt_holds (hz : z.natAbs ≤ 2 ^ 53) : Holds (ofInt .double z) z := by
  rcases Nat.eq_zero_or_pos z.natAbs with hzero | hpos
  · obtain rfl : z = 0 := Int.natAbs_eq_zero.mp hzero
    exact ⟨false, 0, Format.double.minExponent, 0, datum_zero false, by simp, by simp, rfl⟩
  · have hone : (1 : ℚ) ≤ z.natAbs := by exact_mod_cast hpos
    have hbound : (z.natAbs : ℚ) ≤ 2 ^ 53 := by exact_mod_cast hz
    obtain ⟨m, q, hdatum, rounds⟩ := round_datum_double (decide (z < 0)) hpos Nat.one_pos 0
      (x := z.natAbs) (by simp) (le_trans (by norm_num) hone) (lt_of_le_of_lt hbound (by norm_num))
    exact ⟨z < 0, m, q, z.natAbs, hdatum, rounds.eq_natCast (by decide) hz, hz,
      (signed_natAbs z).symm⟩

/-! ## Operations -/

theorem Holds.add (hx : Holds x a) (hy : Holds y b) : HasPart (x.add y) (a + b) := by
  obtain ⟨s, m, p, A, hdx, hA, hAle, rfl⟩ := hx
  obtain ⟨t, n, q, B, hdy, hB, hBle, rfl⟩ := hy
  have hsum : ((signedUnits s m p (min p q) + signedUnits t n q (min p q) : ℤ) : ℚ) * 2 ^ min p q =
      (signed s A + signed t B : ℤ) := by
    push_cast
    rw [add_mul, signedUnits_value (min_le_left p q) hA, signedUnits_value (min_le_right p q) hB]
  have hbound : (signed s A + signed t B).natAbs < 2 ^ 128 := by
    have hle := Int.natAbs_add_le (signed s A) (signed t B)
    rw [natAbs_signed, natAbs_signed] at hle
    omega
  unfold Binary.add
  rw [hdx, hdy]
  dsimp only
  split
  case isTrue hzero =>
    have hz : signed s A + signed t B = 0 := by
      rw [hzero, Int.cast_zero, zero_mul, eq_comm] at hsum
      exact_mod_cast hsum
    rw [hz]
    exact ⟨s && t, 0, Format.double.minExponent, 0, datum_zero _, by simp, by simp [signed]⟩
  case isFalse => exact ofScaledInt_hasPart hsum hbound

theorem datum_neg {s : Bool} {m : ℕ} {q : ℤ} (h : x.datum = .finite s m q) :
    x.neg.datum = .finite (!s) m q := by
  have hlt : x.magnitude < Format.double.signBit := Nat.mod_lt _ (Nat.two_pow_pos _)
  have hmagnitude : x.neg.magnitude = x.magnitude := magnitude_ofMagnitude (by decide) hlt
  have hnegative : x.neg.isNegative = !x.isNegative := isNegative_ofMagnitude (by decide) hlt
  unfold datum at h ⊢
  simp only [hmagnitude, hnegative]
  dsimp only at h
  split_ifs at h ⊢ <;> cases h <;> rfl

theorem Holds.neg (hx : Holds x a) : Holds x.neg (-a) := by
  obtain ⟨s, m, p, A, hdx, hA, hAle, rfl⟩ := hx
  exact ⟨!s, m, p, A, datum_neg hdx, hA, hAle, (signed_neg s A).symm⟩

theorem Holds.sub (hx : Holds x a) (hy : Holds y b) : HasPart (x.sub y) (a - b) :=
  hx.add hy.neg

theorem Holds.mul (hx : Holds x a) (hy : Holds y b) : HasPart (x.mul y) (a * b) := by
  obtain ⟨s, m, p, A, hdx, hA, hAle, rfl⟩ := hx
  obtain ⟨t, n, q, B, hdy, hB, hBle, rfl⟩ := hy
  have hvalue : ((m * n : ℕ) * 2 ^ (p + q) : ℚ) = (A * B : ℕ) := by
    push_cast
    rw [← hA, ← hB, zpow_add₀ two_ne_zero]
    ring
  have hbound : A * B < 2 ^ 128 := lt_of_le_of_lt (Nat.mul_le_mul hAle hBle) (by decide)
  unfold Binary.mul
  rw [hdx, hdy, signed_mul]
  exact round_hasPart_nat (s != t) (p + q) hvalue hbound

/-- Only zero has a significand of zero. -/
theorem significand_pos {n B : ℕ} {q : ℤ} (hB : (n : ℚ) * 2 ^ q = B) (hpos : 0 < B) : 0 < n := by
  rcases Nat.eq_zero_or_pos n with rfl | hn
  · rw [Nat.cast_zero, zero_mul, eq_comm] at hB
    have hzero : B = 0 := by exact_mod_cast hB
    omega
  · exact hn

theorem Holds.div (hx : Holds x a) (hy : Holds y b) (hb : b ≠ 0) :
    HasPart (x.div y) (a.tdiv b) := by
  obtain ⟨s, m, p, A, hdx, hA, hAle, rfl⟩ := hx
  obtain ⟨t, n, q, B, hdy, hB, hBle, rfl⟩ := hy
  have hBpos : 0 < B := pos_of_signed_ne_zero hb
  have hn : 0 < n := significand_pos hB hBpos
  have hvalue : (m / n * 2 ^ (p - q) : ℚ) = A / B := by
    rw [← hA, ← hB, zpow_sub₀ two_ne_zero]
    field_simp
  unfold Binary.div
  rw [hdx, hdy, signed_tdiv]
  dsimp only
  rw [if_neg hn.ne']
  exact round_hasPart (s != t) hn (p - q) hBpos hvalue (.inl hAle) (by omega) hBle

theorem Holds.rem (hx : Holds x a) (hy : Holds y b) (hb : b ≠ 0) :
    HasPart (x.rem y) (a.tmod b) := by
  obtain ⟨s, m, p, A, hdx, hA, hAle, rfl⟩ := hx
  obtain ⟨t, n, q, B, hdy, hB, hBle, rfl⟩ := hy
  have hBpos : 0 < B := pos_of_signed_ne_zero hb
  have hn : 0 < n := significand_pos hB hBpos
  have hvalue := mod_scaled (show (0 : ℚ) < 2 ^ min p q by positivity)
    ((units_value m (min_le_left p q)).trans hA) ((units_value n (min_le_right p q)).trans hB)
  have hbound : A % B < 2 ^ 128 := lt_of_le_of_lt (Nat.mod_le A B) (by omega)
  unfold Binary.rem
  rw [hdx, hdy, signed_tmod]
  dsimp only
  rw [if_neg hn.ne']
  exact round_hasPart_nat s (min p q) hvalue hbound

end Binary

end BytecodeFold
