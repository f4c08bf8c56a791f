import BytecodeFold.Binary.Arithmetic
import Mathlib.Algebra.Order.Field.Power
import Mathlib.Algebra.Order.Floor.Semifield
import Mathlib.Data.Int.Log
import Mathlib.Data.Nat.Cast.Order.Field
import Mathlib.Data.Rat.Floor
import Mathlib.Tactic.FieldSimp
import Mathlib.Tactic.Linarith
import Mathlib.Tactic.Positivity
import Mathlib.Tactic.Ring

/-!
# Rounding, as a statement about rational numbers

Away from the ends of a format's range, rounding gives the multiple of the last place that is
nearest to the exact value. From this alone follows what integer arithmetic needs: an integer that
fits the significand is kept, a larger one stays large, and a quotient of two integers that fit is
never carried to the next integer.
-/

namespace BytecodeFold

/-! ## The parts of rounding -/

theorem scaleRatio_value (n : ℕ) {d : ℕ} (hd : 0 < d) (shift : ℤ) :
    0 < (scaleRatio n d shift).2 ∧
      ((scaleRatio n d shift).1 : ℚ) / (scaleRatio n d shift).2 = n / d * 2 ^ shift := by
  unfold scaleRatio
  by_cases hs : 0 ≤ shift
  · obtain ⟨k, rfl⟩ := Int.eq_ofNat_of_zero_le hs
    rw [if_pos hs]
    refine ⟨hd, ?_⟩
    simp only [Int.toNat_natCast, Nat.pow_eq, Nat.cast_mul, Nat.cast_pow, Nat.cast_ofNat,
      zpow_natCast]
    ring
  · obtain ⟨k, hk⟩ := Int.eq_ofNat_of_zero_le (show 0 ≤ -shift by omega)
    obtain rfl : shift = -k := by omega
    rw [if_neg hs]
    refine ⟨Nat.mul_pos hd (Nat.pow_pos (by decide)), ?_⟩
    simp only [neg_neg, Int.toNat_natCast, Nat.pow_eq, Nat.cast_mul, Nat.cast_pow, Nat.cast_ofNat,
      zpow_neg, zpow_natCast]
    field_simp

/-- The integer part of a quotient that was scaled. -/
theorem scaleRatio_div (n : ℕ) {d : ℕ} (hd : 0 < d) (shift : ℤ) :
    (scaleRatio n d shift).1 / (scaleRatio n d shift).2 = ⌊(n / d * 2 ^ shift : ℚ)⌋₊ := by
  rw [← (scaleRatio_value n hd shift).2, Nat.floor_div_eq_div]

theorem log_lt_of_lt {x : ℚ} (hx : 0 < x) {k : ℤ} (h : x < 2 ^ k) : Int.log 2 x < k :=
  (Int.lt_zpow_iff_log_lt Nat.one_lt_two hx).mp (by exact_mod_cast h)

/-- The logarithm is the exponent of the power of two just below. -/
theorem log_eq_of_between {x : ℚ} {k : ℤ} (hlow : 2 ^ k ≤ x) (hhigh : x < 2 ^ (k + 1)) :
    Int.log 2 x = k := by
  have hx : 0 < x := lt_of_lt_of_le (by positivity) hlow
  have hle := (Int.zpow_le_iff_le_log Nat.one_lt_two hx).mp (by exact_mod_cast hlow)
  have hlt := log_lt_of_lt hx hhigh
  omega

theorem two_zpow_log_le {x : ℚ} (hx : 0 < x) : 2 ^ Int.log 2 x ≤ x := by
  exact_mod_cast Int.zpow_log_le_self Nat.one_lt_two hx

theorem lt_two_zpow_log {x : ℚ} : x < 2 ^ (Int.log 2 x + 1) := by
  exact_mod_cast Int.lt_zpow_succ_log_self Nat.one_lt_two x

theorem leadingExponent_eq_log {n d : ℕ} (hn : 0 < n) (hd : 0 < d) :
    leadingExponent n d = Int.log 2 (n / d : ℚ) := by
  have hdq : (0 : ℚ) < d := by exact_mod_cast hd
  have hbits : ∀ k : ℕ, 0 < k → (2 : ℚ) ^ (k.log2 : ℤ) ≤ k ∧ (k : ℚ) < 2 ^ (k.log2 + 1 : ℤ) := by
    intro k hk
    rw [← Nat.cast_succ, zpow_natCast, zpow_natCast]
    exact ⟨by exact_mod_cast Nat.log2_self_le hk.ne', by exact_mod_cast Nat.lt_log2_self⟩
  obtain ⟨hnlow, hnhigh⟩ := hbits n hn
  obtain ⟨hdlow, hdhigh⟩ := hbits d hd
  set guess : ℤ := (n.log2 : ℤ) - d.log2 with hguess
  -- the guess is right or one too high
  have hlow : (2 : ℚ) ^ (guess - 1) ≤ n / d := by
    rw [le_div_iff₀ hdq]
    calc (2 : ℚ) ^ (guess - 1) * d ≤ 2 ^ (guess - 1) * 2 ^ (d.log2 + 1 : ℤ) := by gcongr
      _ = 2 ^ (n.log2 : ℤ) := by
        rw [← zpow_add₀ two_ne_zero]
        congr 1
        omega
      _ ≤ n := hnlow
  have hhigh : (n / d : ℚ) < 2 ^ (guess + 1) := by
    rw [div_lt_iff₀ hdq]
    calc (n : ℚ) < 2 ^ (n.log2 + 1 : ℤ) := hnhigh
      _ = 2 ^ (guess + 1) * 2 ^ (d.log2 : ℤ) := by
        rw [← zpow_add₀ two_ne_zero]
        congr 1
        omega
      _ ≤ 2 ^ (guess + 1) * d := by gcongr
  obtain ⟨hpos, hvalue⟩ := scaleRatio_value n hd (-guess)
  have hposq : (0 : ℚ) < (scaleRatio n d (-guess)).2 := by exact_mod_cast hpos
  have htest : (scaleRatio n d (-guess)).2 ≤ (scaleRatio n d (-guess)).1 ↔
      (2 : ℚ) ^ guess ≤ n / d := by
    rw [← Nat.cast_le (α := ℚ), ← one_le_div hposq, hvalue, zpow_neg, ← div_eq_mul_inv,
      one_le_div (by positivity)]
  refine (log_eq_of_between ?_ ?_).symm
  · unfold leadingExponent
    dsimp only
    split
    case isTrue h => exact htest.mp h
    case isFalse => exact hlow
  · unfold leadingExponent
    dsimp only
    split
    case isTrue => exact hhigh
    case isFalse h =>
      rw [sub_add_cancel]
      exact lt_of_not_ge fun hle => h (htest.mpr hle)

theorem divNearest_near (n : ℕ) {d : ℕ} (hd : 0 < d) :
    |(divNearest n d : ℚ) - n / d| ≤ 1 / 2 := by
  have hdq : (0 : ℚ) < d := by exact_mod_cast hd
  have hbounds : 2 * (divNearest n d * d) ≤ 2 * n + d ∧ 2 * n ≤ 2 * (divNearest n d * d) + d := by
    have hdiv : n / d * d + n % d = n := Nat.div_add_mod' n d
    have hmod : n % d < d := Nat.mod_lt n hd
    unfold divNearest
    dsimp only
    split
    case isTrue h => omega
    case isFalse h =>
      have hsucc : (n / d + 1) * d = n / d * d + d := Nat.succ_mul _ _
      split
      case isTrue => omega
      case isFalse =>
        rcases Nat.mod_two_eq_zero_or_one (n / d) with hpar | hpar
        · rw [hpar, Nat.add_zero]
          omega
        · rw [hpar]
          omega
  obtain ⟨hup, hdown⟩ := hbounds
  have hupq : 2 * ((divNearest n d : ℚ) * d) ≤ 2 * n + d := by exact_mod_cast hup
  have hdownq : 2 * (n : ℚ) ≤ 2 * (divNearest n d * d) + d := by exact_mod_cast hdown
  have hscaled : ((divNearest n d : ℚ) - n / d) * d = divNearest n d * d - n := by
    field_simp
  rw [abs_le]
  constructor
  · nlinarith
  · nlinarith

/-! ## Rounded values -/

/-- The exponent of the last place of numbers with `p` bits that are about as large as `x`. -/
def lastPlace (p : ℕ) (x : ℚ) : ℤ := Int.log 2 x + 1 - p

theorem half_lastPlace (p : ℕ) (x : ℚ) : (2 : ℚ) ^ lastPlace p x / 2 = 2 ^ Int.log 2 x / 2 ^ p := by
  rw [lastPlace, zpow_sub₀ two_ne_zero, zpow_add₀ two_ne_zero, zpow_natCast, zpow_one]
  ring

/-- Counts of one unit that differ by less than one are in order. -/
theorem le_of_mul_lt {j k : ℕ} {unit : ℚ} (hunit : 0 < unit) (h : j * unit < (k + 1) * unit) :
    j ≤ k := by
  have hlt : (j : ℚ) < k + 1 := (mul_lt_mul_iff_left₀ hunit).mp h
  exact Nat.lt_succ_iff.mp (by exact_mod_cast hlt)

/-- `r` is a multiple of the last place at `x`, and none is nearer to `x`. -/
structure RoundsTo (p : ℕ) (x r : ℚ) : Prop where
  grid : ∃ units : ℕ, r = units * 2 ^ lastPlace p x
  near : |r - x| ≤ 2 ^ lastPlace p x / 2

namespace RoundsTo

variable {p : ℕ} {x r : ℚ}

/-- A multiple of the last place that is not above the exact value is not above the rounded one. -/
theorem le_of_le (h : RoundsTo p x r) {k : ℕ} (hk : (k : ℚ) * 2 ^ lastPlace p x ≤ x) :
    (k : ℚ) * 2 ^ lastPlace p x ≤ r := by
  obtain ⟨units, hr⟩ := h.grid
  have hpos : (0 : ℚ) < 2 ^ lastPlace p x := by positivity
  have hnear := (abs_le.mp h.near).1
  have hle : k ≤ units := le_of_mul_lt hpos (by linarith)
  rw [hr]
  gcongr

/-- A multiple of the last place rounds to itself. -/
theorem eq_of_eq (h : RoundsTo p x r) {k : ℕ} (hk : x = k * 2 ^ lastPlace p x) : r = x := by
  have hle := h.le_of_le hk.ge
  obtain ⟨units, hr⟩ := h.grid
  have hpos : (0 : ℚ) < 2 ^ lastPlace p x := by positivity
  have hnear := (abs_le.mp h.near).2
  have hunits : units ≤ k := le_of_mul_lt hpos (by linarith)
  have hge : r ≤ k * 2 ^ lastPlace p x := by
    rw [hr]
    gcongr
  linarith

/-- The leading power of two is a multiple of the last place. -/
theorem two_zpow_log_eq (hp : 0 < p) (x : ℚ) :
    (2 : ℚ) ^ Int.log 2 x = (2 ^ (p - 1) : ℕ) * 2 ^ lastPlace p x := by
  rw [Nat.cast_pow, Nat.cast_ofNat, ← zpow_natCast, ← zpow_add₀ two_ne_zero, lastPlace]
  congr 1
  omega

/-- Integers are multiples of a last place that is not above the units. -/
theorem exists_units (last : ℤ) (hlast : last ≤ 0) (z : ℕ) : ∃ k : ℕ, (z : ℚ) = k * 2 ^ last := by
  obtain ⟨j, hj⟩ := Int.eq_ofNat_of_zero_le (show 0 ≤ -last by omega)
  obtain rfl : last = -j := by omega
  refine ⟨z * 2 ^ j, ?_⟩
  rw [zpow_neg, zpow_natCast, Nat.cast_mul, Nat.cast_pow, Nat.cast_ofNat]
  field_simp

/-- An integer that fits the significand is kept. -/
theorem eq_natCast (hp : 0 < p) {z : ℕ} (hz : z ≤ 2 ^ p) (h : RoundsTo p z r) : r = z := by
  rcases Nat.eq_zero_or_pos z with rfl | hpos
  · exact h.eq_of_eq (k := 0) (by simp)
  have hposq : (0 : ℚ) < z := by exact_mod_cast hpos
  rcases Nat.lt_or_eq_of_le hz with hlt | rfl
  · have hlog := log_lt_of_lt hposq (k := p) (by rw [zpow_natCast]; exact_mod_cast hlt)
    obtain ⟨k, hk⟩ := exists_units (lastPlace p z) (by rw [lastPlace]; omega) z
    exact h.eq_of_eq hk
  · refine h.eq_of_eq (k := 2 ^ (p - 1)) ?_
    have hlog : Int.log 2 ((2 ^ p : ℕ) : ℚ) = p := by
      refine log_eq_of_between ?_ ?_
      · rw [zpow_natCast]
        push_cast
        rfl
      · rw [zpow_add₀ two_ne_zero, zpow_natCast]
        push_cast
        linarith [show (0 : ℚ) < 2 ^ p by positivity]
    rw [← two_zpow_log_eq hp, hlog, zpow_natCast]
    push_cast
    rfl

/-- A value with an integer part beyond the significand stays beyond it. -/
theorem two_pow_le (hp : 0 < p) (hx : 2 ^ p ≤ x) (h : RoundsTo p x r) : 2 ^ p ≤ r := by
  have hpos : 0 < x := lt_of_lt_of_le (by positivity) hx
  have hlog : (p : ℤ) ≤ Int.log 2 x :=
    (Int.zpow_le_iff_le_log Nat.one_lt_two hpos).mp (by rw [zpow_natCast]; exact_mod_cast hx)
  have hlead : (2 : ℚ) ^ Int.log 2 x ≤ r := by
    have hle := two_zpow_log_le hpos
    rw [two_zpow_log_eq hp] at hle ⊢
    exact h.le_of_le hle
  calc (2 : ℚ) ^ p = 2 ^ (p : ℤ) := (zpow_natCast 2 p).symm
    _ ≤ 2 ^ Int.log 2 x := zpow_le_zpow_right₀ one_le_two hlog
    _ ≤ r := hlead

/-- Rounding does not carry a quotient to the next integer. The quotient stays at least one part in
`b` below it, while half a last place is less than that, unless the quotient is a power of two and
not rounded at all. -/
theorem floor_div (hp : 0 < p) {a b : ℕ} (ha : a ≤ 2 ^ p) (hb : 0 < b)
    (h : RoundsTo p (a / b) r) : ⌊r⌋₊ = a / b := by
  rcases Nat.eq_zero_or_pos a with rfl | hapos
  · have hr : r = 0 := by
      rw [h.eq_of_eq (k := 0) (by simp)]
      simp
    simp [hr]
  have hbq : (0 : ℚ) < b := by exact_mod_cast hb
  have haq : (a : ℚ) ≤ 2 ^ p := by exact_mod_cast ha
  have hx : (0 : ℚ) < a / b := by positivity
  set L := Int.log 2 (a / b : ℚ)
  rcases (two_zpow_log_le hx).eq_or_lt with heq | hlt
  · have hr : r = a / b := h.eq_of_eq (k := 2 ^ (p - 1)) (by rw [← two_zpow_log_eq hp, heq])
    rw [hr, Nat.floor_div_eq_div]
  · have hsmall : (b : ℚ) * 2 ^ L < 2 ^ p := by
      have hmul := (lt_div_iff₀ hbq).mp hlt
      linarith [mul_comm (b : ℚ) (2 ^ L)]
    have hhalf : (b : ℚ) * (2 ^ lastPlace p (a / b) / 2) < 1 := by
      rw [half_lastPlace, ← mul_div_assoc, div_lt_one (by positivity)]
      exact hsmall
    have hLp : L < p := by
      have hle : (a / b : ℚ) ≤ a := div_le_self (by positivity) (by exact_mod_cast hb)
      rw [← zpow_lt_zpow_iff_right₀ (one_lt_two (α := ℚ)), zpow_natCast]
      linarith
    have hlow : ((a / b : ℕ) : ℚ) ≤ r := by
      obtain ⟨k, hk⟩ := exists_units (lastPlace p (a / b)) (by rw [lastPlace]; omega) (a / b)
      rw [hk]
      exact h.le_of_le (hk ▸ Nat.cast_div_le)
    have hhigh : r < (a / b : ℕ) + 1 := by
      have hnext : (a : ℚ) + 1 ≤ ((a / b : ℕ) + 1) * b := by
        exact_mod_cast Nat.succ_le_of_lt (Nat.lt_mul_of_div_lt (Nat.lt_succ_self _) hb)
      have hnear : (r - a / b) * b ≤ 2 ^ lastPlace p (a / b) / 2 * b :=
        mul_le_mul_of_nonneg_right (abs_le.mp h.near).2 hbq.le
      have hcancel : (r - a / b) * b = r * b - a := by
        field_simp
      refine lt_of_mul_lt_mul_right ?_ hbq.le
      linarith
    exact (Nat.floor_eq_iff (le_trans (Nat.cast_nonneg _) hlow)).mpr ⟨hlow, hhigh⟩

/-- The integer part of a rounded integer is that integer, or both are beyond the significand. -/
theorem floor_natCast (hp : 0 < p) {z : ℕ} (h : RoundsTo p z r) :
    ⌊r⌋₊ = z ∨ 2 ^ p ≤ ⌊r⌋₊ ∧ 2 ^ p < z := by
  rcases le_or_gt z (2 ^ p) with hz | hz
  · left
    rw [h.eq_natCast hp hz, Nat.floor_natCast]
  · right
    refine ⟨Nat.le_floor ?_, hz⟩
    push_cast
    exact h.two_pow_le hp (by exact_mod_cast hz.le)

end RoundsTo

/-- The number of last places nearest to a value gives a rounded one, with all the bits that there
are, or one more after a carry. -/
theorem roundsTo_divNearest {p : ℕ} {x : ℚ} (hp : 0 < p) (hx : 0 < x) {scaled unit : ℕ}
    (hunit : 0 < unit) (hcount : (scaled : ℚ) / unit * 2 ^ lastPlace p x = x) :
    RoundsTo p x (divNearest scaled unit * 2 ^ lastPlace p x) ∧
      2 ^ (p - 1) ≤ divNearest scaled unit ∧ divNearest scaled unit ≤ 2 * 2 ^ (p - 1) := by
  have hpos : (0 : ℚ) < 2 ^ lastPlace p x := by positivity
  have hnear : |(divNearest scaled unit : ℚ) * 2 ^ lastPlace p x - x| ≤ 2 ^ lastPlace p x / 2 := by
    have hdiff : (divNearest scaled unit : ℚ) * 2 ^ lastPlace p x - x =
        (divNearest scaled unit - scaled / unit) * 2 ^ lastPlace p x := by
      rw [sub_mul, hcount]
    rw [hdiff, abs_mul, abs_of_pos hpos]
    linarith [mul_le_mul_of_nonneg_right (divNearest_near scaled hunit) hpos.le]
  have rounds : RoundsTo p x (divNearest scaled unit * 2 ^ lastPlace p x) := ⟨⟨_, rfl⟩, hnear⟩
  refine ⟨rounds, ?_, ?_⟩
  · have hle := rounds.le_of_le ((RoundsTo.two_zpow_log_eq hp x) ▸ two_zpow_log_le hx)
    exact_mod_cast (mul_le_mul_iff_left₀ hpos).mp hle
  · have hlt : x < 2 * 2 ^ (p - 1) * 2 ^ lastPlace p x := by
      have hlog := lt_two_zpow_log (x := x)
      rw [zpow_add_one₀ two_ne_zero, RoundsTo.two_zpow_log_eq hp x] at hlog
      push_cast at hlog
      linarith
    refine le_of_mul_lt hpos ?_
    push_cast
    linarith [(abs_le.mp hnear).2]

theorem ratio_pos {n d : ℕ} (hn : 0 < n) (hd : 0 < d) {exponent : ℤ} :
    (0 : ℚ) < n / d * 2 ^ exponent := by
  have hnq : (0 : ℚ) < n := by exact_mod_cast hn
  have hdq : (0 : ℚ) < d := by exact_mod_cast hd
  positivity

theorem log_ratio {n d : ℕ} (hn : 0 < n) (hd : 0 < d) {exponent : ℤ} :
    Int.log 2 (n / d * 2 ^ exponent : ℚ) = exponent + leadingExponent n d := by
  have hratio : (0 : ℚ) < n / d := by simpa using @ratio_pos n d hn hd 0
  rw [leadingExponent_eq_log hn hd]
  refine log_eq_of_between ?_ ?_
  · rw [zpow_add₀ two_ne_zero, mul_comm]
    exact mul_le_mul_of_nonneg_right (two_zpow_log_le hratio) (by positivity)
  · rw [add_assoc, zpow_add₀ two_ne_zero, mul_comm]
    exact mul_lt_mul_of_pos_left lt_two_zpow_log (by positivity)

/-! ## Numbers of a format -/

namespace Binary

variable {f : Format} {negative : Bool}

theorem two_mul_signBit (hp : 0 < f.precision) : 2 * f.signBit = 2 ^ f.width := by
  rw [Format.signBit, Format.width, Nat.pow_eq, ← Nat.pow_succ']
  congr 1
  omega

theorem infinityMagnitude_lt (hp : 0 < f.precision) : f.infinityMagnitude < f.signBit := by
  have hsign : f.signBit = 2 ^ f.exponentBits * 2 ^ (f.precision - 1) := by
    rw [Format.signBit, Format.width, Nat.pow_eq, ← Nat.pow_add]
    congr 1
    omega
  rw [hsign, Format.infinityMagnitude, Nat.pow_eq, Nat.pow_eq]
  exact Nat.mul_lt_mul_of_pos_right (Nat.sub_lt (Nat.two_pow_pos _) (by decide)) (Nat.two_pow_pos _)

theorem toNat_ofMagnitude (hp : 0 < f.precision) {magnitude : ℕ} (hm : magnitude < f.signBit) :
    (ofMagnitude f negative magnitude).bits.toNat =
      magnitude + if negative then f.signBit else 0 := by
  rw [ofMagnitude, BitVec.toNat_ofNat, Nat.mod_eq_of_lt]
  have hwidth := two_mul_signBit hp
  split <;> omega

theorem magnitude_ofMagnitude (hp : 0 < f.precision) {magnitude : ℕ} (hm : magnitude < f.signBit) :
    (ofMagnitude f negative magnitude).magnitude = magnitude := by
  rw [Binary.magnitude, toNat_ofMagnitude hp hm]
  cases negative with
  | false => exact Nat.mod_eq_of_lt hm
  | true =>
    rw [if_pos rfl, Nat.add_mod_right]
    exact Nat.mod_eq_of_lt hm

theorem isNegative_ofMagnitude (hp : 0 < f.precision) {magnitude : ℕ} (hm : magnitude < f.signBit) :
    (ofMagnitude f negative magnitude).isNegative = negative := by
  rw [Binary.isNegative, toNat_ofMagnitude hp hm]
  cases negative with
  | false => simpa using hm
  | true => simp

/-- A pattern below infinity, read off its exponent field and its fraction. -/
theorem datum_of_fields (hp : 0 < f.precision) (negative : Bool) {magnitude : ℕ}
    (field fraction : ℕ) (hfinite : magnitude < f.infinityMagnitude)
    (hm : fraction + 2 ^ (f.precision - 1) * field = magnitude)
    (hfraction : fraction < 2 ^ (f.precision - 1)) :
    (ofMagnitude f negative magnitude).datum =
      if field = 0 then .finite negative fraction f.minExponent
      else .finite negative (2 ^ (f.precision - 1) + fraction)
        (f.minExponent + ((field : ℤ) - 1)) := by
  have hsign := hfinite.trans (infinityMagnitude_lt hp)
  obtain ⟨hdiv, hmod⟩ :=
    (Nat.div_mod_unique (Nat.two_pow_pos (f.precision - 1))).mpr ⟨hm, hfraction⟩
  unfold datum
  simp only [magnitude_ofMagnitude hp hsign, isNegative_ofMagnitude hp hsign, Nat.pow_eq,
    hdiv, hmod]
  rw [if_neg (Nat.not_lt.mpr hfinite.le), if_neg hfinite.ne]

/-- What a pattern stands for that was put together from an exponent and a significand. The
significand may be as large as a carry makes it. -/
theorem datum_ofMagnitude (hp : 0 < f.precision) {steps units : ℕ}
    (hunits : units ≤ 2 * 2 ^ (f.precision - 1))
    (hsteps : steps = 0 ∨ 2 ^ (f.precision - 1) ≤ units)
    (hfinite : steps * 2 ^ (f.precision - 1) + units < f.infinityMagnitude) :
    ∃ m q, (ofMagnitude f negative (steps * 2 ^ (f.precision - 1) + units)).datum =
        .finite negative m q ∧ (m : ℚ) * 2 ^ q = units * 2 ^ (f.minExponent + steps) := by
  have hpos : 0 < 2 ^ (f.precision - 1) := Nat.two_pow_pos _
  rcases Nat.lt_or_ge units (2 ^ (f.precision - 1)) with hlt | hge
  · -- no leading bit, so a number below the smallest normal one
    obtain rfl : steps = 0 := by omega
    have hdatum := datum_of_fields hp negative 0 units hfinite
      (by rw [Nat.zero_mul, Nat.mul_zero, Nat.zero_add, Nat.add_zero]) hlt
    exact ⟨units, f.minExponent, hdatum, by simp⟩
  rcases Nat.lt_or_ge units (2 * 2 ^ (f.precision - 1)) with hlt | hge'
  · obtain ⟨fraction, rfl⟩ := Nat.exists_eq_add_of_le hge
    have hdatum := datum_of_fields hp negative (steps + 1) fraction hfinite (by ring) (by omega)
    refine ⟨_, _, hdatum, ?_⟩
    rw [Nat.cast_succ, add_sub_cancel_right]
  · -- the carry reached the next exponent
    obtain rfl : units = 2 * 2 ^ (f.precision - 1) := by omega
    have hdatum := datum_of_fields hp negative (steps + 2) 0 hfinite (by ring) hpos
    refine ⟨_, _, hdatum, ?_⟩
    rw [show f.minExponent + (((steps + 2 : ℕ) : ℤ) - 1) =
      f.minExponent + steps + 1 by push_cast; ring, zpow_add_one₀ two_ne_zero]
    push_cast
    ring

/-- Rounding a value whose last place lies inside the format's range. -/
theorem round_datum (f : Format) (hp : 0 < f.precision) (negative : Bool) {n d : ℕ} (hn : 0 < n)
    (hd : 0 < d) (exponent : ℤ) {x : ℚ} (hx : x = n / d * 2 ^ exponent)
    (hlow : f.minExponent ≤ lastPlace f.precision x)
    (hhigh : lastPlace f.precision x - f.minExponent + 3 < 2 ^ f.exponentBits) :
    ∃ m q, (round f negative n d exponent).datum = .finite negative m q ∧
      RoundsTo f.precision x (m * 2 ^ q) := by
  have hlast : max f.minExponent (exponent + leadingExponent n d - ((f.precision : ℤ) - 1)) =
      lastPlace f.precision x := by
    have hplace : exponent + leadingExponent n d - ((f.precision : ℤ) - 1) =
        lastPlace f.precision x := by
      rw [lastPlace, hx, log_ratio hn hd]
      ring
    rw [hplace, max_eq_right hlow]
  obtain ⟨hunit, hscaled⟩ := scaleRatio_value n hd (exponent - lastPlace f.precision x)
  obtain ⟨rounds, hleast, hmost⟩ := roundsTo_divNearest hp (hx ▸ ratio_pos hn hd) hunit
    (by rw [hscaled, hx, mul_assoc, ← zpow_add₀ two_ne_zero, sub_add_cancel])
  obtain ⟨steps, hsteps⟩ :=
    Int.eq_ofNat_of_zero_le (show 0 ≤ lastPlace f.precision x - f.minExponent by omega)
  set units := divNearest (scaleRatio n d (exponent - lastPlace f.precision x)).1
    (scaleRatio n d (exponent - lastPlace f.precision x)).2 with hunits
  have hfinite : steps * 2 ^ (f.precision - 1) + units < f.infinityMagnitude := by
    have hroom : steps + 2 < 2 ^ f.exponentBits - 1 := by
      have hcast : ((steps + 3 : ℕ) : ℤ) < (2 ^ f.exponentBits : ℕ) := by
        push_cast
        omega
      omega
    calc steps * 2 ^ (f.precision - 1) + units
        ≤ (steps + 2) * 2 ^ (f.precision - 1) := by rw [Nat.add_mul]; omega
      _ < f.infinityMagnitude := Nat.mul_lt_mul_of_pos_right hroom (Nat.two_pow_pos _)
  have hround : round f negative n d exponent =
      ofMagnitude f negative (steps * 2 ^ (f.precision - 1) + units) := by
    unfold round
    rw [if_neg hn.ne']
    simp only [hlast, ← hunits, hsteps, Int.toNat_natCast, Nat.pow_eq]
    rw [min_eq_left hfinite.le]
  obtain ⟨m, q, hdatum, hvalue⟩ := datum_ofMagnitude (f := f) hp hmost (.inr hleast) hfinite
  refine ⟨m, q, hround ▸ hdatum, ?_⟩
  rw [hvalue, ← hsteps, add_sub_cancel]
  exact rounds

end Binary

end BytecodeFold
