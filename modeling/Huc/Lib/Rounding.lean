import Mathlib.Data.Int.Log
import Mathlib.Data.Rat.Floor
import Mathlib.Order.Interval.Finset.Basic
import Mathlib.Tactic

set_option relaxedAutoImplicit false
set_option autoImplicit false

/-!
# Quotients of integers, rounded

The integers of an interval divided by a positive one give an interval, whose length is the length
divided and rounded up, or one less. A binary floating-point number has some number `p` of
significant digits, and an operation gives the number nearest to the exact result, the even one of
two. Integers below `2 ^ p` are such numbers; and though a quotient of two of them need not be, the
rounded quotient lies between the same two integers.

Exponents are unbounded here, so that nothing over- or underflows.

## Main definitions

* `Rounding.nearestEven` — the nearest integer.
* `Rounding.roundTo` — the nearest number with `p` significant binary digits.

## Main results

* `Rounding.abs_roundTo_sub_le` — the relative error.
* `Rounding.roundTo_intCast` — integers of `p` digits are exact.
* `Rounding.ceil_roundTo_div` — the quotient of such integers, rounded up, is exact.
* `Rounding.image_ediv_Ico` — the quotients of an interval.
* `Rounding.ceil_div_mem` — their number.
-/

namespace Rounding

/-! ## Rounding -/

/-- The integer nearest to `x`; of two, the even one. -/
def nearestEven (x : ℚ) : ℤ :=
  if x - ⌊x⌋ < 1 / 2 ∨ x - ⌊x⌋ = 1 / 2 ∧ Even ⌊x⌋ then ⌊x⌋ else ⌊x⌋ + 1

/-- The number with `p` significant binary digits nearest to `x`; of two, the one with an even last
digit. -/
def roundTo (p : ℕ) (x : ℚ) : ℚ :=
  nearestEven (x / 2 ^ (Int.log 2 |x| + 1 - p)) * 2 ^ (Int.log 2 |x| + 1 - p)

/-- An integer is its own nearest one. -/
@[simp] lemma nearestEven_intCast (z : ℤ) : nearestEven z = z := by
  rw [nearestEven, Int.floor_intCast, sub_self, if_pos (Or.inl (by norm_num))]

/-- Zero is exact. -/
@[simp] lemma roundTo_zero (p : ℕ) : roundTo p 0 = 0 := by
  have hzero : nearestEven 0 = 0 := nearestEven_intCast 0
  simp [roundTo, hzero]

/-- The nearest integer is at most one half away. -/
lemma abs_nearestEven_sub_le (x : ℚ) : |(nearestEven x : ℚ) - x| ≤ 1 / 2 := by
  have hle := Int.floor_le x
  have hlt := Int.lt_floor_add_one x
  rw [nearestEven, abs_le]
  split_ifs with h
  · have hhalf : x - ⌊x⌋ ≤ 1 / 2 := by
      rcases h with h | h
      · exact h.le
      · exact h.1.le
    constructor <;> linarith
  · have hhalf : 1 / 2 ≤ x - ⌊x⌋ := not_lt.mp (not_or.mp h).1
    push_cast
    constructor <;> linarith

/-- **The relative error** is at most `2⁻ᵖ`. -/
theorem abs_roundTo_sub_le (p : ℕ) (x : ℚ) : |roundTo p x - x| ≤ |x| / 2 ^ p := by
  by_cases hx : x = 0
  · subst hx
    simp
  have hpos : (0 : ℚ) < 2 ^ (Int.log 2 |x| + 1 - p) := by positivity
  have hlog : (2 : ℚ) ^ Int.log 2 |x| ≤ |x| := Int.zpow_log_le_self one_lt_two (abs_pos.mpr hx)
  have hulp : (2 : ℚ) ^ (Int.log 2 |x| + 1 - p) = 2 * 2 ^ Int.log 2 |x| / 2 ^ p := by
    rw [zpow_sub₀ two_ne_zero, zpow_add_one₀ two_ne_zero, zpow_natCast, mul_comm (2 : ℚ)]
  have hround := abs_nearestEven_sub_le (x / 2 ^ (Int.log 2 |x| + 1 - p))
  calc |roundTo p x - x|
      = |(nearestEven (x / 2 ^ (Int.log 2 |x| + 1 - p)) : ℚ) -
          x / 2 ^ (Int.log 2 |x| + 1 - p)| * 2 ^ (Int.log 2 |x| + 1 - p) := by
        rw [← abs_of_pos hpos, ← abs_mul, abs_of_pos hpos, sub_mul, div_mul_cancel₀ _ hpos.ne',
          roundTo]
    _ ≤ 1 / 2 * 2 ^ (Int.log 2 |x| + 1 - p) := mul_le_mul_of_nonneg_right hround hpos.le
    _ = 2 ^ Int.log 2 |x| / 2 ^ p := by
        rw [hulp]
        ring
    _ ≤ |x| / 2 ^ p := by gcongr

/-- **A rounded difference of rounded numbers** is off by three roundings at most.

**Proof sketch.** The two numbers are off by a rounding each, so that their difference is of twice
their size at most; rounding it adds an error relative to that size. -/
lemma abs_roundTo_sub_roundTo_le (p : ℕ) (x y : ℚ) :
    |roundTo p (roundTo p x - roundTo p y) - (x - y)| ≤ 3 * (|x| + |y|) / 2 ^ p := by
  have hpow : (1 : ℚ) ≤ 2 ^ p := one_le_pow₀ (by norm_num)
  have hpos : (0 : ℚ) < 2 ^ p := by positivity
  have hdiff : |roundTo p x - roundTo p y - (x - y)| ≤ (|x| + |y|) / 2 ^ p := by
    calc |roundTo p x - roundTo p y - (x - y)|
        = |roundTo p x - x - (roundTo p y - y)| := by congr 1; ring
      _ ≤ |roundTo p x - x| + |roundTo p y - y| := abs_sub _ _
      _ ≤ |x| / 2 ^ p + |y| / 2 ^ p := add_le_add (abs_roundTo_sub_le p x) (abs_roundTo_sub_le p y)
      _ = (|x| + |y|) / 2 ^ p := (add_div _ _ _).symm
  have hsize : |roundTo p x - roundTo p y| ≤ 2 * (|x| + |y|) := by
    have hone : (|x| + |y|) / 2 ^ p ≤ |x| + |y| := div_le_self (by positivity) hpow
    calc |roundTo p x - roundTo p y|
        = |x - y + (roundTo p x - roundTo p y - (x - y))| := by congr 1; ring
      _ ≤ |x - y| + |roundTo p x - roundTo p y - (x - y)| := abs_add_le _ _
      _ ≤ (|x| + |y|) + (|x| + |y|) := add_le_add (abs_sub _ _) (hdiff.trans hone)
      _ = 2 * (|x| + |y|) := by ring
  calc |roundTo p (roundTo p x - roundTo p y) - (x - y)|
      = |roundTo p (roundTo p x - roundTo p y) - (roundTo p x - roundTo p y) +
          (roundTo p x - roundTo p y - (x - y))| := by congr 1; ring
    _ ≤ |roundTo p x - roundTo p y| / 2 ^ p + (|x| + |y|) / 2 ^ p :=
        (abs_add_le _ _).trans (add_le_add (abs_roundTo_sub_le p _) hdiff)
    _ ≤ 2 * (|x| + |y|) / 2 ^ p + (|x| + |y|) / 2 ^ p :=
        add_le_add_left (div_le_div_of_nonneg_right hsize hpos.le) _
    _ = 3 * (|x| + |y|) / 2 ^ p := by ring

/-- **Integers of `p` digits** are exact. -/
theorem roundTo_intCast {p : ℕ} {z : ℤ} (h : |z| < 2 ^ p) : roundTo p z = z := by
  by_cases hz : z = 0
  · subst hz
    simp
  have hpos : (0 : ℚ) < |(z : ℚ)| := abs_pos.mpr (Int.cast_ne_zero.mpr hz)
  have hlog : Int.log 2 |(z : ℚ)| < p := by
    refine (Int.lt_zpow_iff_log_lt one_lt_two hpos).mp ?_
    rw [zpow_natCast]
    exact_mod_cast h
  obtain ⟨d, hd⟩ := Int.eq_ofNat_of_zero_le (show 0 ≤ p - (Int.log 2 |(z : ℚ)| + 1) by omega)
  have hscale : (2 : ℚ) ^ (Int.log 2 |(z : ℚ)| + 1 - p) = (2 ^ d)⁻¹ := by
    rw [← neg_sub, hd, zpow_neg, zpow_natCast]
  have hint : (z : ℚ) / (2 ^ d)⁻¹ = ((z * 2 ^ d : ℤ) : ℚ) := by
    rw [div_inv_eq_mul]
    push_cast
    rfl
  rw [roundTo, hscale, hint, nearestEven_intCast]
  push_cast
  exact mul_inv_cancel_right₀ (by positivity) _

/-- A quotient is its integer part and the remainder over the divisor. -/
lemma div_eq_ediv_add (m : ℤ) {K : ℤ} (hK : 0 < K) :
    (m : ℚ) / K = (m / K : ℤ) + (m % K : ℤ) / K := by
  have hKQ : (K : ℚ) ≠ 0 := Int.cast_ne_zero.mpr hK.ne'
  have hm : (m : ℚ) = (m % K + K * (m / K) : ℤ) := by rw [Int.emod_add_mul_ediv]
  rw [div_eq_iff hKQ, add_mul, div_mul_cancel₀ _ hKQ, hm]
  push_cast
  ring

/-- **The quotient of two integers, rounded up**, is the same whether or not the quotient itself has
been rounded first.

**Proof sketch.** A quotient that is no integer is at least `1 / K` away from the next ones, and the
error of a quotient of `m < 2 ^ p` is less than that. -/
theorem ceil_roundTo_div {p : ℕ} {m K : ℤ} (hm : 0 ≤ m) (hlt : m < 2 ^ p) (hK : 0 < K) :
    ⌈roundTo p (m / K)⌉ = ⌈(m : ℚ) / K⌉ := by
  have hKQ : (0 : ℚ) < K := Int.cast_pos.mpr hK
  have hquot := div_eq_ediv_add m hK
  by_cases hmod : m % K = 0
  · have hfloor := Int.ediv_nonneg hm hK.le
    have hle : m / K ≤ m := Int.ediv_le_self K hm
    rw [hmod, Int.cast_zero, zero_div, add_zero] at hquot
    rw [hquot, roundTo_intCast (by rw [abs_of_nonneg hfloor]; omega)]
  · have hrem := Int.emod_lt_of_pos m hK
    have hrem' := Int.emod_nonneg m hK.ne'
    -- the distances to the integers below and above
    have hbelow : 1 / (K : ℚ) ≤ (m % K : ℤ) / K := by
      gcongr
      exact_mod_cast (show 1 ≤ m % K by omega)
    have habove : ((m % K : ℤ) : ℚ) / K + 1 / K ≤ 1 := by
      rw [← add_div, div_le_one hKQ]
      exact_mod_cast (show m % K + 1 ≤ K by omega)
    have herror : |roundTo p (m / K) - m / K| < 1 / K := by
      refine (abs_roundTo_sub_le p _).trans_lt ?_
      rw [abs_of_nonneg (div_nonneg (Int.cast_nonneg hm) hKQ.le), div_right_comm]
      gcongr
      rw [div_lt_one (by positivity)]
      exact_mod_cast hlt
    obtain ⟨hlow, hhigh⟩ := abs_lt.mp herror
    have hpos : 0 < 1 / (K : ℚ) := by positivity
    have hexact : ⌈(m : ℚ) / K⌉ = m / K + 1 := by
      rw [Int.ceil_eq_iff]
      push_cast
      constructor <;> linarith
    rw [hexact, Int.ceil_eq_iff]
    push_cast
    constructor <;> linarith

/-! ## The quotients of an interval -/

/-- The first number from `a` on with the quotient `q`. -/
lemma max_mul_ediv {a q K : ℤ} (hK : 0 < K) (h : a < (q + 1) * K) : max a (q * K) / K = q := by
  have hnext : q * K < (q + 1) * K := mul_lt_mul_of_pos_right (lt_add_one q) hK
  apply le_antisymm
  · exact Int.lt_add_one_iff.mp ((Int.ediv_lt_iff_lt_mul hK).mpr (max_lt h hnext))
  · exact (Int.le_ediv_iff_mul_le hK).mpr (le_max_right a (q * K))

/-- **The quotients of an interval** are an interval. -/
theorem image_ediv_Ico {a n K : ℤ} (hn : 0 < n) (hK : 0 < K) :
    (Finset.Ico a (a + n)).image (· / K) = Finset.Icc (a / K) ((a + n - 1) / K) := by
  ext q
  rw [Finset.mem_image, Finset.mem_Icc]
  constructor
  · rintro ⟨s, hs, rfl⟩
    rw [Finset.mem_Ico] at hs
    exact ⟨Int.ediv_le_ediv hK hs.1, Int.ediv_le_ediv hK (by omega)⟩
  · rintro ⟨hle, hge⟩
    refine ⟨max a (q * K), ?_, ?_⟩
    · rw [Finset.mem_Ico]
      have hlast := (Int.le_ediv_iff_mul_le hK).mp hge
      omega
    · exact max_mul_ediv hK ((Int.ediv_lt_iff_lt_mul hK).mp (Int.lt_add_one_iff.mpr hle))

/-- **The number of quotients** of an interval of length `m + 1` is `m / K` rounded up, or one more:
the interval may begin just before a multiple of `K`. -/
theorem ceil_div_mem (a m : ℤ) {K : ℤ} (hK : 0 < K) :
    (a + m) / K - a / K ≤ ⌈(m : ℚ) / K⌉ ∧ ⌈(m : ℚ) / K⌉ ≤ (a + m) / K - a / K + 1 := by
  have hKQ : (0 : ℚ) < K := Int.cast_pos.mpr hK
  obtain ⟨hlow, hhigh⟩ := Int.ceil_eq_iff.mp (show ⌈(m : ℚ) / K⌉ = ⌈(m : ℚ) / K⌉ from rfl)
  rw [lt_div_iff₀ hKQ] at hlow
  rw [div_le_iff₀ hKQ] at hhigh
  generalize ⌈(m : ℚ) / K⌉ = c at hlow hhigh ⊢
  norm_cast at hlow hhigh
  have hle := Int.ediv_mul_le a hK.ne'
  have hlt := Int.lt_ediv_add_one_mul_self a hK
  constructor
  · have hbound : (a + m) / K < c + (a / K + 1) := by
      rw [Int.ediv_lt_iff_lt_mul hK, add_mul]
      omega
    omega
  · have hbound : c - 1 + a / K ≤ (a + m) / K := by
      rw [Int.le_ediv_iff_mul_le hK, add_mul]
      omega
    omega

end Rounding
