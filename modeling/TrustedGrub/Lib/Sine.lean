import Mathlib.Analysis.Complex.Trigonometric

/-!
# Sines of the natural numbers

Sines and cosines of `0, 1, 2, ..` radians in fixed point with 120 bits, and how far they are from the real ones. One radian more
at most doubles the distance, so that the first few dozen determine the leading bits of a sine.
-/

namespace Sine
open Complex (I)

/-! ## The series at one radian -/

/-- The first `k` terms of the series of the sine of 1, and of its cosine. -/
def series : ℕ → ℚ × ℚ
  | 0 => (0, 0)
  | k + 1 => ((series k).1 + (-1) ^ k / (2 * k + 1).factorial, (series k).2 + (-1) ^ k / (2 * k).factorial)

/-- The even and the odd terms of the exponential series at `I`. -/
theorem exp_terms (k : ℕ) :
    ∑ m ∈ Finset.range (2 * k), I ^ m / m.factorial = ((series k).2 : ℂ) + ((series k).1 : ℂ) * I := by
  induction k with
  | zero => simp [series]
  | succ k ih =>
    have heven : I ^ (2 * k) = (-1 : ℂ) ^ k := by rw [pow_mul, Complex.I_sq]
    have hodd : I ^ (2 * k + 1) = (-1 : ℂ) ^ k * I := by rw [pow_succ, heven]
    rw [show 2 * (k + 1) = 2 * k + 1 + 1 by ring, Finset.sum_range_succ, Finset.sum_range_succ, ih, heven, hodd, series]
    push_cast
    ring

/-- What the series leaves. -/
def remainder (k : ℕ) : ℚ := (2 * k + 1 : ℚ) * ((2 * k).factorial * (2 * k : ℚ))⁻¹

theorem series_near {k : ℕ} (hk : 0 < k) :
    |Real.sin 1 - (series k).1| ≤ remainder k ∧ |Real.cos 1 - (series k).2| ≤ remainder k := by
  have hbound := Complex.exp_bound (x := I) (n := 2 * k) (le_of_eq Complex.norm_I) (by omega)
  have hexp : Complex.exp I = Complex.cos 1 + Complex.sin 1 * I := by
    have h := Complex.exp_mul_I 1
    rwa [one_mul] at h
  have hremainder : (1 : ℝ) ^ (2 * k) * (((2 * k).succ : ℝ) * ((2 * k).factorial * (2 * k : ℕ) : ℝ)⁻¹) = remainder k := by
    rw [one_pow, one_mul, remainder]
    push_cast
    ring
  rw [exp_terms, hexp, Complex.norm_I, hremainder] at hbound
  have hre : (Complex.cos 1 + Complex.sin 1 * I - (((series k).2 : ℂ) + ((series k).1 : ℂ) * I)).re = Real.cos 1 - (series k).2 := by
    simp [← Complex.ofReal_one, ← Complex.ofReal_cos, ← Complex.ofReal_sin, ← Complex.ofReal_ratCast]
  have him : (Complex.cos 1 + Complex.sin 1 * I - (((series k).2 : ℂ) + ((series k).1 : ℂ) * I)).im = Real.sin 1 - (series k).1 := by
    simp [← Complex.ofReal_one, ← Complex.ofReal_cos, ← Complex.ofReal_sin, ← Complex.ofReal_ratCast]
  constructor
  · rw [← him]
    exact (Complex.abs_im_le_norm _).trans hbound
  · rw [← hre]
    exact (Complex.abs_re_le_norm _).trans hbound

/-! ## Fixed point -/

/-- The number that an integer stands for. -/
noncomputable def value (n : ℤ) : ℝ := n / 2 ^ 120

/-- The sine and the cosine of 1. -/
def sinOne : ℤ := 1118506790647359666268926078808821564
def cosOne : ℤ := 718184951147075946983144219864494525

/-- The sine and the cosine of `n`. -/
def fixed : ℕ → ℤ × ℤ
  | 0 => (0, 2 ^ 120)
  | n + 1 =>
    (((fixed n).1 * cosOne + (fixed n).2 * sinOne) / 2 ^ 120, ((fixed n).2 * cosOne - (fixed n).1 * sinOne) / 2 ^ 120)

/-- How far the two are off at most, in units of the last bit. -/
def error : ℕ → ℕ
  | 0 => 0
  | n + 1 => 2 * error n + 5

theorem error_le (n : ℕ) : error n + 5 ≤ 5 * 2 ^ n := by
  induction n with
  | zero => exact Nat.le_refl 5
  | succ n ih =>
    rw [error, pow_succ]
    omega

theorem value_sub_le {q : ℚ} {x : ℝ} {n : ℤ} {e : ℚ} (hx : |x - q| ≤ e) (hn : |q - n / 2 ^ 120| + e ≤ 1 / 2 ^ 120) :
    |x - value n| ≤ 1 / 2 ^ 120 := by
  have hq : |(q : ℝ) - value n| + e ≤ 1 / 2 ^ 120 := by
    have hcast : ((|q - n / 2 ^ 120| + e : ℚ) : ℝ) ≤ ((1 / 2 ^ 120 : ℚ) : ℝ) := Rat.cast_le.2 hn
    rw [value]
    push_cast at hcast
    exact hcast
  have hsum := abs_sub_le x q (value n)
  linarith

theorem one_near : |Real.sin 1 - value sinOne| ≤ 1 / 2 ^ 120 ∧ |Real.cos 1 - value cosOne| ≤ 1 / 2 ^ 120 := by
  obtain ⟨hsin, hcos⟩ := series_near (k := 20) (by decide)
  constructor
  · apply value_sub_le hsin
    decide +kernel
  · apply value_sub_le hcos
    decide +kernel

/-- Rounding down loses less than the last bit. -/
theorem value_ediv (m : ℤ) : |value m / 2 ^ 120 - value (m / 2 ^ 120)| ≤ 1 / 2 ^ 120 := by
  have hdiv := Int.emod_add_mul_ediv m (2 ^ 120)
  have hlt := Int.emod_lt_of_pos m (show (0 : ℤ) < 2 ^ 120 by decide)
  have hnonneg := Int.emod_nonneg m (show (2 ^ 120 : ℤ) ≠ 0 by decide)
  have hreal : (m : ℝ) = (m % 2 ^ 120 : ℤ) + 2 ^ 120 * (m / 2 ^ 120 : ℤ) := by exact_mod_cast hdiv.symm
  have hlt' : ((m % 2 ^ 120 : ℤ) : ℝ) ≤ 2 ^ 120 := by exact_mod_cast hlt.le
  have hrest : value m / 2 ^ 120 - value (m / 2 ^ 120) = ((m % 2 ^ 120 : ℤ) : ℝ) / 2 ^ 120 / 2 ^ 120 := by
    rw [value, value, hreal]
    field_simp
    ring
  rw [hrest, abs_of_nonneg (by positivity)]
  apply div_le_div_of_nonneg_right _ (by positivity)
  exact (div_le_one (by positivity)).2 hlt'

theorem value_mul (a b : ℤ) : value (a * b) = value a * value b * 2 ^ 120 := by
  rw [value, value, value, Int.cast_mul]
  ring

theorem value_add (a b : ℤ) : value (a + b) = value a + value b := by rw [value, value, value, Int.cast_add, add_div]

theorem value_sub (a b : ℤ) : value (a - b) = value a - value b := by rw [value, value, value, Int.cast_sub, sub_div]

/-- A product of numbers that are close to others. -/
theorem mul_near {a a' b b' e u : ℝ} (ha : |a - a'| ≤ e) (hb : |b - b'| ≤ u) (hb₁ : |b| ≤ 1) (ha' : |a'| ≤ 2) :
    |a * b - a' * b'| ≤ e + 2 * u := by
  have hsplit : a * b - a' * b' = (a - a') * b + a' * (b - b') := by ring
  rw [hsplit]
  calc |(a - a') * b + a' * (b - b')|
      ≤ |a - a'| * |b| + |a'| * |b - b'| := by
        rw [← abs_mul, ← abs_mul]
        exact abs_add_le _ _
    _ ≤ e * 1 + 2 * u := by gcongr; exact (abs_nonneg _).trans ha
    _ = e + 2 * u := by ring

/-- The fixed-point numbers are as close as `error` says. -/
structure Near (n : ℕ) : Prop where
  sin : |Real.sin n - value (fixed n).1| ≤ error n / 2 ^ 120
  cos : |Real.cos n - value (fixed n).2| ≤ error n / 2 ^ 120

theorem abs_value_le {x : ℝ} {m : ℤ} {n : ℕ} (hx : |x| ≤ 1) (hm : |x - value m| ≤ error n / 2 ^ 120) (hn : n ≤ 64) :
    |value m| ≤ 2 := by
  have herror : (error n : ℝ) ≤ 2 ^ 120 := by
    have hpow : 5 * 2 ^ n ≤ 5 * 2 ^ 64 := Nat.mul_le_mul_left 5 (Nat.pow_le_pow_right (by decide) hn)
    have hle := error_le n
    exact_mod_cast (show error n ≤ 2 ^ 120 by omega)
  have hsum := abs_sub_abs_le_abs_sub (value m) x
  rw [abs_sub_comm] at hsum
  linarith

theorem Near.zero : Near 0 := by
  constructor
  · rw [fixed, value, Nat.cast_zero, Real.sin_zero, Int.cast_zero, zero_div, sub_self, abs_zero]
    positivity
  · rw [fixed, value, Nat.cast_zero, Real.cos_zero, Int.cast_pow, Int.cast_ofNat, div_self (by positivity), sub_self, abs_zero]
    positivity

/-- **The step**: one radian more. -/
theorem Near.succ {n : ℕ} (h : Near n) (hn : n ≤ 64) : Near (n + 1) := by
  obtain ⟨hsinOne, hcosOne⟩ := one_near
  have hsin := abs_value_le (Real.abs_sin_le_one _) h.sin hn
  have hcos := abs_value_le (Real.abs_cos_le_one _) h.cos hn
  have hss := mul_near h.sin hcosOne (Real.abs_cos_le_one _) hsin
  have hcs := mul_near h.cos hsinOne (Real.abs_sin_le_one _) hcos
  have hcc := mul_near h.cos hcosOne (Real.abs_cos_le_one _) hcos
  have hsc := mul_near h.sin hsinOne (Real.abs_sin_le_one _) hsin
  have hfloor := value_ediv ((fixed n).1 * cosOne + (fixed n).2 * sinOne)
  have hfloor' := value_ediv ((fixed n).2 * cosOne - (fixed n).1 * sinOne)
  rw [value_add, value_mul, value_mul] at hfloor
  rw [value_sub, value_mul, value_mul] at hfloor'
  have herror : (error (n + 1) : ℝ) / 2 ^ 120 = 2 * (error n / 2 ^ 120) + 5 * (1 / 2 ^ 120) := by
    rw [error]
    push_cast
    ring
  rw [abs_le] at hss hcs hcc hsc hfloor hfloor'
  constructor
  · rw [Nat.cast_succ, Real.sin_add, fixed, herror, abs_le]
    constructor <;> linarith
  · rw [Nat.cast_succ, Real.cos_add, fixed, herror, abs_le]
    constructor <;> linarith

theorem near (n : ℕ) (hn : n ≤ 65) : Near n := by
  induction n with
  | zero => exact .zero
  | succ n ih => exact (ih (by omega)).succ (by omega)

/-- The leading 32 bits, where the distance leaves no doubt about them. -/
theorem floor_sin {n t : ℕ} (hn : n ≤ 65) (hlow : t * 2 ^ 88 + error n ≤ (fixed n).1.natAbs)
    (hhigh : (fixed n).1.natAbs + error n < (t + 1) * 2 ^ 88) : ⌊2 ^ 32 * |Real.sin n|⌋₊ = t := by
  have hnear := (near n hn).sin
  have habs : |value (fixed n).1| = (fixed n).1.natAbs / 2 ^ 120 := by
    rw [value, abs_div, abs_of_pos (show (0 : ℝ) < 2 ^ 120 by positivity), Nat.cast_natAbs, Int.cast_abs]
  have hle := (abs_sub_abs_le_abs_sub _ _).trans hnear
  have hge := (abs_sub_abs_le_abs_sub _ _).trans ((abs_sub_comm _ _).le.trans hnear)
  rw [habs] at hle hge
  have hlow' : (t : ℝ) * 2 ^ 88 + error n ≤ (fixed n).1.natAbs := by exact_mod_cast hlow
  have hhigh' : ((fixed n).1.natAbs : ℝ) + error n < (t + 1) * 2 ^ 88 := by exact_mod_cast hhigh
  rw [Nat.floor_eq_iff (by positivity)]
  constructor
  · have hscale : (t : ℝ) / 2 ^ 32 ≤ |Real.sin n| := by
      calc (t : ℝ) / 2 ^ 32 = ((t : ℝ) * 2 ^ 88 + error n) / 2 ^ 120 - (error n : ℝ) / 2 ^ 120 := by ring
        _ ≤ ((fixed n).1.natAbs : ℝ) / 2 ^ 120 - (error n : ℝ) / 2 ^ 120 := by gcongr
        _ ≤ |Real.sin n| := by linarith
    exact (div_le_iff₀' (by positivity)).1 hscale
  · have hscale : |Real.sin n| < ((t : ℝ) + 1) / 2 ^ 32 := by
      calc |Real.sin n| ≤ (((fixed n).1.natAbs : ℝ) + error n) / 2 ^ 120 := by
            rw [add_div]
            linarith
        _ < ((t : ℝ) + 1) * 2 ^ 88 / 2 ^ 120 := by gcongr
        _ = ((t : ℝ) + 1) / 2 ^ 32 := by ring
    exact (lt_div_iff₀' (by positivity)).1 hscale

end Sine
