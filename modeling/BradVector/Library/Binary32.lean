import BradVector.Library.Rounding
import Mathlib.Data.Int.Log
import Mathlib.Data.Rat.Floor
import Mathlib.Tactic.Positivity
import Mathlib.Tactic.NormNum

/-!
# Single precision

The arithmetic of `float` on the rational numbers it stands for: every operation rounds its exact
result to the nearest number with 24 digits, ties to even. Overflow, NaN and the sign of zero are
left out; they do not arise where the results stay below `2 ^ 128`.
-/

namespace CSem

/-- The spacing of the single-precision numbers around `x`. -/
def ulp32 (x : ℚ) : ℚ := 2 ^ max (Int.log 2 |x| - 23) (-149)

/-- The nearest single-precision number. -/
def f32 (x : ℚ) : ℚ := roundHalfEven (x / ulp32 x) * ulp32 x

def fadd (x y : ℚ) : ℚ := f32 (x + y)
def fsub (x y : ℚ) : ℚ := f32 (x - y)
def fmul (x y : ℚ) : ℚ := f32 (x * y)
def fdiv (x y : ℚ) : ℚ := f32 (x / y)

theorem ulp32_pos (x : ℚ) : 0 < ulp32 x := zpow_pos two_pos _

theorem f32_zero : f32 0 = 0 := by
  have hround : roundHalfEven (0 : ℚ) = 0 := roundHalfEven_eq (.inl (by norm_num))
  rw [f32, zero_div, hround, Int.cast_zero, zero_mul]

/-- The spacing is a `2 ^ -23` part of the number, or the least there is. -/
theorem ulp32_le {x : ℚ} (hx : x ≠ 0) : ulp32 x ≤ |x| / 2 ^ 23 + 2 ^ (-149 : ℤ) := by
  have hpos : 0 < |x| := abs_pos.mpr hx
  have hmin : (0 : ℚ) < 2 ^ (-149 : ℤ) := zpow_pos two_pos _
  unfold ulp32
  rcases le_total (Int.log 2 |x| - 23) (-149) with hsmall | hlarge
  · rw [max_eq_right hsmall]
    have hnonneg : 0 ≤ |x| / 2 ^ 23 := by positivity
    linarith
  · rw [max_eq_left hlarge, zpow_sub₀ two_ne_zero]
    have hlog : (2 : ℚ) ^ Int.log 2 |x| ≤ |x| := by
      exact_mod_cast Int.zpow_log_le_self (b := 2) one_lt_two hpos
    have hdiv : (2 : ℚ) ^ Int.log 2 |x| / 2 ^ 23 ≤ |x| / 2 ^ 23 := by gcongr
    exact hdiv.trans (by linarith)

/-- **The standard model.** Rounding is relatively accurate, but for what is lost below the least
spacing. -/
theorem abs_f32_sub_le (x : ℚ) : |f32 x - x| ≤ |x| / 2 ^ 24 + 2 ^ (-150 : ℤ) := by
  rcases eq_or_ne x 0 with rfl | hx
  · rw [f32_zero]
    norm_num
  have hpos := ulp32_pos x
  have hround := abs_sub_roundHalfEven_le (x / ulp32 x)
  have hdist : |f32 x - x| = |x / ulp32 x - roundHalfEven (x / ulp32 x)| * ulp32 x := by
    calc |f32 x - x| = |x - f32 x| := abs_sub_comm _ _
      _ = |(x / ulp32 x - roundHalfEven (x / ulp32 x)) * ulp32 x| := by
        rw [sub_mul, div_mul_cancel₀ x hpos.ne', f32]
      _ = |x / ulp32 x - roundHalfEven (x / ulp32 x)| * ulp32 x := by rw [abs_mul, abs_of_pos hpos]
  have hmin : (2 : ℚ) ^ (-150 : ℤ) = 1 / 2 * 2 ^ (-149 : ℤ) := by norm_num
  calc |f32 x - x| = |x / ulp32 x - roundHalfEven (x / ulp32 x)| * ulp32 x := hdist
    _ ≤ 1 / 2 * ulp32 x := by gcongr
    _ ≤ 1 / 2 * (|x| / 2 ^ 23 + 2 ^ (-149 : ℤ)) := by
      gcongr
      exact ulp32_le hx
    _ = |x| / 2 ^ 24 + 2 ^ (-150 : ℤ) := by
      rw [hmin]
      ring

/-- The absolute error below a bound. -/
theorem f32_near {x b : ℚ} (hx : |x| ≤ b) (hb : 2 ^ (-20 : ℤ) ≤ b) : |f32 x - x| ≤ b / 2 ^ 23 := by
  have hmin : (2 : ℚ) ^ (-150 : ℤ) ≤ 2 ^ (-20 : ℤ) / 2 ^ 24 := by norm_num
  have hstd := abs_f32_sub_le x
  have h₁ : |x| / 2 ^ 24 ≤ b / 2 ^ 24 := by gcongr
  have h₂ : (2 : ℚ) ^ (-20 : ℤ) / 2 ^ 24 ≤ b / 2 ^ 24 := by gcongr
  calc |f32 x - x| ≤ |x| / 2 ^ 24 + 2 ^ (-150 : ℤ) := hstd
    _ ≤ b / 2 ^ 24 + b / 2 ^ 24 := by linarith
    _ = b / 2 ^ 23 := by ring

theorem f32_nonneg {x : ℚ} (hx : 0 ≤ x) : 0 ≤ f32 x := by
  have hround : (0 : ℤ) ≤ roundHalfEven (x / ulp32 x) :=
    le_roundHalfEven (by
      rw [Int.cast_zero]
      exact div_nonneg hx (ulp32_pos x).le)
  exact mul_nonneg (by exact_mod_cast hround) (ulp32_pos x).le

/-- A multiple of its spacing is a single-precision number. -/
theorem f32_of_multiple {x : ℚ} {m : ℤ} (h : x = m * ulp32 x) : f32 x = x := by
  have hdiv : x / ulp32 x = m := (div_eq_iff (ulp32_pos x).ne').mpr h
  have hround : roundHalfEven (m : ℚ) = m := roundHalfEven_eq (.inl (by simp))
  rw [f32, hdiv, hround, ← h]

/-- Integers of up to 24 digits are single-precision numbers. -/
theorem f32_intCast {n : ℤ} (h : |n| < 2 ^ 24) : f32 (n : ℚ) = n := by
  rcases eq_or_ne n 0 with rfl | hne
  · exact_mod_cast f32_zero
  have hpos : (0 : ℚ) < |(n : ℚ)| := by positivity
  have hlt : |(n : ℚ)| < ((2 : ℕ) : ℚ) ^ (24 : ℤ) := by exact_mod_cast h
  have hlog : Int.log 2 |(n : ℚ)| < 24 := (Int.lt_zpow_iff_log_lt one_lt_two hpos).mp hlt
  obtain ⟨k, hk⟩ : ∃ k : ℕ, max (Int.log 2 |(n : ℚ)| - 23) (-149) = -k :=
    ⟨(-max (Int.log 2 |(n : ℚ)| - 23) (-149)).toNat, by omega⟩
  apply f32_of_multiple (m := n * 2 ^ k)
  rw [ulp32, hk, zpow_neg, zpow_natCast]
  push_cast
  rw [mul_assoc, mul_inv_cancel₀ (by positivity), mul_one]

theorem f32_natCast {n : ℕ} (h : n < 2 ^ 24) : f32 (n : ℚ) = n := by
  have hn : |(n : ℤ)| < 2 ^ 24 := by
    rw [abs_of_nonneg (Int.natCast_nonneg n)]
    exact_mod_cast h
  exact_mod_cast f32_intCast hn

/-! ### Grids -/

section Grid

variable {x : ℚ} {e m : ℤ}

/-- Below `2 ^ (e + 24)` the numbers are at least as dense as the multiples of `2 ^ e`. -/
theorem exists_ulp32_mul (hx : |x| < 2 ^ (e + 24)) (he : -23 ≤ e) : ∃ k : ℕ,
    (2 : ℚ) ^ e = 2 ^ k * ulp32 x := by
  have hlog : max (Int.log 2 |x| - 23) (-149) ≤ e := by
    refine max_le ?_ (by omega)
    rcases eq_or_ne x 0 with rfl | hne
    · rw [abs_zero, Int.log_of_right_le_zero _ le_rfl]
      exact he
    have hlt : Int.log 2 |x| < e + 24 :=
      (Int.lt_zpow_iff_log_lt one_lt_two (abs_pos.mpr hne)).mp (by exact_mod_cast hx)
    omega
  obtain ⟨k, hk⟩ : ∃ k : ℕ, e = k + max (Int.log 2 |x| - 23) (-149) :=
    ⟨(e - max (Int.log 2 |x| - 23) (-149)).toNat, by omega⟩
  refine ⟨k, ?_⟩
  rw [ulp32, ← zpow_natCast, ← zpow_add₀ two_ne_zero, ← hk]

/-- Rounding does not pass a multiple. -/
theorem f32_le_of_grid (hx : |x| < 2 ^ (e + 24)) (he : -23 ≤ e) (h : x ≤ m * 2 ^ e) :
    f32 x ≤ m * 2 ^ e := by
  obtain ⟨k, hk⟩ := exists_ulp32_mul hx he
  have hpos := ulp32_pos x
  have hround : roundHalfEven (x / ulp32 x) ≤ m * 2 ^ k := by
    apply roundHalfEven_le
    rw [div_le_iff₀ hpos]
    push_cast
    rw [mul_assoc, ← hk]
    exact h
  calc f32 x = roundHalfEven (x / ulp32 x) * ulp32 x := rfl
    _ ≤ (m * 2 ^ k : ℤ) * ulp32 x := by gcongr
    _ = m * 2 ^ e := by
      push_cast
      rw [mul_assoc, ← hk]

theorem le_f32_of_grid (hx : |x| < 2 ^ (e + 24)) (he : -23 ≤ e) (h : m * 2 ^ e ≤ x) :
    m * 2 ^ e ≤ f32 x := by
  obtain ⟨k, hk⟩ := exists_ulp32_mul hx he
  have hpos := ulp32_pos x
  have hround : m * 2 ^ k ≤ roundHalfEven (x / ulp32 x) := by
    apply le_roundHalfEven
    rw [le_div_iff₀ hpos]
    push_cast
    rw [mul_assoc, ← hk]
    exact h
  calc m * 2 ^ e = (m * 2 ^ k : ℤ) * ulp32 x := by
        push_cast
        rw [mul_assoc, ← hk]
    _ ≤ roundHalfEven (x / ulp32 x) * ulp32 x := by gcongr

/-- Rounding does not leave the unit interval. -/
theorem f32_le_one (h₀ : 0 ≤ x) (h₁ : x ≤ 1) : f32 x ≤ 1 := by
  have hsmall : |x| < 2 ^ ((-23 : ℤ) + 24) := by
    rw [abs_of_nonneg h₀]
    norm_num
    linarith
  have hgrid := f32_le_of_grid (m := 2 ^ 23) hsmall le_rfl (by
    norm_num
    exact h₁)
  norm_num at hgrid
  exact hgrid

end Grid

/-! ### Errors of operations -/

section Errors

variable {x y a b ε δ c : ℚ}

theorem f32_near_of (hx : |x - a| ≤ ε) (ha : |a| + ε ≤ c) (hc : 2 ^ (-20 : ℤ) ≤ c) :
    |f32 x - a| ≤ ε + c / 2 ^ 23 := by
  have hsize : |x| ≤ c := by
    calc |x| = |(x - a) + a| := by rw [sub_add_cancel]
      _ ≤ |x - a| + |a| := abs_add_le _ _
      _ ≤ c := by linarith
  calc |f32 x - a| ≤ |f32 x - x| + |x - a| := abs_sub_le _ _ _
    _ ≤ c / 2 ^ 23 + ε := add_le_add (f32_near hsize hc) hx
    _ = ε + c / 2 ^ 23 := add_comm _ _

theorem fadd_near (hx : |x - a| ≤ ε) (hy : |y - b| ≤ δ) (hab : |a + b| + (ε + δ) ≤ c)
    (hc : 2 ^ (-20 : ℤ) ≤ c) : |fadd x y - (a + b)| ≤ ε + δ + c / 2 ^ 23 := by
  refine f32_near_of ?_ hab hc
  calc |x + y - (a + b)| = |(x - a) + (y - b)| := by ring_nf
    _ ≤ |x - a| + |y - b| := abs_add_le _ _
    _ ≤ ε + δ := add_le_add hx hy

theorem fsub_near (hx : |x - a| ≤ ε) (hy : |y - b| ≤ δ) (hab : |a - b| + (ε + δ) ≤ c)
    (hc : 2 ^ (-20 : ℤ) ≤ c) : |fsub x y - (a - b)| ≤ ε + δ + c / 2 ^ 23 := by
  refine f32_near_of ?_ hab hc
  calc |x - y - (a - b)| = |(x - a) - (y - b)| := by ring_nf
    _ ≤ |x - a| + |y - b| := abs_sub _ _
    _ ≤ ε + δ := add_le_add hx hy

theorem fmul_near {A B : ℚ} (hx : |x - a| ≤ ε) (hy : |y - b| ≤ δ) (ha : |a| ≤ A) (hb : |b| ≤ B)
    (hc : A * B + ((A + ε) * δ + B * ε) ≤ c) (hc₀ : 2 ^ (-20 : ℤ) ≤ c) :
    |fmul x y - a * b| ≤ (A + ε) * δ + B * ε + c / 2 ^ 23 := by
  have hε : 0 ≤ ε := (abs_nonneg _).trans hx
  have hδ : 0 ≤ δ := (abs_nonneg _).trans hy
  have hA : 0 ≤ A := (abs_nonneg _).trans ha
  have hB : 0 ≤ B := (abs_nonneg _).trans hb
  have hxA : |x| ≤ A + ε := by
    calc |x| = |a + (x - a)| := by rw [add_sub_cancel]
      _ ≤ |a| + |x - a| := abs_add_le _ _
      _ ≤ A + ε := add_le_add ha hx
  refine f32_near_of ?_ ?_ hc₀
  · calc |x * y - a * b| = |x * (y - b) + b * (x - a)| := by ring_nf
      _ ≤ |x * (y - b)| + |b * (x - a)| := abs_add_le _ _
      _ = |x| * |y - b| + |b| * |x - a| := by rw [abs_mul, abs_mul]
      _ ≤ (A + ε) * δ + B * ε := by gcongr
  · calc |a * b| + ((A + ε) * δ + B * ε) = |a| * |b| + ((A + ε) * δ + B * ε) := by rw [abs_mul]
      _ ≤ A * B + ((A + ε) * δ + B * ε) := by gcongr
      _ ≤ c := hc

end Errors

example : f32 (1 / 10) = 13421773 / 2 ^ 27 := by decide +kernel

end CSem
