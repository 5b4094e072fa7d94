import BradVector.Bradsense
import Mathlib.Algebra.BigOperators.Fin
import Mathlib.Algebra.Order.Floor.Ring
import Mathlib.Tactic.FinCases

/-!
# The numbers of the pixel path

Where the taps of a pixel stand, what their weights are and what becomes of the channels: each value
is what exact arithmetic gives, up to an error that is far below the half by which a channel is
rounded.
-/

namespace BradVector.Sense

open CSem

/-! ### Conversions -/

section Conversion

variable {x : ℚ}

theorem toCInt_of_nonneg (h₀ : 0 ≤ x) (h₁ : x < 2 ^ 31) : toCInt x = .ok ⌊x⌋ := by
  have hfloor : 0 ≤ ⌊x⌋ := Int.floor_nonneg.mpr h₀
  have hlt : ⌊x⌋ < 2 ^ 31 := Int.floor_lt.mpr (by exact_mod_cast h₁)
  rw [toCInt, if_pos h₀, if_pos ⟨by omega, hlt⟩]

theorem toCInt_total (h : |x| ≤ 2 ^ 30) : ∃ n, toCInt x = .ok n := by
  obtain ⟨hlow, hhigh⟩ := abs_le.mp h
  rcases le_or_gt 0 x with hpos | hneg
  · exact ⟨_, toCInt_of_nonneg hpos (by linarith)⟩
  · have hceil : ⌈x⌉ ≤ 0 := Int.ceil_le.mpr (by exact_mod_cast hneg.le)
    have hge : -2 ^ 30 ≤ ⌈x⌉ := by
      have : (-2 ^ 30 : ℚ) ≤ ⌈x⌉ := hlow.trans (Int.le_ceil x)
      exact_mod_cast this
    exact ⟨_, by rw [toCInt, if_neg hneg.not_ge, if_pos ⟨by omega, by omega⟩]⟩

theorem cInt_of_small {n : ℤ} (h : |n| ≤ 2 ^ 30) : cInt n = .ok n := by
  have h := abs_le.mp h
  rw [cInt, if_pos ⟨by omega, by omega⟩]

/-- Every value of moderate size has a byte. -/
theorem toByte_total {v : ℚ} (h : |v| ≤ 2 ^ 29) : ∃ b, toByte v = .ok b := by
  have hsum : |v + 1 / 2| ≤ 2 ^ 29 + 1 := by
    calc |v + 1 / 2| ≤ |v| + |1 / 2| := abs_add_le _ _
      _ ≤ 2 ^ 29 + 1 := by
        rw [abs_of_nonneg (by norm_num : (0 : ℚ) ≤ 1 / 2)]
        linarith
  have hnear := abs_le.mp (f32_near hsum (by norm_num))
  have hsum := abs_le.mp hsum
  have hbound : |fadd v (1 / 2)| ≤ 2 ^ 30 := by
    rw [fadd, abs_le]
    constructor <;> linarith
  obtain ⟨n, hn⟩ := toCInt_total hbound
  exact ⟨_, by rw [toByte, hn]; rfl⟩

/-- A value less than a half outside a range of bytes is rounded into the range. -/
theorem toByte_within {v : ℚ} {m k : Nat} (hk : k ≤ 255) (hlow : m - 499 / 1000 ≤ v)
    (hhigh : v ≤ k + 499 / 1000) :
    ∃ b, toByte v = .ok b ∧ m ≤ b.toNat ∧ b.toNat ≤ k := by
  have hk' : (k : ℚ) ≤ 255 := by exact_mod_cast hk
  have hm : (0 : ℚ) ≤ m := Nat.cast_nonneg m
  have hsum : |v + 1 / 2| ≤ 256 := abs_le.mpr ⟨by linarith, by linarith⟩
  have hnear := abs_le.mp (f32_near hsum (by norm_num))
  have hlow' : (m : ℚ) ≤ fadd v (1 / 2) := by
    unfold fadd
    linarith
  have hhigh' : fadd v (1 / 2) < k + 1 := by
    unfold fadd
    linarith
  have hge : (m : ℤ) ≤ ⌊fadd v (1 / 2)⌋ := Int.le_floor.mpr (by exact_mod_cast hlow')
  have hle : ⌊fadd v (1 / 2)⌋ ≤ k :=
    Int.lt_add_one_iff.mp (Int.floor_lt.mpr (by exact_mod_cast hhigh'))
  obtain ⟨n, hn⟩ := Int.eq_ofNat_of_zero_le ((Int.natCast_nonneg m).trans hge)
  have hconv : toCInt (fadd v (1 / 2)) = .ok (n : ℤ) := by
    rw [toCInt_of_nonneg (hm.trans hlow') (by linarith), hn]
  have hn255 : n ≤ 255 := by omega
  refine ⟨BitVec.ofNat 8 n, ?_, ?_, ?_⟩
  · rw [toByte, hconv, Outcome.bind_eq_bind, Outcome.ok_bind]
    have h₁ : ¬ (n : ℤ) < 0 := by omega
    have h₂ : ¬ (255 : ℤ) < n := by omega
    rw [if_neg h₁, if_neg h₂]
    rfl
  all_goals
    rw [BitVec.toNat_ofNat, Nat.mod_eq_of_lt (by omega)]
    omega

/-- A value less than a half off a byte becomes that byte. -/
theorem toByte_eq {v : ℚ} {b : Byte} (h : |v - b.toNat| ≤ 499 / 1000) : toByte v = .ok b := by
  obtain ⟨hlow, hhigh⟩ := abs_le.mp h
  obtain ⟨o, ho, hge, hle⟩ :=
    toByte_within (m := b.toNat) (k := b.toNat) (v := v) (by omega) (by linarith)
    (by linarith)
  rw [ho, BitVec.eq_of_toNat_eq (by omega : o.toNat = b.toNat)]

end Conversion

/-! ### Taps -/

section Axis

variable {s d k : Nat}

theorem axisScale_eq (hs : 1 ≤ s) (hmax : s ≤ framesMax) : axisScale s = (s - 1 : Nat) := by
  unfold axisScale
  split_ifs with h
  · exact f32_natCast (by
      unfold framesMax at hmax
      omega)
  · have hone : s - 1 = 0 := by omega
    rw [hone, Nat.cast_zero]

theorem axisDenom_eq (hmax : d ≤ framesMax) : axisDenom d = (max (d - 1) 1 : Nat) := by
  unfold axisDenom
  split_ifs with h
  · rw [max_eq_left (by omega)]
    exact f32_natCast (by
      unfold framesMax at hmax
      omega)
  · rw [max_eq_right (by omega), Nat.cast_one]

/-- The place of a pixel, up to a two-hundred-and-fifty-sixth. -/
theorem axisCoord_near (hs : 1 ≤ s) (hsmax : s ≤ framesMax) (hdmax : d ≤ framesMax) (hk : k < d) :
    0 ≤ axisCoord s d k ∧
      |axisCoord s d k - (k * (s - 1 : Nat) : ℚ) / (max (d - 1) 1 : Nat)| ≤ 1 / 256 := by
  have hk' : k < 2 ^ 24 := by
    unfold framesMax at hdmax
    omega
  have hcoord : axisCoord s d k = fdiv (fmul k (s - 1 : Nat)) (max (d - 1) 1 : Nat) := by
    rw [axisCoord, axisScale_eq hs hsmax, axisDenom_eq hdmax, f32_natCast hk']
  rw [hcoord]
  have hD : (1 : ℚ) ≤ (max (d - 1) 1 : Nat) := by exact_mod_cast le_max_right _ _
  have hS : ((s - 1 : Nat) : ℚ) ≤ 2 ^ 14 := by
    have : s - 1 ≤ 2 ^ 14 := by
      unfold framesMax at hsmax
      omega
    exact_mod_cast this
  have hkD : (k : ℚ) ≤ (max (d - 1) 1 : Nat) := by
    have : k ≤ max (d - 1) 1 := by omega
    exact_mod_cast this
  generalize ((max (d - 1) 1 : Nat) : ℚ) = D at *
  generalize hSdef : ((s - 1 : Nat) : ℚ) = S at *
  have hS₀ : 0 ≤ S := hSdef ▸ Nat.cast_nonneg _
  have hk₀ : (0 : ℚ) ≤ k := Nat.cast_nonneg k
  have hD₀ : 0 < D := by linarith
  have hprod : 0 ≤ (k : ℚ) * S := mul_nonneg hk₀ hS₀
  have hquot : (k : ℚ) * S / D ≤ 2 ^ 14 := by
    rw [div_le_iff₀ hD₀]
    nlinarith
  refine ⟨f32_nonneg (div_nonneg (f32_nonneg hprod) hD₀.le), ?_⟩
  -- the error of the product, as the division leaves it
  have hmul := abs_f32_sub_le ((k : ℚ) * S)
  rw [abs_of_nonneg hprod] at hmul
  have hdiv : |f32 (k * S) / D - k * S / D| ≤ 3 / 2048 := by
    calc |f32 (k * S) / D - k * S / D| = |f32 (k * S) - k * S| / D := by
          rw [← sub_div, abs_div, abs_of_pos hD₀]
      _ ≤ (k * S / 2 ^ 24 + 2 ^ (-150 : ℤ)) / D := by gcongr
      _ = k * S / D / 2 ^ 24 + 2 ^ (-150 : ℤ) / D := by ring
      _ ≤ 2 ^ 14 / 2 ^ 24 + 2 ^ (-150 : ℤ) := by
        gcongr
        exact div_le_self (by positivity) hD
      _ ≤ 3 / 2048 := by norm_num
  have hquot₀ : 0 ≤ k * S / D := div_nonneg hprod hD₀.le
  have hdiv' := abs_le.mp hdiv
  have hsize : |f32 (k * S) / D| ≤ 2 ^ 14 + 1 := by
    rw [abs_le]
    constructor <;> linarith
  have hround := f32_near hsize (by norm_num)
  calc |fdiv (fmul k S) D - k * S / D|
      ≤ |f32 (f32 (k * S) / D) - f32 (k * S) / D| + |f32 (k * S) / D - k * S / D| :=
        abs_sub_le _ _ _
    _ ≤ (2 ^ 14 + 1) / 2 ^ 23 + 3 / 2048 := add_le_add hround hdiv
    _ ≤ 1 / 256 := by norm_num

/-- The pixel before the place, and how far behind it the place is. -/
theorem axisCoord_floor (hs : 1 ≤ s) (hsmax : s ≤ framesMax) (hdmax : d ≤ framesMax) (hk : k < d) :
    ∃ i < s, toCInt (axisCoord s d k) = .ok (i : ℤ) ∧ (i : ℚ) ≤ axisCoord s d k ∧
      axisCoord s d k < i + 1 := by
  obtain ⟨hnonneg, hnear⟩ := axisCoord_near hs hsmax hdmax hk
  have hquot : (k * (s - 1 : Nat) : ℚ) / (max (d - 1) 1 : Nat) ≤ (s - 1 : Nat) := by
    have hkD : (k : ℚ) ≤ (max (d - 1) 1 : Nat) := by
      have : k ≤ max (d - 1) 1 := by omega
      exact_mod_cast this
    have hD : (0 : ℚ) < (max (d - 1) 1 : Nat) := by
      have : 0 < max (d - 1) 1 := by omega
      exact_mod_cast this
    rw [div_le_iff₀ hD, mul_comm]
    exact mul_le_mul_of_nonneg_left hkD (Nat.cast_nonneg _)
  have hlt : axisCoord s d k < s := by
    have hcast : ((s - 1 : Nat) : ℚ) = s - 1 := by
      rw [Nat.cast_sub hs, Nat.cast_one]
    have := (abs_le.mp hnear).2
    rw [hcast] at this hquot
    linarith
  obtain ⟨i, hi⟩ := Int.eq_ofNat_of_zero_le (Int.floor_nonneg.mpr hnonneg)
  have hle : (i : ℚ) ≤ axisCoord s d k := by
    have := Int.floor_le (axisCoord s d k)
    rw [hi] at this
    exact_mod_cast this
  have hlt' : axisCoord s d k < i + 1 := by
    have := Int.lt_floor_add_one (axisCoord s d k)
    rw [hi] at this
    exact_mod_cast this
  have his : i < s := by exact_mod_cast hle.trans_lt hlt
  have hsmax' : (s : ℚ) ≤ 2 ^ 14 := by exact_mod_cast hsmax
  refine ⟨i, his, ?_, hle, hlt'⟩
  rw [toCInt_of_nonneg hnonneg (by linarith), hi]

theorem frac_mem {x : ℚ} {i : Nat} (hi : i < framesMax) (hle : (i : ℚ) ≤ x) (hlt : x < i + 1) :
    0 ≤ fsub x (f32 i) ∧ fsub x (f32 i) ≤ 1 := by
  have hi24 : i < 2 ^ 24 := hi.trans (by decide)
  rw [f32_natCast hi24]
  exact ⟨f32_nonneg (by linarith), f32_le_one (by linarith) (by linarith)⟩

/-- Where the `k`-th of `d` pixels lies over the `i`-th of `s`. -/
def Over (s d k i : Nat) : Prop := k * (s - 1) = i * max (d - 1) 1

theorem Over.lt (hs : 1 ≤ s) (hk : k < d) {i : Nat} (h : Over s d k i) : i < s := by
  unfold Over at h
  have hD : 0 < max (d - 1) 1 := by omega
  have hkD : k ≤ max (d - 1) 1 := by omega
  have hle : i * max (d - 1) 1 ≤ (s - 1) * max (d - 1) 1 := by
    rw [← h, mul_comm]
    exact Nat.mul_le_mul_left _ hkD
  have := Nat.le_of_mul_le_mul_right hle hD
  omega

/-- There the place is the pixel's, up to the last digit of the greatest places. -/
theorem Over.axisCoord_near {i : Nat} (hs : 1 ≤ s) (hsmax : s ≤ framesMax) (hdmax : d ≤ framesMax)
    (hk : k < d)
    (h : Over s d k i) : i - 1 / 1024 ≤ axisCoord s d k ∧ axisCoord s d k ≤ i + 1 / 1024 := by
  have his := h.lt hs hk
  have hk' : k < 2 ^ 24 := by
    unfold framesMax at hdmax
    omega
  have hcoord : axisCoord s d k = fdiv (fmul k (s - 1 : Nat)) (max (d - 1) 1 : Nat) := by
    rw [axisCoord, axisScale_eq hs hsmax, axisDenom_eq hdmax, f32_natCast hk']
  have hprod : ((k : ℚ) * (s - 1 : Nat)) = i * (max (d - 1) 1 : Nat) := by exact_mod_cast h
  rw [hcoord, fdiv, fmul, hprod]
  have hD : (1 : ℚ) ≤ (max (d - 1) 1 : Nat) := by exact_mod_cast le_max_right _ _
  generalize ((max (d - 1) 1 : Nat) : ℚ) = D at *
  have hD₀ : 0 < D := by linarith
  have hi : (i : ℚ) ≤ 2 ^ 14 - 1 := by
    have : i + 1 ≤ 2 ^ 14 := by
      unfold framesMax at hsmax
      omega
    have : (i : ℚ) + 1 ≤ 2 ^ 14 := by exact_mod_cast this
    linarith
  have hi₀ : (0 : ℚ) ≤ i := Nat.cast_nonneg i
  have hnear : |f32 (i * D) / D - i| ≤ 1 / 1024 := by
    have hmul := abs_f32_sub_le ((i : ℚ) * D)
    rw [abs_of_nonneg (mul_nonneg hi₀ hD₀.le)] at hmul
    calc |f32 (i * D) / D - i| = |f32 (i * D) - i * D| / D := by
          rw [← abs_of_pos hD₀, ← abs_div, abs_of_pos hD₀, sub_div, mul_div_cancel_right₀ _ hD₀.ne']
      _ ≤ (i * D / 2 ^ 24 + 2 ^ (-150 : ℤ)) / D := by gcongr
      _ = i / 2 ^ 24 + 2 ^ (-150 : ℤ) / D := by
        field_simp
      _ ≤ (2 ^ 14 - 1) / 2 ^ 24 + 2 ^ (-150 : ℤ) := by
        gcongr
        exact div_le_self (by positivity) hD
      _ ≤ 1 / 1024 := by norm_num
  have hnear := abs_le.mp hnear
  have hsize : |f32 (i * D) / D| < 2 ^ ((-10 : ℤ) + 24) := by
    rw [abs_lt]
    norm_num
    constructor <;> linarith
  have hlow := le_f32_of_grid (m := i * 1024 - 1) hsize (by norm_num) (by
    push_cast
    norm_num
    linarith)
  have hhigh := f32_le_of_grid (m := i * 1024 + 1) hsize (by norm_num) (by
    push_cast
    norm_num
    linarith)
  push_cast at hlow hhigh
  norm_num at hlow hhigh
  constructor <;> linarith

/-- So it is just behind that pixel, or just before it. -/
theorem Over.frac {i j : Nat} (hs : 1 ≤ s) (hsmax : s ≤ framesMax) (hdmax : d ≤ framesMax)
    (hk : k < d)
    (h : Over s d k i) (hle : (j : ℚ) ≤ axisCoord s d k) (hlt : axisCoord s d k < j + 1) :
    j = i ∧ fsub (axisCoord s d k) (f32 j) ≤ 1 / 1024 ∨
      j + 1 = i ∧ 1 - 1 / 1024 ≤ fsub (axisCoord s d k) (f32 j) := by
  obtain ⟨hlow, hhigh⟩ := h.axisCoord_near hs hsmax hdmax hk
  have his := h.lt hs hk
  have hj : j < i + 1 := by
    have : (j : ℚ) < i + 1 := by linarith
    exact_mod_cast this
  have hi : i < j + 2 := by
    have : (i : ℚ) < j + 2 := by linarith
    exact_mod_cast this
  have hj24 : j < 2 ^ 24 := by
    unfold framesMax at hsmax
    omega
  have hsize : |axisCoord s d k - j| < 2 ^ ((-10 : ℤ) + 24) := by
    rw [abs_lt]
    norm_num
    constructor <;> linarith
  rw [f32_natCast hj24, fsub]
  rcases Nat.lt_or_ge j i with hlt' | hge
  · have hji : i = j + 1 := by omega
    subst hji
    push_cast at hlow
    have hgrid := le_f32_of_grid (m := 1023) hsize (by norm_num) (by
      norm_num
      linarith)
    norm_num at hgrid
    exact .inr ⟨rfl, by linarith⟩
  · have hji : i = j := by omega
    subst hji
    have hgrid := f32_le_of_grid (m := 1) hsize (by norm_num) (by
      norm_num
      linarith)
    norm_num at hgrid
    exact .inl ⟨rfl, by linarith⟩

theorem bradsenseClampU_lt (v : ℤ) (hs : 1 ≤ s) : bradsenseClampU v s < s := by
  unfold bradsenseClampU
  split_ifs <;> omega

theorem bradsenseClampU_of_lt {i : Nat} (h : i < s) : bradsenseClampU i s = i := by
  unfold bradsenseClampU
  rw [if_neg (by omega), Int.toNat_natCast, if_neg (by omega)]

/-- What the linear taps of a pixel are good for. -/
structure LinearTaps.At (s d k : Nat) (t : LinearTaps) : Prop where
  lo_lt : t.lo < s
  hi_lt : t.hi < s
  frac_nonneg : 0 ≤ t.frac
  frac_le_one : t.frac ≤ 1
  atPixel : ∀ i, Over s d k i → t.lo = i ∧ t.frac ≤ 1 / 1024 ∨ t.hi = i ∧ 1 - 1 / 1024 ≤ t.frac

theorem linearTaps_spec (hs : 1 ≤ s) (hsmax : s ≤ framesMax) (hdmax : d ≤ framesMax) (hk : k < d) :
    ∃ t, linearTaps s d k = .ok t ∧ t.At s d k := by
  obtain ⟨i, hi, hconv, hle, hlt⟩ := axisCoord_floor hs hsmax hdmax hk
  have hnext : cInt ((i : ℤ) + 1) = .ok ((i : ℤ) + 1) := cInt_of_small (by
    unfold framesMax at hsmax
    rw [abs_of_nonneg (by omega)]
    omega)
  have hfrac := frac_mem (hi.trans_le hsmax) hle hlt
  refine ⟨⟨i, bradsenseClampU (i + 1) s, fsub (axisCoord s d k) (f32 i)⟩, ?_,
    hi, bradsenseClampU_lt _ hs, hfrac.1, hfrac.2, fun j hover => ?_⟩
  · rw [linearTaps, hconv, Outcome.bind_eq_bind, Outcome.ok_bind, bradsenseClampU_of_lt hi, hnext]
    rfl
  · rcases hover.frac hs hsmax hdmax hk hle hlt with ⟨hij, hnear⟩ | ⟨hij, hnear⟩
    · exact .inl ⟨hij, hnear⟩
    · right
      refine ⟨?_, hnear⟩
      rw [← hij]
      exact bradsenseClampU_of_lt (hij ▸ hover.lt hs hk)

/-- What the cubic taps of a pixel are good for. -/
structure CubicTaps.At (s d k : Nat) (t : CubicTaps) (f : ℚ) : Prop where
  tap_lt : ∀ j, t.tap j < s
  weight_eq : t.weight = bradsenseCubicWeights f
  frac_nonneg : 0 ≤ f
  frac_le_one : f ≤ 1
  atPixel : ∀ i, Over s d k i → ∃ j, t.tap j = i ∧ (j = 1 ∧ f ≤ 1 / 1024 ∨ j = 2 ∧ 1 - 1 / 1024 ≤ f)

theorem cubicTaps_spec (hs : 1 ≤ s) (hsmax : s ≤ framesMax) (hdmax : d ≤ framesMax) (hk : k < d) :
    ∃ t, cubicTaps s d k = .ok t ∧ ∃ f, t.At s d k f := by
  obtain ⟨i, hi, hconv, hle, hlt⟩ := axisCoord_floor hs hsmax hdmax hk
  have hsmall {n : ℤ} (hlow : -1 ≤ n) (hhigh : n ≤ i + 2) : cInt n = .ok n := cInt_of_small (by
    unfold framesMax at hsmax
    rw [abs_le]
    omega)
  have hfrac := frac_mem (hi.trans_le hsmax) hle hlt
  refine ⟨⟨![bradsenseClampU ((i : ℤ) - 1) s, i, bradsenseClampU (i + 1) s,
    bradsenseClampU (i + 2) s],
    bradsenseCubicWeights (fsub (axisCoord s d k) (f32 i))⟩, ?_, _, ?_, rfl, hfrac.1, hfrac.2,
      fun j hover => ?_⟩
  · have hbefore : cInt ((i : ℤ) - 1) = .ok ((i : ℤ) - 1) := hsmall (by omega) (by omega)
    have hbehind : cInt ((i : ℤ) + 1) = .ok ((i : ℤ) + 1) := hsmall (by omega) (by omega)
    have hlast : cInt ((i : ℤ) + 2) = .ok ((i : ℤ) + 2) := hsmall (by omega) le_rfl
    rw [cubicTaps, hconv, Outcome.bind_eq_bind, Outcome.ok_bind, bradsenseClampU_of_lt hi]
    simp only [hbefore, hbehind, hlast]
    rfl
  · have hclamped (v : ℤ) : bradsenseClampU v s < s := bradsenseClampU_lt v hs
    intro j
    fin_cases j <;> simp [hi, hclamped]
  · rcases hover.frac hs hsmax hdmax hk hle hlt with ⟨hij, hnear⟩ | ⟨hij, hnear⟩
    · exact ⟨1, hij, .inl ⟨rfl, hnear⟩⟩
    · refine ⟨2, ?_, .inr ⟨rfl, hnear⟩⟩
      rw [← hij]
      exact bradsenseClampU_of_lt (hij ▸ hover.lt hs hk)

end Axis

/-! ### Blends -/

section Blend

variable {f : ℚ}

/-- A step of `bradsense_bilinear` between two values. -/
def lerp (p q f : ℚ) : ℚ := fadd (fmul p (fsub 1 f)) (fmul q f)

theorem lerp_near {p q : ℚ} (hp : |p| ≤ 257) (hq : |q| ≤ 257) (h₀ : 0 ≤ f) (h₁ : f ≤ 1) :
    |lerp p q f - (p * (1 - f) + q * f)| ≤ 1 / 2 ^ 12 := by
  have hf : |f| ≤ 1 := abs_le.mpr ⟨by linarith, h₁⟩
  have hg : |1 - f| ≤ 1 := abs_le.mpr ⟨by linarith, by linarith⟩
  have hfsub : |fsub 1 f - (1 - f)| ≤ 1 / 2 ^ 23 := f32_near hg (by norm_num)
  have hleft : |fmul p (fsub 1 f) - p * (1 - f)| ≤ 515 / 2 ^ 23 := by
    have h := fmul_near (ε := 0) (c := 258) (by rw [sub_self,
      abs_zero]) hfsub hp hg (by norm_num) (by norm_num)
    exact h.trans (by norm_num)
  have hright : |fmul q f - q * f| ≤ 257 / 2 ^ 23 := by
    have h : |q * f| ≤ 257 := by
      rw [abs_mul]
      nlinarith [abs_nonneg q, abs_nonneg f]
    exact f32_near h (by norm_num)
  have hsum : |p * (1 - f) + q * f| ≤ 257 := by
    have hp := abs_le.mp hp
    have hq := abs_le.mp hq
    rw [abs_le]
    constructor <;> nlinarith
  have h := fadd_near (c := 258) hleft hright
    (by linarith [show (515 : ℚ) / 2 ^ 23 + 257 / 2 ^ 23 ≤ 1 by norm_num])
    (by norm_num)
  exact h.trans (by norm_num)

section Lerp

variable {p q m M : ℚ} (hm : -1 ≤ m) (hM : M ≤ 256) (hp : m ≤ p ∧ p ≤ M) (hq : m ≤ q ∧ q ≤ M)
  (h₀ : 0 ≤ f) (h₁ : f ≤ 1)
include hm hM hp hq h₀ h₁

/-- The step stays between the values, -/
theorem lerp_mem : m - 1 / 2 ^ 12 ≤ lerp p q f ∧ lerp p q f ≤ M + 1 / 2 ^ 12 := by
  have hnear := abs_le.mp (lerp_near (abs_le.mpr ⟨by linarith, by linarith⟩)
    (abs_le.mpr ⟨by linarith, by linarith⟩) h₀ h₁ : |lerp p q f - _| ≤ _)
  have hlow : m ≤ p * (1 - f) + q * f := by nlinarith
  have hhigh : p * (1 - f) + q * f ≤ M := by nlinarith
  constructor <;> linarith

/-- and close to one of them where the fraction is. -/
theorem lerp_at {r : ℚ} (h : p = r ∧ f ≤ 1 / 1024 ∨ q = r ∧ 1 - 1 / 1024 ≤ f) :
    |lerp p q f - r| ≤ (M - m) / 1024 + 1 / 2 ^ 12 := by
  have hnear : |lerp p q f - (p * (1 - f) + q * f)| ≤ 1 / 2 ^ 12 :=
    lerp_near (abs_le.mpr ⟨by linarith, by linarith⟩) (abs_le.mpr ⟨by linarith, by linarith⟩) h₀ h₁
  have hexact : |p * (1 - f) + q * f - r| ≤ (M - m) / 1024 := by
    rw [abs_le]
    rcases h with ⟨rfl, hf⟩ | ⟨rfl, hf⟩
    · constructor <;> nlinarith
    · constructor <;> nlinarith
  calc |lerp p q f - r| ≤ |lerp p q f - (p * (1 - f) + q * f)| + |p * (1 - f) + q * f - r| :=
    abs_sub_le _ _ _
    _ ≤ 1 / 2 ^ 12 + (M - m) / 1024 := add_le_add hnear hexact
    _ = (M - m) / 1024 + 1 / 2 ^ 12 := add_comm _ _

end Lerp

/-- The weights of the cubic through four points, without rounding. -/
def catmullRom (t : ℚ) : Fin 4 → ℚ :=
  ![-1 / 2 * t ^ 3 + t ^ 2 - 1 / 2 * t, 3 / 2 * t ^ 3 - 5 / 2 * t ^ 2 + 1,
    -3 / 2 * t ^ 3 + 2 * t ^ 2 + 1 / 2 * t, 1 / 2 * t ^ 3 - 1 / 2 * t ^ 2]

theorem sum_catmullRom (t : ℚ) : ∑ i, catmullRom t i = 1 := by
  simp only [catmullRom, Fin.sum_univ_four, Matrix.cons_val]
  ring

section Weights

variable {a : ℚ} (h₀ : 0 ≤ f) (h₁ : f ≤ 1)
include h₀ h₁

theorem abs_frac_le : |f| ≤ 1 := abs_le.mpr ⟨by linarith, h₁⟩

theorem linear_near (ha : |a| ≤ 5 / 2) : |fmul a f - a * f| ≤ 3 / 2 ^ 23 := by
  have h := fmul_near (x := a) (y := f) (ε := 0) (δ := 0) (c := 3) (by simp) (by simp) ha
    (abs_frac_le h₀ h₁) (by norm_num) (by norm_num)
  exact h.trans (by norm_num)

theorem square_near (ha : |a| ≤ 5 / 2) : |fmul (fmul a f) f - a * f ^ 2| ≤ 6 / 2 ^ 23 := by
  have hf := abs_frac_le h₀ h₁
  have haf : |a * f| ≤ 5 / 2 := by
    rw [abs_mul]
    nlinarith [abs_nonneg a, abs_nonneg f]
  have h := fmul_near (y := f) (δ := 0) (c := 3) (linear_near h₀ h₁ ha) (by simp) haf hf
    (by norm_num) (by norm_num)
  rw [mul_assoc, ← sq] at h
  exact h.trans (by norm_num)

theorem cube_near (ha : |a| ≤ 5 / 2) : |fmul (fmul (fmul a f) f) f - a * f ^ 3| ≤ 9 / 2 ^ 23 := by
  have hf := abs_frac_le h₀ h₁
  have haf : |a * f ^ 2| ≤ 5 / 2 := by
    have hsq : |f ^ 2| ≤ 1 := by
      rw [abs_pow]
      exact pow_le_one₀ (abs_nonneg f) hf
    rw [abs_mul]
    nlinarith [abs_nonneg a, abs_nonneg (f ^ 2)]
  have h := fmul_near (y := f) (δ := 0) (c := 3) (square_near h₀ h₁ ha) (by simp) haf hf
    (by norm_num) (by norm_num)
  rw [mul_assoc, ← pow_succ] at h
  exact h.trans (by norm_num)

theorem bradsenseCubicWeights_near (i : Fin 4) :
    |bradsenseCubicWeights f i - catmullRom f i| ≤ 1 / 2 ^ 17 := by
  have hsq : 0 ≤ f ^ 2 ∧ f ^ 2 ≤ 1 := ⟨by positivity, pow_le_one₀ h₀ h₁⟩
  have hcu : 0 ≤ f ^ 3 ∧ f ^ 3 ≤ 1 := ⟨by positivity, pow_le_one₀ h₀ h₁⟩
  have hone : |(1 : ℚ) - 1| ≤ 0 := by simp
  have hhalf : |fmul (1 / 2) f - 1 / 2 * f| ≤ 3 / 2 ^ 23 := linear_near h₀ h₁ (by norm_num)
  have hplain : |fmul f f - f ^ 2| ≤ 1 / 2 ^ 23 := by
    rw [sq]
    exact f32_near (abs_le.mpr ⟨by nlinarith, by nlinarith⟩) (by norm_num)
  have hcube (a : ℚ) (ha : |a| ≤ 5 / 2) := cube_near h₀ h₁ ha
  have hsquare (a : ℚ) (ha : |a| ≤ 5 / 2) := square_near h₀ h₁ ha
  fin_cases i
  · have hsum := fadd_near (c := 2) (hcube (-1 / 2) (by norm_num)) hplain
      (by rw [← le_sub_iff_add_le, abs_le]; constructor <;> norm_num <;> linarith) (by norm_num)
    have h := fsub_near (c := 3) hsum hhalf
      (by rw [← le_sub_iff_add_le, abs_le]; constructor <;> norm_num <;> linarith) (by norm_num)
    exact h.trans (by norm_num)
  · have hsum := fsub_near (c := 5) (hcube (3 / 2) (by norm_num)) (hsquare (5 / 2) (by norm_num))
      (by rw [← le_sub_iff_add_le, abs_le]; constructor <;> norm_num <;> linarith) (by norm_num)
    have h := fadd_near (c := 6) hsum hone
      (by rw [← le_sub_iff_add_le, abs_le]; constructor <;> norm_num <;> linarith) (by norm_num)
    exact h.trans (by norm_num)
  · have hsum := fadd_near (c := 5) (hcube (-3 / 2) (by norm_num)) (hsquare 2 (by norm_num))
      (by rw [← le_sub_iff_add_le, abs_le]; constructor <;> norm_num <;> linarith) (by norm_num)
    have h := fadd_near (c := 6) hsum hhalf
      (by rw [← le_sub_iff_add_le, abs_le]; constructor <;> norm_num <;> linarith) (by norm_num)
    exact h.trans (by norm_num)
  · have h := fsub_near (c := 2) (hcube (1 / 2) (by norm_num)) (hsquare (1 / 2) (by norm_num))
      (by rw [← le_sub_iff_add_le, abs_le]; constructor <;> norm_num <;> linarith) (by norm_num)
    exact h.trans (by norm_num)

end Weights

end Blend

section Dot

variable {f : ℚ} {w r : Fin 4 → ℚ} {B : ℚ}

/-- The sum of the loops of `bradsense_bicubic`. -/
def dot4 (w r : Fin 4 → ℚ) : ℚ :=
  fadd (fadd (fadd (fadd 0 (fmul (w 0) (r 0))) (fmul (w 1) (r 1))) (fmul (w 2) (r 2)))
    (fmul (w 3) (r 3))

theorem forRange_dot4 {g : Fin 4 → PixelOutcome ℚ} (h : ∀ i, g i = .ok (r i)) :
    Outcome.forRange 4 (fun i row => do
      let p ← g i
      return fadd row (fmul (w i) p)) 0 = (.ok (dot4 w r) : PixelOutcome ℚ) := by
  simp only [Outcome.forRange_succ, h, Outcome.bind_eq_bind, Outcome.ok_bind, Outcome.pure_eq_ok,
    Outcome.forRange_zero]
  rfl

theorem dot4_near (hw : ∀ i, |w i| ≤ 9 / 8) (hr : ∀ i, |r i| ≤ B) (hB : 1 ≤ B) :
    |dot4 w r - ∑ i, w i * r i| ≤ B * (32 / 2 ^ 23) := by
  have hterm (i : Fin 4) : |w i * r i| ≤ 9 / 8 * B := by
    rw [abs_mul]
    exact mul_le_mul (hw i) (hr i) (abs_nonneg _) (by norm_num)
  have hmul (i : Fin 4) : |fmul (w i) (r i) - w i * r i| ≤ 2 * B / 2 ^ 23 := by
    exact f32_near ((hterm i).trans (by linarith))
      ((by norm_num : (2 : ℚ) ^ (-20 : ℤ) ≤ 1).trans (by linarith))
  have hsmall : (2 : ℚ) ^ (-20 : ℤ) ≤ 1 := by norm_num
  have h₀ := abs_le.mp (hterm 0)
  have h₁ := abs_le.mp (hterm 1)
  have h₂ := abs_le.mp (hterm 2)
  have h₃ := abs_le.mp (hterm 3)
  have s₀ := fadd_near (x := 0) (a := 0) (ε := 0) (c := 2 * B) (by simp) (hmul 0)
    (by rw [← le_sub_iff_add_le, abs_le]; constructor <;> norm_num <;> linarith) (by linarith)
  have s₁ := fadd_near (c := 3 * B) s₀ (hmul 1)
    (by rw [← le_sub_iff_add_le, abs_le]; constructor <;> norm_num <;> linarith) (by linarith)
  have s₂ := fadd_near (c := 4 * B) s₁ (hmul 2)
    (by rw [← le_sub_iff_add_le, abs_le]; constructor <;> norm_num <;> linarith) (by linarith)
  have s₃ := fadd_near (c := 5 * B) s₂ (hmul 3)
    (by rw [← le_sub_iff_add_le, abs_le]; constructor <;> norm_num <;> linarith) (by linarith)
  rw [Fin.sum_univ_four, dot4]
  rw [zero_add] at s₃
  exact s₃.trans (by linarith)

section Fraction

variable (h₀ : 0 ≤ f) (h₁ : f ≤ 1)
include h₀ h₁

theorem abs_catmullRom_le (i : Fin 4) : |catmullRom f i| ≤ 1 := by
  have hsq : f ^ 2 ≤ f := by nlinarith
  have hcu : f ^ 3 ≤ f ^ 2 := by nlinarith [sq_nonneg f]
  have hcu₀ : 0 ≤ f ^ 3 := by positivity
  rw [abs_le]
  fin_cases i <;> simp only [catmullRom] <;> norm_num <;> constructor <;> nlinarith

theorem abs_weight_le (i : Fin 4) : |bradsenseCubicWeights f i| ≤ 9 / 8 := by
  have hnear := bradsenseCubicWeights_near h₀ h₁ i
  calc |bradsenseCubicWeights f i|
      = |(bradsenseCubicWeights f i - catmullRom f i) + catmullRom f i| := by rw [sub_add_cancel]
    _ ≤ |bradsenseCubicWeights f i - catmullRom f i| + |catmullRom f i| := abs_add_le _ _
    _ ≤ 1 / 2 ^ 17 + 1 := add_le_add hnear (abs_catmullRom_le h₀ h₁ i)
    _ ≤ 9 / 8 := by norm_num

/-- The sum is the cubic's value, up to a hundredth. -/
theorem dot4_catmullRom (hr : ∀ i, |r i| ≤ 258) :
    |dot4 (bradsenseCubicWeights f) r - ∑ i, catmullRom f i * r i| ≤ 1 / 100 := by
  have hdot := dot4_near (abs_weight_le h₀ h₁) hr (by norm_num)
  have hweights : |∑ i, bradsenseCubicWeights f i * r i - ∑ i,
      catmullRom f i * r i| ≤ 4 * (258 / 2 ^ 17) := by
    rw [← Finset.sum_sub_distrib]
    calc |∑ i, (bradsenseCubicWeights f i * r i - catmullRom f i * r i)|
        ≤ ∑ i, |bradsenseCubicWeights f i * r i - catmullRom f i * r i| :=
          Finset.abs_sum_le_sum_abs _ _
      _ ≤ ∑ _i : Fin 4, (258 / 2 ^ 17 : ℚ) := by
        refine Finset.sum_le_sum fun i _ => ?_
        rw [← sub_mul, abs_mul]
        calc |bradsenseCubicWeights f i - catmullRom f i| * |r i| ≤ 1 / 2 ^ 17 * 258 :=
              mul_le_mul (bradsenseCubicWeights_near h₀ h₁ i) (hr i) (abs_nonneg _) (by norm_num)
          _ = 258 / 2 ^ 17 := by ring
      _ = 4 * (258 / 2 ^ 17) := by
        rw [Finset.sum_const, Finset.card_univ, Fintype.card_fin, nsmul_eq_mul]
        norm_num
  calc |dot4 (bradsenseCubicWeights f) r - ∑ i, catmullRom f i * r i|
      ≤ |dot4 (bradsenseCubicWeights f) r - ∑ i, bradsenseCubicWeights f i * r i|
        + |∑ i, bradsenseCubicWeights f i * r i - ∑ i, catmullRom f i * r i| := abs_sub_le _ _ _
    _ ≤ 258 * (32 / 2 ^ 23) + 4 * (258 / 2 ^ 17) := add_le_add hdot hweights
    _ ≤ 1 / 100 := by norm_num

/-- Four equal values are kept. -/
theorem dot4_constant {a η : ℚ} (ha : |a| ≤ 256) (hη : η ≤ 1) (hr : ∀ i, |r i - a| ≤ η) :
    |dot4 (bradsenseCubicWeights f) r - a| ≤ 4 * η + 1 / 100 := by
  have hbound (i : Fin 4) : |r i| ≤ 258 := by
    calc |r i| = |(r i - a) + a| := by rw [sub_add_cancel]
      _ ≤ |r i - a| + |a| := abs_add_le _ _
      _ ≤ 258 := by linarith [hr i]
  have hexact : |∑ i, catmullRom f i * r i - a| ≤ 4 * η := by
    have hcentre : ∑ i, catmullRom f i * r i - a = ∑ i, catmullRom f i * (r i - a) := by
      simp only [mul_sub, Finset.sum_sub_distrib, ← Finset.sum_mul, sum_catmullRom, one_mul]
    rw [hcentre]
    calc |∑ i, catmullRom f i * (r i - a)| ≤ ∑ i, |catmullRom f i * (r i - a)| :=
      Finset.abs_sum_le_sum_abs _ _
      _ ≤ ∑ _i : Fin 4, η := by
        refine Finset.sum_le_sum fun i _ => ?_
        rw [abs_mul]
        calc |catmullRom f i| * |r i - a| ≤ 1 * η :=
              mul_le_mul (abs_catmullRom_le h₀ h₁ i) (hr i) (abs_nonneg _) zero_le_one
          _ = η := one_mul η
      _ = 4 * η := by
        rw [Finset.sum_const, Finset.card_univ, Fintype.card_fin, nsmul_eq_mul]
        norm_num
  calc |dot4 (bradsenseCubicWeights f) r - a|
      ≤ |dot4 (bradsenseCubicWeights f) r - ∑ i, catmullRom f i * r i| + |∑ i,
        catmullRom f i * r i - a| :=
        abs_sub_le _ _ _
    _ ≤ 1 / 100 + 4 * η := add_le_add (dot4_catmullRom h₀ h₁ hbound) hexact
    _ = 4 * η + 1 / 100 := add_comm _ _

end Fraction

theorem abs_sub_le_of_sided {a b c u v x L U κ : ℚ} (ha : 0 ≤ a) (hb : 0 ≤ b) (hc : 0 ≤ c)
    (hab : a + b ≤ κ)
    (hcκ : c ≤ κ) (hu : -L ≤ u ∧ u ≤ U) (hv : -L ≤ v ∧ v ≤ U) (hx : -L ≤ x ∧ x ≤ U) (hL : 0 ≤ L)
    (hU : 0 ≤ U) :
    |c * x - a * u - b * v| ≤ κ * (L + U) := by
  have hleft := mul_le_mul_of_nonneg_right hab hL
  have hleft' := mul_le_mul_of_nonneg_right hab hU
  have hright := mul_le_mul_of_nonneg_right hcκ hL
  have hright' := mul_le_mul_of_nonneg_right hcκ hU
  rw [abs_le]
  constructor
  · nlinarith [mul_le_mul_of_nonneg_left hx.1 hc, mul_le_mul_of_nonneg_left hu.2 ha,
      mul_le_mul_of_nonneg_left hv.2 hb]
  · nlinarith [mul_le_mul_of_nonneg_left hx.2 hc, mul_le_mul_of_nonneg_left hu.1 ha,
      mul_le_mul_of_nonneg_left hv.1 hb]

/-- Close behind a point the cubic has that point's value. -/
theorem catmullRom_at_left {m M : ℚ} (h₀ : 0 ≤ f) (h₁ : f ≤ 1 / 1024) (hr : ∀ i, m ≤ r i ∧ r i ≤ M)
    (hmM : M - m ≤ 257) : |∑ i, catmullRom f i * r i - r 1| ≤ 257 * (1 / 2048 + 2 / 1024 ^ 2) := by
  have hcentre : ∑ i, catmullRom f i * r i - r 1 = catmullRom f 2 * (r 2 - r 1)
      - (-catmullRom f 0) * (r 0 - r 1) - (-catmullRom f 3) * (r 3 - r 1) := by
    have hsum := sum_catmullRom f
    rw [Fin.sum_univ_four] at hsum
    have hone : catmullRom f 1 = 1 - catmullRom f 0 - catmullRom f 2 - catmullRom f 3 := by linarith
    rw [Fin.sum_univ_four, hone]
    ring
  have hsq : f ^ 2 ≤ 1 / 1024 * f := by nlinarith
  have hsq₀ : 0 ≤ f ^ 2 := by positivity
  have hcu₀ : 0 ≤ f ^ 3 := by positivity
  have hcu : f ^ 3 ≤ 1 / 1024 * f ^ 2 := by nlinarith
  have w₀ : -catmullRom f 0 = 1 / 2 * f ^ 3 - f ^ 2 + 1 / 2 * f := by
    simp only [catmullRom, Matrix.cons_val]
    ring
  have w₂ : catmullRom f 2 = -3 / 2 * f ^ 3 + 2 * f ^ 2 + 1 / 2 * f := rfl
  have w₃ : -catmullRom f 3 = 1 / 2 * f ^ 2 - 1 / 2 * f ^ 3 := by
    simp only [catmullRom, Matrix.cons_val]
    ring
  have hside (i : Fin 4) : -(r 1 - m) ≤ r i - r 1 ∧ r i - r 1 ≤ M - r 1 :=
    ⟨by linarith [hr i], by linarith [hr i]⟩
  rw [hcentre]
  calc |catmullRom f 2 * (r 2 - r 1) - (-catmullRom f 0) * (r 0 - r 1) - (-catmullRom f 3) *
      (r 3 - r 1)| ≤ (1 / 2048 + 2 / 1024 ^ 2) * ((r 1 - m) + (M - r 1)) := by
        refine abs_sub_le_of_sided ?_ ?_ ?_ ?_ ?_ (hside 0) (hside 3) (hside 2) (by linarith [hr 1])
          (by linarith [hr 1])
        all_goals
          simp only [w₀, w₂, w₃]
          nlinarith
    _ = (1 / 2048 + 2 / 1024 ^ 2) * (M - m) := by ring
    _ ≤ (1 / 2048 + 2 / 1024 ^ 2) * 257 := by gcongr
    _ = 257 * (1 / 2048 + 2 / 1024 ^ 2) := mul_comm _ _

theorem catmullRom_rev (t : ℚ) (i : Fin 4) : catmullRom t i = catmullRom (1 - t) i.rev := by
  fin_cases i <;> simp [catmullRom] <;> ring

/-- And close before the next one that one's. -/
theorem catmullRom_at_right {m M : ℚ} (h₀ : 1 - 1 / 1024 ≤ f) (h₁ : f ≤ 1)
    (hr : ∀ i, m ≤ r i ∧ r i ≤ M)
    (hmM : M - m ≤ 257) : |∑ i, catmullRom f i * r i - r 2| ≤ 257 * (1 / 2048 + 2 / 1024 ^ 2) := by
  have hleft := catmullRom_at_left (f := 1 - f) (r := fun i => r i.rev) (by linarith) (by linarith)
    (fun i => hr i.rev) hmM
  have hsum : ∑ i, catmullRom f i * r i = ∑ i, catmullRom (1 - f) i * r i.rev := by
    refine Fintype.sum_equiv Fin.revPerm _ _ fun i => ?_
    rw [Fin.revPerm_apply, Fin.rev_rev, catmullRom_rev]
  rw [hsum]
  exact hleft

theorem dot4_at {m M : ℚ} {k : Fin 4} (h₀ : 0 ≤ f) (h₁ : f ≤ 1)
    (hk : k = 1 ∧ f ≤ 1 / 1024 ∨ k = 2 ∧ 1 - 1 / 1024 ≤ f) (hr : ∀ i, m ≤ r i ∧ r i ≤ M)
    (hm : -1 / 2 ≤ m)
    (hM : M ≤ 255 + 1 / 2) : |dot4 (bradsenseCubicWeights f) r - r k| ≤ 1 / 7 := by
  have hbound (i : Fin 4) : |r i| ≤ 258 := abs_le.mpr ⟨by linarith [hr i], by linarith [hr i]⟩
  have hexact : |∑ i, catmullRom f i * r i - r k| ≤ 257 * (1 / 2048 + 2 / 1024 ^ 2) := by
    rcases hk with ⟨rfl, hf⟩ | ⟨rfl, hf⟩
    · exact catmullRom_at_left h₀ hf hr (by linarith)
    · exact catmullRom_at_right hf h₁ hr (by linarith)
  calc |dot4 (bradsenseCubicWeights f) r - r k|
      ≤ |dot4 (bradsenseCubicWeights f) r - ∑ i, catmullRom f i * r i| + |∑ i,
        catmullRom f i * r i - r k| :=
        abs_sub_le _ _ _
    _ ≤ 1 / 100 + 257 * (1 / 2048 + 2 / 1024 ^ 2) :=
      add_le_add (dot4_catmullRom h₀ h₁ hbound) hexact
    _ ≤ 1 / 7 := by norm_num

end Dot

end BradVector.Sense
