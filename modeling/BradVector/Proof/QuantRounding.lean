import BradVector.TifaQuant
import Mathlib.Data.Nat.Bitwise
import Mathlib.Tactic.NormNum

/-!
# Rounding to FP8

Both FP8 formats encode a number by the nearest value from the smallest normal one on. Below it the
encoder counts in steps of half the distance that the decoder has between two values.
-/

namespace BradVector.Tifa.FloatFormat

open CSem

variable (fmt : FloatFormat)

/-- Eight bits, with at least two bits of exponent and one of mantissa. -/
structure IsFp8 : Prop where
  mant_pos : 0 < fmt.mant
  exp_ge : 2 ≤ fmt.exp
  width : fmt.exp + fmt.mant = 7

theorem e4m3_isFp8 : e4m3.IsFp8 := ⟨by decide, by decide, by decide⟩

theorem e5m2_isFp8 : e5m2.IsFp8 := ⟨by decide, by decide, by decide⟩

/-- The finite values of the format. -/
def values : Set ℚ := {v | ∃ c < 256, fmt.decodeFloat c = .finite v}

/-- A value with an even mantissa. -/
def IsEven (v : ℚ) : Prop := ∃ c < 256, fmt.decodeFloat c = .finite v ∧ Even c

/-- The code is a byte, and decodes to the nearest value, or to the same infinity, or to NaN. -/
def Faithful (f : PyFloat) : Prop :=
  fmt.encodeFloat f < 256 ∧
    match f with
    | .nan => fmt.decodeFloat (fmt.encodeFloat f) = .nan
    | .inf negative => fmt.decodeFloat (fmt.encodeFloat f) = .inf negative
    | .finite x =>
        ∃ v, fmt.decodeFloat (fmt.encodeFloat f) = .finite v ∧ NearestEven fmt.values fmt.IsEven x v

/-- The distance between two values below the smallest normal one. -/
def ulp : ℚ := 2 ^ (1 - fmt.bias - fmt.mant)

/-- A finite number that is zero or nearly, between one half and three quarters of an `ulp`, or at
most half an `ulp` below the smallest normal value. -/
def Encodable : PyFloat → Prop
  | .nan | .inf _ => False
  | .finite x =>
      |x| ≤ 1 / 4 * fmt.ulp ∨ 1 / 2 * fmt.ulp < |x| ∧ |x| < 3 / 4 * fmt.ulp ∨
        (2 ^ fmt.mant - 1 / 2) * fmt.ulp ≤ |x|

/-! ### Fields -/

/-- The magnitude that exponent and mantissa field stand for, in units of `ulp`. -/
def units (e m : Nat) : Nat := if e = 0 then m else (2 ^ fmt.mant + m) * 2 ^ (e - 1)

/-- The byte with these fields. -/
def code (b e m : Nat) : Nat := b * 2 ^ (fmt.exp + fmt.mant) + e * 2 ^ fmt.mant + m

variable {fmt}

theorem ulp_pos : 0 < fmt.ulp := zpow_pos two_pos _

theorem mul_ulp_of_subnormal (m : ℚ) :
    m * 2 ^ (-fmt.mant : ℤ) * 2 ^ (-fmt.bias + 1) = m * fmt.ulp := by
  rw [mul_assoc, ← zpow_add₀ two_ne_zero]
  unfold ulp
  congr 2
  omega

theorem mul_ulp_of_normal (m : ℚ) {e : Nat} (he : e ≠ 0) :
    (1 + m * 2 ^ (-fmt.mant : ℤ)) * 2 ^ ((e : ℤ) - fmt.bias) =
      (2 ^ fmt.mant + m) * 2 ^ (e - 1) * fmt.ulp := by
  have hone : (1 : ℚ) = 2 ^ (fmt.mant : ℤ) * 2 ^ (-fmt.mant : ℤ) := by
    rw [← zpow_add₀ two_ne_zero, add_neg_cancel, zpow_zero]
  have hsplit : (2 : ℚ) ^ (-fmt.mant : ℤ) * 2 ^ ((e : ℤ) - fmt.bias) = 2 ^ (e - 1) * fmt.ulp := by
    unfold ulp
    rw [← zpow_natCast, ← zpow_add₀ two_ne_zero, ← zpow_add₀ two_ne_zero]
    congr 1
    omega
  rw [mul_assoc _ _ fmt.ulp, ← hsplit, ← mul_assoc]
  congr 1
  rw [add_mul, ← zpow_natCast, ← hone]

/-- What the decoder makes of the fields. -/
theorem decodeFloat_eq (c : Nat) :
    fmt.decodeFloat c =
      if c / 2 ^ fmt.mant % 2 ^ fmt.exp = 2 ^ fmt.exp - 1 then
        if c % 2 ^ fmt.mant ≠ 0 then .nan else .inf (c / 2 ^ (fmt.exp + fmt.mant) % 2 ≠ 0)
      else .finite ((if c / 2 ^ (fmt.exp + fmt.mant) % 2 ≠ 0 then -1 else 1) *
        (fmt.units (c / 2 ^ fmt.mant % 2 ^ fmt.exp) (c % 2 ^ fmt.mant) * fmt.ulp)) := by
  unfold decodeFloat units
  simp only [Nat.and_two_pow_sub_one_eq_mod, Nat.shiftRight_eq_div_pow, Nat.and_one_is_mod]
  generalize c / 2 ^ fmt.mant % 2 ^ fmt.exp = e
  by_cases hmax : e = 2 ^ fmt.exp - 1
  · rw [if_pos hmax, if_pos hmax]
  rw [if_neg hmax, if_neg hmax]
  by_cases hzero : e = 0
  · rw [if_pos hzero, if_pos hzero, mul_assoc, mul_ulp_of_subnormal]
  · rw [if_neg hzero, if_neg hzero, mul_assoc, mul_ulp_of_normal _ hzero]
    push_cast
    rfl

section Fields

variable {b e m : Nat} (he : e < 2 ^ fmt.exp) (hm : m < 2 ^ fmt.mant)
include hm

theorem code_mod : fmt.code b e m % 2 ^ fmt.mant = m := by
  unfold code
  rw [pow_add, ← mul_assoc, ← add_mul, Nat.mul_add_mod_of_lt hm]

theorem code_div : fmt.code b e m / 2 ^ fmt.mant = b * 2 ^ fmt.exp + e := by
  unfold code
  rw [pow_add, ← mul_assoc, ← add_mul, mul_comm, Nat.mul_add_div (Nat.two_pow_pos _),
    Nat.div_eq_of_lt hm, add_zero]

include he

theorem code_div_mod : fmt.code b e m / 2 ^ fmt.mant % 2 ^ fmt.exp = e := by
  rw [code_div hm, Nat.mul_add_mod_of_lt he]

theorem code_sign : fmt.code b e m / 2 ^ (fmt.exp + fmt.mant) = b := by
  rw [add_comm, pow_add, ← Nat.div_div_eq_div_mul, code_div hm, mul_comm,
    Nat.mul_add_div (Nat.two_pow_pos _), Nat.div_eq_of_lt he, add_zero]

theorem code_lt (hfmt : fmt.IsFp8) (hb : b < 2) : fmt.code b e m < 256 := by
  have hwidth : 2 ^ (fmt.exp + fmt.mant) = 128 := by
    rw [hfmt.width]
    rfl
  have hfields : e * 2 ^ fmt.mant + m < 2 ^ (fmt.exp + fmt.mant) := by
    rw [pow_add]
    calc e * 2 ^ fmt.mant + m < (e + 1) * 2 ^ fmt.mant := by
          rw [add_one_mul]
          exact Nat.add_lt_add_left hm _
      _ ≤ 2 ^ fmt.exp * 2 ^ fmt.mant := Nat.mul_le_mul_right _ he
  unfold code
  rw [hwidth] at hfields ⊢
  omega

/-- The shifts and disjunctions of the encoder put the fields side by side. -/
theorem or_eq_code :
    (b <<< (fmt.exp + fmt.mant)) ||| (e <<< fmt.mant) ||| m = fmt.code b e m := by
  have hinner : (b <<< fmt.exp) ||| e = b * 2 ^ fmt.exp + e := by
    rw [← Nat.shiftLeft_add_eq_or_of_lt he, Nat.shiftLeft_eq]
  have houter : (b <<< (fmt.exp + fmt.mant)) ||| (e <<< fmt.mant) =
      (b * 2 ^ fmt.exp + e) <<< fmt.mant := by
    rw [Nat.shiftLeft_add, ← Nat.shiftLeft_or_distrib, hinner]
  rw [houter, ← Nat.shiftLeft_add_eq_or_of_lt hm, Nat.shiftLeft_eq]
  unfold code
  rw [add_mul, pow_add, mul_assoc]

end Fields

theorem decodeFloat_code {b e m : Nat} (hb : b < 2) (he : e < 2 ^ fmt.exp - 1)
    (hm : m < 2 ^ fmt.mant) :
    fmt.decodeFloat (fmt.code b e m) =
      .finite ((if b ≠ 0 then -1 else 1) * (fmt.units e m * fmt.ulp)) := by
  have he' : e < 2 ^ fmt.exp := by omega
  rw [decodeFloat_eq, code_div_mod he' hm, if_neg he.ne, code_mod hm, code_sign he' hm,
    Nat.mod_eq_of_lt hb]

/-- A code with a finite value, read field by field. -/
theorem exists_fields {c : Nat} {v : ℚ} (h : fmt.decodeFloat c = .finite v) :
    ∃ b e, b < 2 ∧ e < 2 ^ fmt.exp - 1 ∧
      v = (if b ≠ 0 then -1 else 1) * (fmt.units e (c % 2 ^ fmt.mant) * fmt.ulp) := by
  rw [decodeFloat_eq] at h
  have hmax : c / 2 ^ fmt.mant % 2 ^ fmt.exp ≠ 2 ^ fmt.exp - 1 := by
    intro hmax
    rw [if_pos hmax] at h
    split at h <;> cases h
  rw [if_neg hmax] at h
  have hlt := Nat.mod_lt (c / 2 ^ fmt.mant) (Nat.two_pow_pos fmt.exp)
  exact ⟨_, _, Nat.mod_lt _ two_pos, by omega, (PyFloat.finite.inj h).symm⟩

theorem mem_values_iff (hfmt : fmt.IsFp8) {v : ℚ} :
    v ∈ fmt.values ↔ ∃ b e m, b < 2 ∧ e < 2 ^ fmt.exp - 1 ∧ m < 2 ^ fmt.mant ∧
      v = (if b ≠ 0 then -1 else 1) * (fmt.units e m * fmt.ulp) := by
  constructor
  · rintro ⟨c, _, hdecode⟩
    obtain ⟨b, e, hb, he, hv⟩ := exists_fields hdecode
    exact ⟨b, e, _, hb, he, Nat.mod_lt _ (Nat.two_pow_pos _), hv⟩
  · rintro ⟨b, e, m, hb, he, hm, rfl⟩
    exact ⟨fmt.code b e m, code_lt (by omega) hm hfmt hb, decodeFloat_code hb he hm⟩

/-- The mantissa field of an even code is even. -/
theorem isEven_iff (hfmt : fmt.IsFp8) {v : ℚ} :
    fmt.IsEven v ↔ ∃ b e m, b < 2 ∧ e < 2 ^ fmt.exp - 1 ∧ m < 2 ^ fmt.mant ∧ Even m ∧
      v = (if b ≠ 0 then -1 else 1) * (fmt.units e m * fmt.ulp) := by
  have hmant : Even (2 ^ fmt.mant) := Nat.even_pow.mpr ⟨even_two, hfmt.mant_pos.ne'⟩
  constructor
  · rintro ⟨c, _, hdecode, heven⟩
    obtain ⟨b, e, hb, he, hv⟩ := exists_fields hdecode
    refine ⟨b, e, _, hb, he, Nat.mod_lt _ (Nat.two_pow_pos _), ?_, hv⟩
    exact (Nat.even_iff.trans (Nat.mod_mod_of_dvd c hmant.two_dvd ▸ Iff.rfl)).mpr
      (Nat.even_iff.mp heven)
  · rintro ⟨b, e, m, hb, he, hm, heven, rfl⟩
    refine ⟨fmt.code b e m, code_lt (by omega) hm hfmt hb, decodeFloat_code hb he hm, ?_⟩
    unfold code
    rw [pow_add]
    exact (((hmant.mul_left _).mul_left _).add (hmant.mul_left _)).add heven

theorem sign_flip {b : Nat} (hb : b < 2) (x : ℚ) :
    -((if b ≠ 0 then -1 else 1) * x) = (if 1 - b ≠ 0 then -1 else 1) * x := by
  obtain rfl | rfl : b = 0 ∨ b = 1 := by omega
  · simp
  · simp

theorem neg_mem_values (hfmt : fmt.IsFp8) {v : ℚ} (h : v ∈ fmt.values) : -v ∈ fmt.values := by
  obtain ⟨b, e, m, hb, he, hm, rfl⟩ := (mem_values_iff hfmt).mp h
  exact (mem_values_iff hfmt).mpr ⟨1 - b, e, m, by omega, he, hm, sign_flip hb _⟩

theorem neg_isEven (hfmt : fmt.IsFp8) {v : ℚ} (h : fmt.IsEven v) : fmt.IsEven (-v) := by
  obtain ⟨b, e, m, hb, he, hm, heven, rfl⟩ := (isEven_iff hfmt).mp h
  exact (isEven_iff hfmt).mpr ⟨1 - b, e, m, by omega, he, hm, heven, sign_flip hb _⟩

/-! ### Magnitudes -/

theorem units_pos {e : Nat} (he : e ≠ 0) (m : Nat) :
    fmt.units e m = (2 ^ fmt.mant + m) * 2 ^ (e - 1) := if_neg he

/-- Every magnitude of a lower exponent is below the magnitudes of a higher one. -/
theorem units_lt {e e' m : Nat} (hm : m < 2 ^ fmt.mant) (hlt : e < e') :
    fmt.units e m < 2 ^ fmt.mant * 2 ^ (e' - 1) := by
  by_cases he : e = 0
  · subst he
    exact hm.trans_le (Nat.le_mul_of_pos_right _ (Nat.two_pow_pos _))
  · rw [units_pos he]
    calc (2 ^ fmt.mant + m) * 2 ^ (e - 1) < 2 ^ fmt.mant * 2 * 2 ^ (e - 1) :=
          Nat.mul_lt_mul_of_pos_right (by omega) (Nat.two_pow_pos _)
      _ = 2 ^ fmt.mant * 2 ^ (e - 1 + 1) := by rw [pow_succ']; ring
      _ ≤ 2 ^ fmt.mant * 2 ^ (e' - 1) :=
          Nat.mul_le_mul_left _ (Nat.pow_le_pow_right two_pos (by omega))

theorem dvd_units {e e' : Nat} (he : e ≤ e') (hpos : e ≠ 0) (m : Nat) :
    2 ^ (e - 1) ∣ fmt.units e' m := by
  rw [units_pos (by omega)]
  exact (pow_dvd_pow 2 (by omega)).mul_left _

theorem units_le_max {e m : Nat} (he : e < 2 ^ fmt.exp - 1) (hm : m < 2 ^ fmt.mant) :
    fmt.units e m ≤ fmt.units (2 ^ fmt.exp - 2) (2 ^ fmt.mant - 1) := by
  obtain hlt | heq : e < 2 ^ fmt.exp - 2 ∨ e = 2 ^ fmt.exp - 2 := by omega
  · refine (units_lt hm hlt).le.trans ?_
    rw [units_pos (by omega)]
    exact Nat.mul_le_mul_right _ (Nat.le_add_right _ _)
  · rw [heq]
    unfold units
    split
    · omega
    · exact Nat.mul_le_mul_right _ (by omega)

theorem two_le_exp (hfmt : fmt.IsFp8) : 2 ≤ 2 ^ fmt.exp - 2 := by
  have hpow : 2 ^ 2 ≤ 2 ^ fmt.exp := Nat.pow_le_pow_right two_pos hfmt.exp_ge
  omega

theorem maxf_eq (hfmt : fmt.IsFp8) :
    fmt.maxf = fmt.units (2 ^ fmt.exp - 2) (2 ^ fmt.mant - 1) * fmt.ulp := by
  have hexp := two_le_exp hfmt
  have hcast : ((2 ^ fmt.mant - 1 : Nat) : ℚ) = 2 ^ fmt.mant - 1 := by
    rw [Nat.cast_sub Nat.one_le_two_pow]
    push_cast
    rfl
  have hfield : ((2 ^ fmt.exp - 2 : Nat) : ℤ) = 2 ^ fmt.exp - 2 := by
    rw [Nat.cast_sub (by omega)]
    push_cast
    rfl
  have hone : (2 : ℚ) ^ fmt.mant * 2 ^ (-fmt.mant : ℤ) = 1 := by
    rw [← zpow_natCast, ← zpow_add₀ two_ne_zero, add_neg_cancel, zpow_zero]
  have htop : 2 ^ fmt.exp - 2 ≠ 0 := by omega
  have hmul : _ = _ * fmt.ulp := mul_ulp_of_normal ((2 ^ fmt.mant - 1 : Nat) : ℚ) htop
  rw [hcast, hfield, sub_mul, hone, one_mul] at hmul
  unfold maxf
  rw [hmul, units_pos htop]
  push_cast
  rw [hcast]

theorem mag_mem_values (hfmt : fmt.IsFp8) {e m : Nat} (he : e < 2 ^ fmt.exp - 1)
    (hm : m < 2 ^ fmt.mant) :
    (fmt.units e m * fmt.ulp : ℚ) ∈ fmt.values :=
  (mem_values_iff hfmt).mpr ⟨0, e, m, two_pos, he, hm, (one_mul _).symm⟩

theorem mag_isEven (hfmt : fmt.IsFp8) {e m : Nat} (he : e < 2 ^ fmt.exp - 1) (hm : m < 2 ^ fmt.mant)
    (heven : Even m) : fmt.IsEven (fmt.units e m * fmt.ulp) :=
  (isEven_iff hfmt).mpr ⟨0, e, m, two_pos, he, hm, heven, (one_mul _).symm⟩

theorem zero_mem_values (hfmt : fmt.IsFp8) : (0 : ℚ) ∈ fmt.values := by
  have hexp := two_le_exp hfmt
  have hmem := mag_mem_values hfmt (e := 0) (m := 0) (by omega) (Nat.two_pow_pos _)
  rwa [units, if_pos rfl, Nat.cast_zero, zero_mul] at hmem

/-- A positive value has a magnitude. -/
theorem exists_units_of_pos (hfmt : fmt.IsFp8) {v : ℚ} (hv : v ∈ fmt.values) (hpos : 0 < v) :
    ∃ e m, e < 2 ^ fmt.exp - 1 ∧ m < 2 ^ fmt.mant ∧ v = fmt.units e m * fmt.ulp := by
  obtain ⟨b, e, m, _, he, hm, rfl⟩ := (mem_values_iff hfmt).mp hv
  refine ⟨e, m, he, hm, ?_⟩
  have hmag : 0 ≤ (fmt.units e m : ℚ) * fmt.ulp := mul_nonneg (Nat.cast_nonneg _) ulp_pos.le
  split_ifs at hpos ⊢ with hb
  · linarith
  · exact one_mul _

theorem le_maxf (hfmt : fmt.IsFp8) {v : ℚ} (hv : v ∈ fmt.values) : v ≤ fmt.maxf := by
  obtain hpos | hpos := lt_or_ge 0 v
  · obtain ⟨e, m, he, hm, rfl⟩ := exists_units_of_pos hfmt hv hpos
    rw [maxf_eq hfmt]
    exact mul_le_mul_of_nonneg_right (by exact_mod_cast units_le_max he hm) ulp_pos.le
  · rw [maxf_eq hfmt]
    exact hpos.trans (mul_nonneg (Nat.cast_nonneg _) ulp_pos.le)

/-! ### Normal values -/

/-- `a` lies in the binade of the exponent field `e`, whose values are `2 ^ (e - 1)` ulps apart. -/
structure Binade (fmt : FloatFormat) (a : ℚ) (e : Nat) : Prop where
  field : (frexp a).2 - 1 + fmt.bias = e
  pos : e ≠ 0
  lt : e < 2 ^ fmt.exp - 1
  low : 2 ^ fmt.mant * (2 ^ (e - 1) * fmt.ulp) ≤ a
  high : a < 2 ^ (fmt.mant + 1) * (2 ^ (e - 1) * fmt.ulp)
  frac : ((frexp a).1 - 1 / 2) * 2 ^ (fmt.mant + 1) = a / (2 ^ (e - 1) * fmt.ulp) - 2 ^ fmt.mant

theorem binade_scale (k : ℤ) (hk : 1 ≤ k + fmt.bias) :
    (2 : ℚ) ^ ((k + fmt.bias).toNat - 1) * fmt.ulp = 2 ^ (k - fmt.mant) := by
  unfold ulp
  rw [← zpow_natCast, ← zpow_add₀ two_ne_zero]
  congr 1
  omega

/-- A number from the smallest normal value on, below the largest. -/
theorem exists_binade (hfmt : fmt.IsFp8) {a : ℚ} (hpos : 0 < a)
    (hmin : ¬ (frexp a).2 - 1 + fmt.bias ≤ 0) (hmax : a < fmt.maxf) : ∃ e, fmt.Binade a e := by
  have hexp := two_le_exp hfmt
  have hfield : (frexp a).2 - 1 + fmt.bias = Int.log 2 a + fmt.bias := by
    unfold frexp
    dsimp only
    omega
  rw [hfield, not_le] at hmin
  have hscale : _ * fmt.ulp = _ := binade_scale (Int.log 2 a) hmin
  have hlow : (2 : ℚ) ^ Int.log 2 a ≤ a := by
    exact_mod_cast Int.zpow_log_le_self (b := 2) one_lt_two hpos
  have hhigh : a < (2 : ℚ) ^ (Int.log 2 a + 1) := by
    exact_mod_cast Int.lt_zpow_succ_log_self (b := 2) one_lt_two a
  have hlo : (2 : ℚ) ^ fmt.mant * 2 ^ (Int.log 2 a - fmt.mant) = 2 ^ Int.log 2 a := by
    rw [← zpow_natCast, ← zpow_add₀ two_ne_zero, add_sub_cancel]
  have hhi : (2 : ℚ) ^ (fmt.mant + 1) * 2 ^ (Int.log 2 a - fmt.mant) = 2 ^ (Int.log 2 a + 1) := by
    rw [pow_succ, mul_right_comm, hlo, zpow_add_one₀ two_ne_zero]
  have hlow' : (2 : ℚ) ^ fmt.mant * (2 ^ ((Int.log 2 a + fmt.bias).toNat - 1) * fmt.ulp) ≤ a := by
    rw [hscale, hlo]
    exact hlow
  refine ⟨(Int.log 2 a + fmt.bias).toNat, by omega, by omega, ?_, hlow', ?_, ?_⟩
  · by_contra hge
    have hlt : fmt.units (2 ^ fmt.exp - 2) (2 ^ fmt.mant - 1) <
        2 ^ fmt.mant * 2 ^ ((Int.log 2 a + fmt.bias).toNat - 1) :=
      units_lt (Nat.sub_lt (Nat.two_pow_pos _) one_pos) (by omega)
    have hlt' : (fmt.units (2 ^ fmt.exp - 2) (2 ^ fmt.mant - 1) : ℚ) <
        2 ^ fmt.mant * 2 ^ ((Int.log 2 a + fmt.bias).toNat - 1) := by
      exact_mod_cast hlt
    rw [maxf_eq hfmt] at hmax
    rw [← mul_assoc] at hlow'
    exact absurd (hlow'.trans_lt hmax) (mul_lt_mul_of_pos_right hlt' ulp_pos).not_gt
  · rw [hscale, hhi]
    exact hhigh
  · rw [hscale]
    unfold frexp
    dsimp only
    rw [← hhi, pow_succ]
    have hpow : (2 : ℚ) ^ fmt.mant ≠ 0 := pow_ne_zero _ two_ne_zero
    have hgrid : (2 : ℚ) ^ (Int.log 2 a - fmt.mant) ≠ 0 := zpow_ne_zero _ two_ne_zero
    field_simp

theorem even_two_pow (hfmt : fmt.IsFp8) : Even ((2 ^ fmt.mant : Nat) : ℤ) :=
  (Int.even_coe_nat _).mpr (Nat.even_pow.mpr ⟨even_two, hfmt.mant_pos.ne'⟩)

section Binade

variable {a : ℚ} {e : Nat}

theorem Binade.grid_pos (_ : fmt.Binade a e) : (0 : ℚ) < 2 ^ (e - 1) * fmt.ulp :=
  mul_pos (pow_pos two_pos _) ulp_pos

/-- The fields that the encoder gives a value of the binade are those of the value rounded on its
grid. -/
theorem Binade.encodeNormal_eq (hfmt : fmt.IsFp8) (h : fmt.Binade a e) (hmax : a < fmt.maxf) :
    ∃ e' m, fmt.encodeNormal (frexp a).1 e = (e', m) ∧ e' < 2 ^ fmt.exp - 1 ∧ m < 2 ^ fmt.mant ∧
      (fmt.units e' m * fmt.ulp : ℚ) =
        roundHalfEven (a / (2 ^ (e - 1) * fmt.ulp)) * (2 ^ (e - 1) * fmt.ulp) ∧
      (Even (roundHalfEven (a / (2 ^ (e - 1) * fmt.ulp))) → Even m) := by
  have hlow : (((2 ^ fmt.mant : Nat) : ℤ) : ℚ) ≤ a / (2 ^ (e - 1) * fmt.ulp) := by
    rw [le_div_iff₀ h.grid_pos]
    exact_mod_cast h.low
  have hhigh : a / (2 ^ (e - 1) * fmt.ulp) ≤ (((2 ^ fmt.mant * 2 : Nat) : ℤ) : ℚ) := by
    rw [div_le_iff₀ h.grid_pos]
    exact_mod_cast h.high.le
  have hround : roundHalfEven (((frexp a).1 - 1 / 2) * 2 ^ (fmt.mant + 1)) =
      roundHalfEven (a / (2 ^ (e - 1) * fmt.ulp)) - (2 ^ fmt.mant : Nat) := by
    rw [h.frac, ← roundHalfEven_sub (even_two_pow hfmt)]
    push_cast
    rfl
  have hge := le_roundHalfEven hlow
  have hle := roundHalfEven_le hhigh
  unfold encodeNormal
  simp only [hround, Nat.one_shiftLeft]
  generalize hr : roundHalfEven (a / (2 ^ (e - 1) * fmt.ulp)) = r at *
  obtain ⟨n, hn⟩ := Int.eq_ofNat_of_zero_le (sub_nonneg.mpr hge)
  have hr' : r = (2 ^ fmt.mant : Nat) + n := by omega
  by_cases hcarry : ((2 ^ fmt.mant : Nat) : ℤ) ≤ r - (2 ^ fmt.mant : Nat)
  · rw [if_pos hcarry]
    have hn' : n = 2 ^ fmt.mant := by omega
    -- the largest value of the format does not carry
    have hlt : e + 1 < 2 ^ fmt.exp - 1 := by
      by_contra hge
      have htop : e = 2 ^ fmt.exp - 2 := by
        have hlt := h.lt
        omega
      have hpow : 1 ≤ 2 ^ fmt.mant := Nat.one_le_two_pow
      have hbelow : a / (2 ^ (e - 1) * fmt.ulp) ≤
          (((2 ^ fmt.mant + (2 ^ fmt.mant - 1) : Nat) : ℤ) : ℚ) := by
        rw [div_le_iff₀ h.grid_pos]
        rw [maxf_eq hfmt, ← htop, units_pos h.pos, Nat.cast_mul, mul_assoc] at hmax
        exact_mod_cast hmax.le
      have hround := roundHalfEven_le hbelow
      rw [hr] at hround
      omega
    refine ⟨e + 1, 0, ?_, hlt, Nat.two_pow_pos _, ?_, fun _ => Even.zero⟩
    · rw [if_neg (by omega)]
      rfl
    · obtain ⟨k, rfl⟩ := Nat.exists_eq_succ_of_ne_zero h.pos
      rw [units_pos (Nat.succ_ne_zero _), hr', hn']
      push_cast
      rw [pow_succ]
      ring
  · rw [if_neg hcarry]
    refine ⟨e, n, ?_, h.lt, by omega, ?_, ?_⟩
    · rw [hn]
      rfl
    · rw [units_pos h.pos, hr']
      push_cast
      ring
    · intro heven
      rw [hr'] at heven
      exact (Int.even_coe_nat n).mp ((Int.even_add.mp heven).mp (even_two_pow hfmt))

theorem Binade.exists_eq_mul (hfmt : fmt.IsFp8) (h : fmt.Binade a e) {w : ℚ} (hw : w ∈ fmt.values)
    (hlow : 2 ^ fmt.mant * (2 ^ (e - 1) * fmt.ulp) ≤ w) : ∃ k : ℤ,
      w = k * (2 ^ (e - 1) * fmt.ulp) := by
  have hpos : 0 < w := (mul_pos (pow_pos two_pos _) h.grid_pos).trans_le hlow
  obtain ⟨e', m, _, hm, rfl⟩ := exists_units_of_pos hfmt hw hpos
  have hunits : 2 ^ fmt.mant * 2 ^ (e - 1) ≤ fmt.units e' m := by
    rw [← mul_assoc] at hlow
    exact_mod_cast le_of_mul_le_mul_right hlow ulp_pos
  have hle : e ≤ e' := by
    by_contra hlt
    exact absurd (units_lt hm (not_le.mp hlt)) (not_lt.mpr hunits)
  obtain ⟨k, hk⟩ : 2 ^ (e - 1) ∣ fmt.units e' m := dvd_units hle h.pos m
  refine ⟨k, ?_⟩
  rw [hk]
  push_cast
  ring

/-- A value of the binade is encoded by the nearest value of the format. -/
theorem Binade.nearest (hfmt : fmt.IsFp8) (h : fmt.Binade a e) (hmax : a < fmt.maxf) :
    ∃ e' m, fmt.encodeNormal (frexp a).1 e = (e', m) ∧ e' < 2 ^ fmt.exp - 1 ∧ m < 2 ^ fmt.mant ∧
      NearestEven fmt.values fmt.IsEven a (fmt.units e' m * fmt.ulp) := by
  obtain ⟨e', m, hfields, he', hm, hvalue, heven⟩ := h.encodeNormal_eq hfmt hmax
  refine ⟨e', m, hfields, he', hm, ?_⟩
  have hlo : (2 : ℚ) ^ fmt.mant * (2 ^ (e - 1) * fmt.ulp) ∈ fmt.values := by
    have hmem := mag_mem_values hfmt h.lt (Nat.two_pow_pos fmt.mant)
    rw [units_pos h.pos, add_zero] at hmem
    push_cast at hmem
    rwa [mul_assoc] at hmem
  have hhi : ∃ hi ∈ fmt.values, a ≤ hi := by
    refine ⟨fmt.maxf, ?_, hmax.le⟩
    rw [maxf_eq hfmt]
    have hexp := two_le_exp hfmt
    exact mag_mem_values hfmt (by omega) (Nat.sub_lt (Nat.two_pow_pos _) one_pos)
  obtain ⟨hi, hhi, hahi⟩ := hhi
  rw [hvalue]
  refine nearestEven_of_grid h.grid_pos hlo hhi h.low hahi
    (fun w hw hlow _ => h.exists_eq_mul hfmt hw hlow) ?_ ?_
  · rw [← hvalue]
    exact mag_mem_values hfmt he' hm
  · intro hr
    rw [← hvalue]
    exact mag_isEven hfmt he' hm (heven hr)

end Binade

/-! ### Below the smallest normal value -/

section Subnormal

variable {a : ℚ}

/-- All values are multiples of `ulp`. -/
theorem exists_eq_mul_ulp (hfmt : fmt.IsFp8) {w : ℚ} (hw : w ∈ fmt.values) : ∃ k : ℤ,
    w = k * fmt.ulp := by
  obtain ⟨b, e, m, _, _, _, rfl⟩ := (mem_values_iff hfmt).mp hw
  split_ifs
  · refine ⟨-fmt.units e m, ?_⟩
    push_cast
    ring
  · exact ⟨fmt.units e m, by push_cast; ring⟩

/-- The fields of `n` ulps, up to the smallest normal value. -/
def subnormalFields (fmt : FloatFormat) (n : Nat) : Nat × Nat :=
  if 2 ^ fmt.mant ≤ n then (1, 0) else (0, n)

theorem subnormalFields_spec (hfmt : fmt.IsFp8) {n : Nat} (hn : n ≤ 2 ^ fmt.mant) :
    (fmt.subnormalFields n).1 < 2 ^ fmt.exp - 1 ∧ (fmt.subnormalFields n).2 < 2 ^ fmt.mant ∧
      fmt.units (fmt.subnormalFields n).1 (fmt.subnormalFields n).2 = n ∧
      (Even n ↔ Even (fmt.subnormalFields n).2) := by
  have hexp := two_le_exp hfmt
  unfold subnormalFields
  by_cases hle : 2 ^ fmt.mant ≤ n
  · rw [if_pos hle]
    obtain rfl : n = 2 ^ fmt.mant := le_antisymm hn hle
    refine ⟨by omega, Nat.two_pow_pos _, ?_, ?_⟩
    · rw [units_pos one_ne_zero]
      simp
    · exact iff_of_true (Nat.even_pow.mpr ⟨even_two, hfmt.mant_pos.ne'⟩) Even.zero
  · rw [if_neg hle]
    exact ⟨by omega, not_le.mp hle, rfl, Iff.rfl⟩

/-- Rounding to a whole number of ulps gives the nearest value. -/
theorem subnormal_nearest (hfmt : fmt.IsFp8) (hpos : 0 ≤ a) (hmin : a ≤ 2 ^ fmt.mant * fmt.ulp)
    {n : Nat} (hn : roundHalfEven (a / fmt.ulp) = n) :
    NearestEven fmt.values fmt.IsEven a (n * fmt.ulp) := by
  have hle : n ≤ 2 ^ fmt.mant := by
    have hdiv : a / fmt.ulp ≤ (((2 ^ fmt.mant : Nat) : ℤ) : ℚ) := by
      rw [div_le_iff₀ ulp_pos]
      exact_mod_cast hmin
    have hround := roundHalfEven_le hdiv
    omega
  have hmem (k : Nat) (hk : k ≤ 2 ^ fmt.mant) : (k * fmt.ulp : ℚ) ∈ fmt.values := by
    obtain ⟨he, hm, hunits, _⟩ := subnormalFields_spec hfmt hk
    have hmag := mag_mem_values hfmt he hm
    rwa [hunits] at hmag
  have hhi := hmem _ le_rfl
  push_cast at hhi
  have hgrid := nearestEven_of_grid (E := fmt.IsEven) ulp_pos (zero_mem_values hfmt) hhi hpos hmin
    (fun w hw _ _ => exists_eq_mul_ulp hfmt hw) (x := a)
  rw [hn] at hgrid
  refine hgrid (hmem n hle) ?_
  intro heven
  obtain ⟨he, hm, hunits, hiff⟩ := subnormalFields_spec hfmt hle
  have hmag := mag_isEven hfmt he hm (hiff.mp ((Int.even_coe_nat n).mp heven))
  rwa [hunits] at hmag

/-- The encoder counts in half ulps. -/
theorem encodeSubnormal_eq (hpos : 0 ≤ a) :
    ∃ n : Nat, roundHalfEven (2 * (a / fmt.ulp)) = n ∧
      fmt.encodeSubnormal a = fmt.subnormalFields (min n (2 ^ fmt.mant)) := by
  have hstep : a / 2 ^ (-fmt.bias - fmt.mant : ℤ) = 2 * (a / fmt.ulp) := by
    have hulp : fmt.ulp = 2 * 2 ^ (-fmt.bias - fmt.mant : ℤ) := by
      unfold ulp
      rw [← zpow_one_add₀ two_ne_zero]
      congr 1
      omega
    have hne : (2 : ℚ) ^ (-fmt.bias - fmt.mant : ℤ) ≠ 0 := zpow_ne_zero _ two_ne_zero
    rw [hulp]
    field_simp
  have hzero : ((0 : ℤ) : ℚ) ≤ 2 * (a / fmt.ulp) := by
    rw [Int.cast_zero]
    exact mul_nonneg two_pos.le (div_nonneg hpos ulp_pos.le)
  obtain ⟨n, hn⟩ := Int.eq_ofNat_of_zero_le (le_roundHalfEven hzero)
  refine ⟨n, hn, ?_⟩
  unfold encodeSubnormal subnormalFields
  simp only [hstep, hn, Nat.one_shiftLeft, Int.toNat_natCast, Nat.cast_le]
  by_cases hle : 2 ^ fmt.mant ≤ n
  · rw [if_pos hle, if_pos (le_min hle le_rfl)]
  · rw [if_neg hle, min_eq_left (not_le.mp hle).le, if_neg hle]

theorem not_isEven_ulp (hfmt : fmt.IsFp8) : ¬ fmt.IsEven fmt.ulp := by
  intro h
  obtain ⟨b, e, m, _, _, _, heven, hulp⟩ := (isEven_iff hfmt).mp h
  have hmag : 0 ≤ (fmt.units e m : ℚ) * fmt.ulp := mul_nonneg (Nat.cast_nonneg _) ulp_pos.le
  have hpos : 0 < fmt.ulp := ulp_pos
  split_ifs at hulp with hb
  · linarith
  · have hone : fmt.units e m = 1 := by
      rw [one_mul] at hulp
      exact_mod_cast mul_right_cancel₀ ulp_pos.ne' (hulp.symm.trans (one_mul _).symm)
    by_cases he : e = 0
    · rw [units, if_pos he] at hone
      rw [hone] at heven
      exact absurd heven (by decide)
    · rw [units_pos he] at hone
      have hpow : 2 ^ 1 ≤ 2 ^ fmt.mant := Nat.pow_le_pow_right two_pos hfmt.mant_pos
      have hone' := Nat.eq_one_of_mul_eq_one_right hone
      omega

/-- Twice `u` rounded, up to `p`, is `u` rounded. -/
theorem round_double_eq {u : ℚ} {n p : Nat} (hu : 0 < u) (hp : 2 ≤ p) (heven : Even p) (hup : u < p)
    (hn : roundHalfEven (2 * u) = n) (h : u ≤ 1 / 4 ∨ 1 / 2 < u ∧ u < 3 / 4 ∨ p - 1 / 2 ≤ u) :
    roundHalfEven u = (min n p : Nat) := by
  have hp' : (2 : ℚ) ≤ p := by exact_mod_cast hp
  obtain hlow | ⟨hmid, hmid'⟩ | hhigh := h
  · have hzero : roundHalfEven (2 * u) = 0 := by
      apply roundHalfEven_eq
      rw [Int.cast_zero, sub_zero, abs_of_pos (by linarith)]
      obtain hlt | heq := hlow.lt_or_eq
      · exact .inl (by linarith)
      · exact .inr ⟨by linarith, Even.zero⟩
    obtain rfl : n = 0 := by omega
    rw [Nat.zero_min, Nat.cast_zero]
    apply roundHalfEven_eq
    left
    rw [Int.cast_zero, sub_zero, abs_of_pos hu]
    linarith
  · have hone : roundHalfEven (2 * u) = 1 := by
      apply roundHalfEven_eq
      left
      rw [Int.cast_one, abs_lt]
      constructor <;> linarith
    obtain rfl : n = 1 := by omega
    rw [min_eq_left (by omega), Nat.cast_one]
    apply roundHalfEven_eq
    left
    rw [Int.cast_one, abs_lt]
    constructor <;> linarith
  · have hge : (p : ℤ) ≤ roundHalfEven (2 * u) := by
      apply le_roundHalfEven
      push_cast
      linarith
    rw [min_eq_right (by omega)]
    apply roundHalfEven_eq
    push_cast
    rw [abs_of_neg (by linarith)]
    obtain hlt | heq := hhigh.lt_or_eq
    · exact .inl (by linarith)
    · exact .inr ⟨by linarith, (Int.even_coe_nat p).mpr heven⟩

/-- Elsewhere it is farther off, or in a tie and odd. -/
theorem round_double_far {u : ℚ} {n p : Nat} (hup : u < p - 1 / 2)
    (hn : roundHalfEven (2 * u) = n) (hlow : 1 / 4 < u) (hmid : ¬ (1 / 2 < u ∧ u < 3 / 4)) :
    u ≤ 1 / 2 ∧ n = 1 ∨ 1 / 2 < |u - (min n p : Nat)| := by
  by_cases hhalf : u ≤ 1 / 2
  · left
    refine ⟨hhalf, ?_⟩
    have hone : roundHalfEven (2 * u) = 1 := by
      apply roundHalfEven_eq
      left
      rw [Int.cast_one, abs_lt]
      constructor <;> linarith
    omega
  · right
    have hthree : 3 / 4 ≤ u := by
      rw [not_and, not_lt] at hmid
      exact hmid (not_le.mp hhalf)
    have hspec := roundHalfEven_spec (2 * u)
    have hclose := (abs_le.mp (abs_sub_roundHalfEven_le (2 * u))).2
    rw [hn] at hspec hclose
    push_cast at hspec hclose
    have htwo : 2 ≤ n := by
      obtain hlt | ⟨_, heven⟩ := hspec
      · have hgt := (abs_lt.mp hlt).2
        have hone : (1 : ℚ) < n := by linarith
        exact_mod_cast hone
      · have hone : (1 : ℚ) ≤ n := by linarith
        have hone' : 1 ≤ n := by exact_mod_cast hone
        obtain ⟨k, hk⟩ := heven
        omega
    have htwo' : (2 : ℚ) ≤ n := by exact_mod_cast htwo
    rw [abs_sub_comm]
    refine lt_of_lt_of_le ?_ (le_abs_self _)
    obtain hle | hgt := le_total n p
    · rw [min_eq_left hle]
      obtain hu | hu := le_or_gt u 1
      · linarith
      · linarith
    · rw [min_eq_right hgt]
      linarith

/-- Where counting in half ulps finds the nearest value. -/
theorem halfUlps_nearest_iff (hfmt : fmt.IsFp8) (hpos : 0 < a) (hmin : a < 2 ^ fmt.mant * fmt.ulp)
    {n : Nat} (hn : roundHalfEven (2 * (a / fmt.ulp)) = n) :
    NearestEven fmt.values fmt.IsEven a ((min n (2 ^ fmt.mant) : Nat) * fmt.ulp) ↔
      a / fmt.ulp ≤ 1 / 4 ∨ 1 / 2 < a / fmt.ulp ∧ a / fmt.ulp < 3 / 4 ∨
        2 ^ fmt.mant - 1 / 2 ≤ a / fmt.ulp := by
  have hulp : 0 < fmt.ulp := ulp_pos
  have hdist (k : ℚ) : |a - k * fmt.ulp| = |a / fmt.ulp - k| * fmt.ulp := by
    rw [← abs_of_pos hulp, ← abs_mul, abs_of_pos hulp, sub_mul, div_mul_cancel₀ _ hulp.ne']
  have hu : 0 < a / fmt.ulp := div_pos hpos hulp
  have hup : a / fmt.ulp < ((2 ^ fmt.mant : Nat) : ℚ) := by
    rw [div_lt_iff₀ hulp]
    exact_mod_cast hmin
  have hp : 2 ^ 1 ≤ 2 ^ fmt.mant := Nat.pow_le_pow_right two_pos hfmt.mant_pos
  have hcast : (2 : ℚ) ^ fmt.mant = ((2 ^ fmt.mant : Nat) : ℚ) := by
    push_cast
    rfl
  rw [hcast]
  constructor
  · intro hnear
    by_contra hout
    rw [not_or, not_or, not_le, not_le] at hout
    obtain ⟨hlow, hmid, hhigh⟩ := hout
    obtain ⟨m, hm⟩ := Int.eq_ofNat_of_zero_le
      (le_roundHalfEven (x := a / fmt.ulp) (n := 0) (by rw [Int.cast_zero]; exact hu.le))
    have hround := subnormal_nearest hfmt hpos.le hmin.le hm
    obtain ⟨hhalf, rfl⟩ | hfar := round_double_far hhigh hn hlow hmid
    · have hone : min 1 (2 ^ fmt.mant) = 1 := min_eq_left Nat.one_le_two_pow
      rw [hone, Nat.cast_one, one_mul] at hnear
      have hdist0 : |a - 0| = |a / fmt.ulp - 0| * fmt.ulp := by
        rw [← hdist, zero_mul]
      have hdist1 : |a - fmt.ulp| = |a / fmt.ulp - 1| * fmt.ulp := by
        rw [← hdist, one_mul]
      have hle := hnear.nearest 0 (zero_mem_values hfmt)
      rw [hdist0, hdist1] at hle
      have hle' := le_of_mul_le_mul_right hle hulp
      rw [abs_of_neg (by linarith), sub_zero, abs_of_pos hu] at hle'
      have htie : |a / fmt.ulp - 0| = |a / fmt.ulp - 1| := by
        rw [sub_zero, abs_of_pos hu, abs_of_neg (by linarith)]
        linarith
      exact not_isEven_ulp hfmt
        (hnear.tie 0 (zero_mem_values hfmt) hulp.ne (by rw [hdist0, hdist1, htie]))
    · have hle := hnear.nearest _ hround.mem
      rw [hdist, hdist] at hle
      have hle' := le_of_mul_le_mul_right hle hulp
      have hclose := abs_sub_roundHalfEven_le (a / fmt.ulp)
      rw [hm] at hclose
      push_cast at hclose hle' hfar
      linarith
  · intro hregion
    exact subnormal_nearest hfmt hpos.le hmin.le
      (round_double_eq hu hp (Nat.even_pow.mpr ⟨even_two, hfmt.mant_pos.ne'⟩) hup hn hregion)

end Subnormal

/-! ### The encoder -/

/-- A number below the smallest normal value is one that the encoder takes for subnormal. -/
theorem lt_of_eField_le {a : ℚ} (h : (frexp a).2 - 1 + fmt.bias ≤ 0) :
    a < 2 ^ fmt.mant * fmt.ulp := by
  have hscale : (2 : ℚ) ^ fmt.mant * fmt.ulp = 2 ^ (1 - fmt.bias) := by
    unfold ulp
    rw [← zpow_natCast, ← zpow_add₀ two_ne_zero]
    congr 1
    omega
  have hhigh : a < (2 : ℚ) ^ (Int.log 2 a + 1) := by
    exact_mod_cast Int.lt_zpow_succ_log_self (b := 2) one_lt_two a
  rw [hscale]
  refine hhigh.trans_le (zpow_le_zpow_right₀ one_le_two ?_)
  unfold frexp at h
  dsimp only at h
  omega

theorem encodable_of_min_le {a : ℚ} (hpos : 0 < a) (h : 2 ^ fmt.mant * fmt.ulp ≤ a) :
    fmt.Encodable (.finite a) := by
  have hulp : 0 < fmt.ulp := ulp_pos
  right
  right
  rw [abs_of_pos hpos, sub_mul]
  linarith

/-- The fields of a positive number. -/
theorem encodeFields_spec (hfmt : fmt.IsFp8) {a : ℚ} (hpos : 0 < a) :
    (fmt.encodeFields a).1 < 2 ^ fmt.exp - 1 ∧ (fmt.encodeFields a).2 < 2 ^ fmt.mant ∧
      (NearestEven fmt.values fmt.IsEven a
        (fmt.units (fmt.encodeFields a).1 (fmt.encodeFields a).2 * fmt.ulp) ↔
          fmt.Encodable (.finite a)) := by
  have hexp := two_le_exp hfmt
  have hulp : 0 < fmt.ulp := ulp_pos
  unfold encodeFields
  by_cases hmax : fmt.maxf ≤ a
  · rw [if_pos hmax, Nat.one_shiftLeft]
    have hm : 2 ^ fmt.mant - 1 < 2 ^ fmt.mant := Nat.sub_lt (Nat.two_pow_pos _) one_pos
    have hmem := mag_mem_values hfmt (e := 2 ^ fmt.exp - 2) (by omega) hm
    refine ⟨by dsimp only; omega, hm, ?_⟩
    dsimp only
    rw [← maxf_eq hfmt] at hmem ⊢
    refine iff_of_true (nearestEven_of_le hmem (fun w hw => le_maxf hfmt hw) hmax)
      (encodable_of_min_le hpos ?_)
    have hnormal :=
      le_maxf hfmt (mag_mem_values hfmt (e := 1) (by omega) (Nat.two_pow_pos fmt.mant))
    rw [units_pos one_ne_zero, Nat.sub_self, pow_zero, mul_one, add_zero] at hnormal
    push_cast at hnormal
    exact hnormal.trans hmax
  · rw [if_neg hmax]
    dsimp only
    by_cases hsub : (frexp a).2 - 1 + fmt.bias ≤ 0
    · rw [if_pos hsub]
      have hmin := lt_of_eField_le hsub
      obtain ⟨n, hn, hfields⟩ : ∃ n : Nat, roundHalfEven (2 * (a / fmt.ulp)) = n ∧ _ :=
        encodeSubnormal_eq hpos.le
      obtain ⟨he, hm, hunits, _⟩ := subnormalFields_spec hfmt (min_le_right n _)
      rw [hfields]
      refine ⟨he, hm, ?_⟩
      rw [hunits, halfUlps_nearest_iff hfmt hpos hmin hn]
      simp only [Encodable]
      rw [abs_of_pos hpos, div_le_iff₀ hulp, lt_div_iff₀ hulp, div_lt_iff₀ hulp, le_div_iff₀ hulp]
    · rw [if_neg hsub]
      obtain ⟨e, h⟩ := exists_binade hfmt hpos hsub (not_le.mp hmax)
      obtain ⟨e', m, hfields, he', hm, hnear⟩ := h.nearest hfmt (not_le.mp hmax)
      rw [h.field, hfields]
      refine ⟨he', hm, iff_of_true hnear (encodable_of_min_le hpos (le_trans ?_ h.low))⟩
      rw [mul_comm (2 ^ (e - 1)), ← mul_assoc]
      exact le_mul_of_one_le_right (mul_pos (pow_pos two_pos _) hulp).le (one_le_pow₀ one_le_two)

theorem nearestEven_neg_iff (hfmt : fmt.IsFp8) {x v : ℚ} :
    NearestEven fmt.values fmt.IsEven (-x) (-v) ↔ NearestEven fmt.values fmt.IsEven x v := by
  have hneg {x v : ℚ} (h : NearestEven fmt.values fmt.IsEven x v) :
      NearestEven fmt.values fmt.IsEven (-x) (-v) :=
    h.neg (fun w hw => neg_mem_values hfmt hw) fun w hw => neg_isEven hfmt hw
  constructor
  · intro h
    have hback := hneg h
    rwa [neg_neg, neg_neg] at hback
  · exact hneg

/-- The codes of infinities and of NaN do not fit in a byte. -/
theorem special_code_ge (hfmt : fmt.IsFp8) : 256 ≤ 0x7F <<< (fmt.mant + 1) := by
  have hpow : 2 ^ 2 ≤ 2 ^ (fmt.mant + 1) :=
    Nat.pow_le_pow_right two_pos (Nat.succ_le_succ hfmt.mant_pos)
  rw [Nat.shiftLeft_eq]
  omega

theorem encodeFloat_zero : fmt.encodeFloat (.finite 0) = fmt.code 0 0 0 := by
  unfold encodeFloat code
  simp

theorem encodeFloat_of_ne_zero (hfmt : fmt.IsFp8) {x : ℚ} (hx : x ≠ 0) :
    fmt.encodeFloat (.finite x) =
      fmt.code (if x < 0 then 1 else 0) (fmt.encodeFields |x|).1 (fmt.encodeFields |x|).2 := by
  obtain ⟨he, hm, _⟩ := encodeFields_spec hfmt (abs_pos.mpr hx)
  rw [← or_eq_code (by omega) hm]
  unfold encodeFloat
  simp only [abs_eq_zero, if_neg hx]

/-- Signs do not matter to what is nearest, nor to the code. -/
theorem faithful_finite_iff (hfmt : fmt.IsFp8) {x : ℚ} (hx : x ≠ 0) :
    fmt.Faithful (.finite x) ↔ fmt.Encodable (.finite x) := by
  obtain ⟨he, hm, hiff⟩ := encodeFields_spec hfmt (abs_pos.mpr hx)
  have hb : (if x < 0 then 1 else 0) < 2 := by
    split <;> decide
  have hdecode := decodeFloat_code hb he hm
  have hencodable : fmt.Encodable (.finite x) ↔ fmt.Encodable (.finite |x|) := by
    simp only [Encodable, abs_abs]
  rw [hencodable, ← hiff]
  unfold Faithful
  rw [encodeFloat_of_ne_zero hfmt hx]
  dsimp only
  rw [hdecode, and_iff_right (code_lt (by omega) hm hfmt hb)]
  simp only [PyFloat.finite.injEq, exists_eq_left']
  by_cases hneg : x < 0
  · rw [if_pos hneg, if_pos one_ne_zero, abs_of_neg hneg, neg_one_mul, ← nearestEven_neg_iff hfmt,
      neg_neg]
  · rw [if_neg hneg, if_neg (not_not.mpr rfl), abs_of_nonneg (not_lt.mp hneg), one_mul]

theorem faithful_iff (hfmt : fmt.IsFp8) (f : PyFloat) : fmt.Faithful f ↔ fmt.Encodable f := by
  have hge := special_code_ge hfmt
  cases f with
  | nan =>
      refine iff_of_false ?_ id
      rintro ⟨hlt, _⟩
      have hor : _ ≤ fmt.encodeFloat .nan := Nat.left_le_or
      omega
  | inf negative =>
      refine iff_of_false ?_ id
      rintro ⟨hlt, _⟩
      have hor : 0x7F <<< (fmt.mant + 1) ≤ fmt.encodeFloat (.inf negative) := by
        unfold encodeFloat
        dsimp only
        split
        · exact Nat.left_le_or
        · exact le_rfl
      omega
  | finite x =>
      by_cases hx : x = 0
      · subst hx
        have hexp := two_le_exp hfmt
        have hzero : fmt.decodeFloat (fmt.code 0 0 0) = _ :=
          decodeFloat_code two_pos (by omega) (Nat.two_pow_pos _)
        have hcode : fmt.code 0 0 0 < 256 := code_lt (by omega) (Nat.two_pow_pos _) hfmt two_pos
        refine iff_of_true ?_ (.inl ?_)
        · unfold Faithful
          rw [encodeFloat_zero]
          refine ⟨hcode, 0, ?_, nearestEven_self (zero_mem_values hfmt)⟩
          rw [hzero, units, if_pos rfl, Nat.cast_zero, zero_mul, mul_zero]
        · rw [abs_zero]
          exact mul_nonneg (by norm_num) ulp_pos.le
      · exact faithful_finite_iff hfmt hx

/-- **Encoding to FP8.** In both formats a number is encoded by a byte that decodes to the nearest
value, ties to even, exactly if it is zero or nearly, or lies between one half and three quarters of
an `ulp`, or at most half an `ulp` below the smallest normal value or above. -/
theorem fp8_faithful_iff (f : PyFloat) :
    (e4m3.Faithful f ↔ e4m3.Encodable f) ∧ (e5m2.Faithful f ↔ e5m2.Encodable f) :=
  ⟨faithful_iff e4m3_isFp8 f, faithful_iff e5m2_isFp8 f⟩

/-- The smallest positive value of E4M3 is encoded by twice itself. -/
theorem not_forall_faithful : ¬ ∀ f, e4m3.Faithful f := by
  intro h
  obtain ⟨_, v, hdecode, hnear⟩ := h (.finite (1 / 512))
  have hcode : e4m3.encodeFloat (.finite (1 / 512)) = 2 := by
    decide +kernel
  have htwice : e4m3.decodeFloat 2 = .finite (1 / 256) := by
    decide +kernel
  rw [hcode, htwice] at hdecode
  obtain rfl := PyFloat.finite.inj hdecode
  have hle := hnear.nearest (1 / 512) ⟨1, by decide, by decide +kernel⟩
  rw [sub_self, abs_zero] at hle
  norm_num at hle

end BradVector.Tifa.FloatFormat
