import BradVector.TifaQuant
import Mathlib.Data.List.Forall2
import Mathlib.Tactic.IntervalCases
import Mathlib.Tactic.NormNum

/-!
# The integer quantizer

In dynamic mode the scale is the largest absolute value itself, so that the elements are rounded to
-1, 0 or 1 and the other codes are never used.
-/

namespace BradVector.Tifa

open CSem

/-! ### Codes -/

section Codes

variable {n : Nat} {f : ℚ} {z : ℤ}

theorem two_pow_pred (hn : 0 < n) : (2 : ℤ) ^ n = 2 * 2 ^ (n - 1) := by
  rw [← pow_succ', Nat.sub_add_cancel hn]

/-- The code of a number in the range of the format decodes to it. -/
theorem intDecode_ofInt (hn : 0 < n) (hlow : -(2 ^ (n - 1)) ≤ z) (hhigh : z ≤ 2 ^ (n - 1) - 1) :
    intDecode n (BitVec.ofInt n z).toNat = z := by
  have hpow := two_pow_pred hn
  have hcast : ((1 <<< n : Nat) : ℤ) = 2 ^ n := by simp [Nat.shiftLeft_eq]
  have hhalf : ((1 <<< (n - 1) : Nat) : ℤ) = 2 ^ (n - 1) := by simp [Nat.shiftLeft_eq]
  have hcode : (((BitVec.ofInt n z).toNat : Nat) : ℤ) = z % 2 ^ n := by
    rw [BitVec.toNat_ofInt]
    have hpos : (0 : ℤ) ≤ z % 2 ^ n := Int.emod_nonneg _ (by positivity)
    exact_mod_cast Int.toNat_of_nonneg hpos
  unfold intDecode
  dsimp only
  by_cases hz : 0 ≤ z
  · have hmod : z % 2 ^ n = z := Int.emod_eq_of_lt hz (by omega)
    rw [hmod] at hcode
    rw [if_pos (by omega)]
    exact_mod_cast hcode
  · have hmod : z % 2 ^ n = z + 2 ^ n := by
      rw [← Int.add_emod_right]
      exact Int.emod_eq_of_lt (by omega) (by omega)
    rw [hmod] at hcode
    rw [if_neg (by omega)]
    have hvalue : (((BitVec.ofInt n z).toNat : Nat) : ℤ) - ((1 <<< n : Nat) : ℤ) = z := by omega
    exact_mod_cast hvalue

theorem abs_roundHalfEven_le_one (hf : |f| ≤ 1) : -1 ≤ roundHalfEven f ∧ roundHalfEven f ≤ 1 := by
  rw [abs_le] at hf
  constructor
  · apply le_roundHalfEven
    push_cast
    exact hf.1
  · apply roundHalfEven_le
    push_cast
    exact hf.2

/-- **A number between -1 and 1** is not clamped. -/
theorem intDecode_intEncode (hn : 2 ≤ n) (hf : |f| ≤ 1) :
    intDecode n (intEncode n f) = roundHalfEven f := by
  obtain ⟨hlow, hhigh⟩ := abs_roundHalfEven_le_one hf
  have hpow : (2 : ℤ) ≤ 2 ^ (n - 1) := by
    calc (2 : ℤ) = 2 ^ 1 := by norm_num
      _ ≤ 2 ^ (n - 1) := pow_le_pow_right₀ (by norm_num) (by omega)
  unfold intEncode
  dsimp only
  rw [max_eq_right (by omega), min_eq_right (by omega)]
  exact intDecode_ofInt (by omega) (by omega) (by omega)

theorem intEncode_lt (n : Nat) (f : ℚ) : intEncode n f < 2 ^ n := BitVec.isLt _

/-- The distance of a number between -1 and 1 from its rounding is that from 0, 1 or -1. -/
theorem abs_round_sub_le_iff (hf : |f| ≤ 1) {t : ℚ} :
    |roundHalfEven f - f| ≤ t ↔ |f| ≤ t ∨ 1 - |f| ≤ t := by
  have hnearest := roundHalfEven_nearest f
  rw [abs_sub_comm]
  constructor
  · intro hle
    obtain ⟨hlow, hhigh⟩ := abs_roundHalfEven_le_one hf
    have hround : |roundHalfEven f| = 0 ∨ |roundHalfEven f| = 1 := by
      obtain h | h | h : roundHalfEven f = -1 ∨ roundHalfEven f = 0 ∨
        roundHalfEven f = 1 := by omega
      · exact .inr (by rw [h]; rfl)
      · exact .inl (by rw [h]; rfl)
      · exact .inr (by rw [h]; rfl)
    obtain hzero | hone := hround
    · rw [abs_eq_zero.mp hzero, Int.cast_zero, sub_zero] at hle
      exact .inl hle
    · have hcast : |(roundHalfEven f : ℚ)| = 1 := by exact_mod_cast hone
      have hfar := abs_sub_abs_le_abs_sub (roundHalfEven f : ℚ) f
      rw [hcast, abs_sub_comm] at hfar
      exact .inr (hfar.trans hle)
  · rintro (hle | hle)
    · have hzero := hnearest 0
      rw [Int.cast_zero, sub_zero] at hzero
      exact hzero.trans hle
    · rcases abs_cases f with ⟨habs, -⟩ | ⟨habs, -⟩
      · have hone := hnearest 1
        have hdist : |f - 1| = 1 - |f| := by
          rw [abs_sub_comm, abs_of_nonneg (by linarith), habs]
        rw [Int.cast_one, hdist] at hone
        exact hone.trans hle
      · have hone := hnearest (-1)
        have hdist : |f - -1| = 1 - |f| := by
          rw [abs_of_nonneg (by linarith), habs]
          ring
        rw [Int.cast_neg, Int.cast_one, hdist] at hone
        exact hone.trans hle

end Codes

/-! ### Tensors -/

theorem abs_le_absMax {values : List ℚ} {v : ℚ} (hv : v ∈ values) : |v| ≤ absMax values := by
  have hmem : |v| ∈ values.map fun v => |v| := List.mem_map_of_mem hv
  unfold absMax
  cases hmax : (values.map fun v => |v|).max? with
  | none =>
      rw [List.max?_eq_none_iff] at hmax
      rw [hmax] at hmem
      cases hmem
  | some m =>
      rw [List.max?_eq_some_iff] at hmax
      exact hmax.2 _ hmem

/-- The error that half a step of the format would be, with the range divided evenly. -/
def halfStep (dtype : IntDtype) (maxAbs : ℚ) : ℚ := maxAbs / (2 * (2 ^ (dtype.bits - 1) - 1))

/-- The codes have the width of the format, and decode to within half a step of the values. -/
def Quantizer.Accurate (q : Quantizer) (values : List ℚ) : Prop :=
  let (codes, scale) := (q.quantize values).1
  List.Forall₂ (fun v code => code < 2 ^ q.dtype.bits ∧
    |intDecode q.dtype.bits code * scale - v| ≤ halfStep q.dtype (absMax values)) values codes

theorem element_accurate_iff (dtype : IntDtype) {v m : ℚ} (hv : |v| ≤ m) :
    |intDecode dtype.bits (intEncode dtype.bits (v / if m = 0 then 1 else m)) *
      (if m = 0 then 1 else m) -
        v| ≤ halfStep dtype m ↔
      |v| ≤ halfStep dtype m ∨ m - |v| ≤ halfStep dtype m := by
  have hn : 2 ≤ dtype.bits := by cases dtype <;> decide
  by_cases hm : m = 0
  · subst hm
    obtain rfl : v = 0 := abs_nonpos_iff.mp hv
    have hzero : roundHalfEven (0 : ℚ) = 0 := roundHalfEven_eq (.inl (by norm_num))
    rw [if_pos rfl, div_one, intDecode_intEncode hn (by norm_num), hzero, halfStep]
    norm_num
  · have hpos : 0 < m := lt_of_le_of_ne ((abs_nonneg v).trans hv) (Ne.symm hm)
    have hunit : |v / m| ≤ 1 := by
      rw [abs_div, abs_of_pos hpos, div_le_one hpos]
      exact hv
    rw [if_neg hm, intDecode_intEncode hn hunit]
    have herror : |roundHalfEven (v / m) * m - v| = |roundHalfEven (v / m) - v / m| * m := by
      rw [← abs_of_pos hpos, ← abs_mul, abs_of_pos hpos, sub_mul, div_mul_cancel₀ v hm]
    have hscale : |v| = |v / m| * m := by
      rw [abs_div, abs_of_pos hpos, div_mul_cancel₀ _ hm]
    rw [herror, ← le_div_iff₀ hpos, abs_round_sub_le_iff hunit, le_div_iff₀ hpos, le_div_iff₀ hpos,
      sub_mul, one_mul, ← hscale]

/-- **The integer quantizer in dynamic mode** is accurate to half a step exactly if every value lies
within half a step of zero or of the largest absolute value, up to the sign. -/
theorem quantize_accurate_iff (dtype : IntDtype) (scale : Option ℚ) (values : List ℚ) :
    (Quantizer.mk dtype .dynamic scale).Accurate values ↔
      ∀ v ∈ values, |v| ≤ halfStep dtype (absMax values) ∨
        absMax values - |v| ≤ halfStep dtype (absMax values) := by
  unfold Quantizer.Accurate
  change List.Forall₂ _ values (values.map _) ↔ _
  rw [List.forall₂_map_right_iff, List.forall₂_same]
  refine forall₂_congr fun v hv => ?_
  rw [← element_accurate_iff dtype (abs_le_absMax hv)]
  exact and_iff_right (intEncode_lt _ _)

/-- Half of the largest value is encoded by zero. -/
theorem half_not_accurate : ¬ (Quantizer.mk .int8 .dynamic none).Accurate [1, 1 / 2] := by
  rintro (_ | ⟨-, _ | ⟨⟨-, herror⟩, -⟩⟩)
  revert herror
  decide +kernel

end BradVector.Tifa
