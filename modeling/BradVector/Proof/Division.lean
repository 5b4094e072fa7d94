import BradVector.Library.LongDivision
import BradVector.WasmShim

/-!
# The 64-bit divisions

`udivmod` is a long division. The signed functions divide the magnitudes, the magnitude of the least
number being right as an unsigned one.
-/

namespace BradVector

open CSem

section Unsigned

variable {a b : Size} {qr : Size × Size} {i k : Nat}

/-- The remainder that `udivmod` compares in the round for bit `i`. -/
theorem toNat_shifted (h : LongDivision a.toNat b.toNat (i + 1) qr.1.toNat qr.2.toNat) :
    ((qr.2 <<< 1) ||| (((a >>> i) &&& 1).setWidth 8 : Byte).setWidth 64).toNat =
      bringDown a.toNat i qr.2.toNat := by
  have hroom : qr.2.toNat < 2 ^ 63 := h.remainder_lt a.isLt
  have hshift : (qr.2 <<< 1).toNat = qr.2.toNat <<< 1 := by
    rw [BitVec.toNat_shiftLeft, Nat.shiftLeft_eq]
    omega
  have hbit : ((((a >>> i) &&& 1).setWidth 8 : Byte).setWidth 64).toNat = a.toNat / 2 ^ i % 2 := by
    have hand : ((a >>> i) &&& 1).toNat = a.toNat / 2 ^ i % 2 := by
      rw [BitVec.toNat_and, BitVec.toNat_ushiftRight, Nat.shiftRight_eq_div_pow]
      exact Nat.and_one_is_mod _
    rw [BitVec.toNat_setWidth, BitVec.toNat_setWidth, hand]
    omega
  rw [BitVec.toNat_or, hshift, hbit, ← Nat.shiftLeft_add_eq_or_of_lt (by omega), Nat.shiftLeft_eq,
    bringDown]
  omega

/-- The bit that a round sets in the quotient is not set yet. -/
theorem toNat_setBit (hi : i < 64) (h : LongDivision a.toNat b.toNat
    (i + 1) qr.1.toNat qr.2.toNat) :
    (qr.1 ||| ((1 : Size) <<< i)).toNat = qr.1.toNat + 2 ^ i := by
  obtain ⟨m, hq, -⟩ := h.brought
  have hpow : 2 ^ i < 2 ^ 64 := Nat.pow_lt_pow_right (by omega) hi
  have hone : ((1 : Size) <<< i).toNat = 2 ^ i := by
    rw [BitVec.toNat_shiftLeft, Nat.shiftLeft_eq]
    change 1 * 2 ^ i % 2 ^ 64 = 2 ^ i
    rw [Nat.one_mul, Nat.mod_eq_of_lt hpow]
  rw [BitVec.toNat_or, hone, hq, ← Nat.shiftLeft_eq, ← Nat.shiftLeft_add_eq_or_of_lt]
  exact Nat.pow_lt_pow_right (by omega) (by omega)

theorem udivmodRound_divides (hi : i < 64)
    (h : LongDivision a.toNat b.toNat (i + 1) qr.1.toNat qr.2.toNat) :
    LongDivision a.toNat b.toNat i (udivmodRound a b i qr).1.toNat
      (udivmodRound a b i qr).2.toNat := by
  have hshifted := toNat_shifted h
  unfold udivmodRound
  dsimp only
  split_ifs with hle
  · rw [toNat_setBit hi h, BitVec.toNat_sub_of_le hle, hshifted]
    rw [BitVec.le_def, hshifted] at hle
    exact h.subtract hle
  · rw [hshifted]
    rw [BitVec.le_def, hshifted, not_le] at hle
    exact h.keep hle

/-- **Every round** of `udivmod` is one of a long division. -/
theorem udivmodLoop_divides (hb : b ≠ 0) (hk : k ≤ 64) :
    LongDivision a.toNat b.toNat (64 - k) (udivmodLoop a b k).1.toNat
      (udivmodLoop a b k).2.toNat := by
  induction k with
  | zero =>
      refine LongDivision.start a.isLt (Nat.pos_of_ne_zero fun h => hb ?_)
      exact BitVec.eq_of_toNat_eq h
  | succ k ih =>
      have hbits : 64 - k = 63 - k + 1 := by omega
      have hrest : 64 - (k + 1) = 63 - k := by omega
      have hloop := ih (by omega)
      rw [hbits] at hloop
      rw [hrest]
      exact udivmodRound_divides (by omega) hloop

theorem udivdi3_eq (hb : b ≠ 0) : udivdi3 a b = a / b := by
  apply BitVec.eq_of_toNat_eq
  rw [BitVec.toNat_udiv]
  exact (udivmodLoop_divides hb (Nat.le_refl 64)).done.1

theorem umoddi3_eq (hb : b ≠ 0) : umoddi3 a b = a % b := by
  apply BitVec.eq_of_toNat_eq
  rw [BitVec.toNat_umod]
  exact (udivmodLoop_divides hb (Nat.le_refl 64)).done.2

/-- The remainder that is shifted has its top bit free. -/
theorem udivmodLoop_remainder_lt (hb : b ≠ 0) (hk : k < 64) :
    (udivmodLoop a b k).2.toNat < 2 ^ 63 := by
  have hloop := udivmodLoop_divides (a := a) hb hk.le
  have hbits : 64 - k = 63 - k + 1 := by omega
  rw [hbits] at hloop
  exact hloop.remainder_lt a.isLt

end Unsigned

section Signed

variable {a b : Size}

theorem unsignedOf_ne_zero (hb : b ≠ 0) : unsignedOf b ≠ 0 := by
  unfold unsignedOf
  split_ifs
  · exact fun h => hb (BitVec.neg_eq_zero_iff.mp h)
  · exact hb

theorem slt_zero (a : Size) : a.slt 0 = a.msb := BitVec.slt_zero_eq_msb

theorem divdi3_eq (hb : b ≠ 0) : divdi3 a b = a.sdiv b := by
  have hq := udivdi3_eq (a := unsignedOf a) (unsignedOf_ne_zero hb)
  unfold divdi3
  rw [hq, BitVec.sdiv_eq, slt_zero, slt_zero]
  unfold unsignedOf
  rw [slt_zero, slt_zero]
  cases a.msb <;> cases b.msb <;> simp

theorem moddi3_eq (hb : b ≠ 0) : moddi3 a b = a.srem b := by
  have hr := umoddi3_eq (a := unsignedOf a) (unsignedOf_ne_zero hb)
  unfold moddi3
  rw [hr, BitVec.srem_eq, slt_zero]
  unfold unsignedOf
  rw [slt_zero, slt_zero]
  cases a.msb <;> cases b.msb <;> simp

end Signed

/-- The quotient of two signed numbers is one of 64 bits. -/
def Representable (q : Int) : Prop := -2 ^ 63 ≤ q ∧ q < 2 ^ 63

instance (q : Int) : Decidable (Representable q) := inferInstanceAs (Decidable (_ ∧ _))

/-- **Division of 64-bit numbers.** -/
theorem division_correct (a b : Size) (hb : b ≠ 0) :
    (a.toNat = (udivdi3 a b).toNat * b.toNat + (umoddi3 a b).toNat ∧
      (umoddi3 a b).toNat < b.toNat) ∧
      (∀ k < 64, (udivmodLoop a b k).2.toNat * 2 < 2 ^ 64) ∧
      (Representable (a.toInt.tdiv b.toInt) →
        (divdi3 a b).toInt = a.toInt.tdiv b.toInt ∧ (moddi3 a b).toInt = a.toInt.tmod b.toInt) := by
  refine ⟨⟨?_, ?_⟩, ?_, ?_⟩
  · rw [udivdi3_eq hb, umoddi3_eq hb, BitVec.toNat_udiv, BitVec.toNat_umod, Nat.mul_comm]
    exact (Nat.div_add_mod a.toNat b.toNat).symm
  · rw [umoddi3_eq hb, BitVec.toNat_umod]
    exact Nat.mod_lt _ (Nat.pos_of_ne_zero fun h => hb (BitVec.eq_of_toNat_eq h))
  · intro k hk
    have hroom := udivmodLoop_remainder_lt (a := a) hb hk
    omega
  · rintro ⟨hlow, hhigh⟩
    rw [divdi3_eq hb, moddi3_eq hb, BitVec.toInt_sdiv, BitVec.toInt_srem]
    refine ⟨Int.bmod_eq_of_le ?_ ?_, rfl⟩
    · simpa using hlow
    · simpa using hhigh

/-- The least number, by the least but one. -/
theorem division_correct_least :
    (divdi3 (BitVec.intMin 64) (BitVec.intMin 64 + 1)).toInt = 1 ∧
      (moddi3 (BitVec.intMin 64) (BitVec.intMin 64 + 1)).toInt = -1 := by
  obtain ⟨-, -, h⟩ := division_correct (BitVec.intMin 64) (BitVec.intMin 64 + 1) (by decide)
  exact h (by decide)

end BradVector
