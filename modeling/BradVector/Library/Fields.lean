import Mathlib.Data.BitVec

/-!
# Fields of a register

A register word holds several fields. One is written by reading the word, clearing the bits of the
field and setting them anew; a field that shares bits with it changes too, unless the shared bits
are the same.
-/

namespace CSem

variable {n : Nat} {reg v : BitVec n} {p e w l : Nat}

/-- `(reg & ~(mask << p)) | ((v & mask) << p)`, with a mask of `w` ones. -/
def putField (reg : BitVec n) (p w : Nat) (v : BitVec n) : BitVec n :=
  reg &&& ~~~(BitVec.ofNat n (2 ^ w - 1) <<< p) ||| (v &&& BitVec.ofNat n (2 ^ w - 1)) <<< p

theorem getLsbD_putField (h : p + w ≤ n) (i : Nat) :
    (putField reg p w v).getLsbD i =
      if p ≤ i ∧ i < p + w then v.getLsbD (i - p) else reg.getLsbD i := by
  by_cases hn : i < n
  · simp only [putField, BitVec.getLsbD_or, BitVec.getLsbD_and, BitVec.getLsbD_not,
      BitVec.getLsbD_shiftLeft, BitVec.getLsbD_ofNat, Nat.testBit_two_pow_sub_one, hn]
    by_cases hlow : i < p
    · have hout : ¬ (p ≤ i ∧ i < p + w) := by omega
      simp [hlow, hout]
    · by_cases hhigh : i < p + w
      · have hin : p ≤ i ∧ i < p + w := by omega
        have hw : i - p < w := by omega
        have hpn : i - p < n := by omega
        simp [hlow, hin, hw, hpn]
      · have hout : ¬ (p ≤ i ∧ i < p + w) := by omega
        have hw : ¬ i - p < w := by omega
        simp [hlow, hout, hw]
  · have hout : ¬ (p ≤ i ∧ i < p + w) := by omega
    rw [if_neg hout, BitVec.getLsbD_of_ge _ _ (by omega), BitVec.getLsbD_of_ge _ _ (by omega)]

theorem extractLsb'_eq_iff {m : Nat} {x : BitVec n} {y : BitVec m} :
    x.extractLsb' p l = y.extractLsb' e l ↔ ∀ i, i < l → x.getLsbD (p + i) = y.getLsbD (e + i) := by
  constructor
  · intro h i hi
    have hbit := congrArg (·.getLsbD i) h
    simpa [hi] using hbit
  · intro h
    apply BitVec.eq_of_getLsbD_eq
    intro i hi
    simp [hi, h i hi]

theorem extractLsb'_putField (h : p + w ≤ n) :
    (putField reg p w v).extractLsb' p w = v.extractLsb' 0 w := by
  rw [extractLsb'_eq_iff]
  intro i hi
  have hin : p ≤ p + i ∧ p + i < p + w := by omega
  rw [getLsbD_putField h, if_pos hin, Nat.add_sub_cancel_left, Nat.zero_add]

theorem extractLsb'_putField_of_disjoint (h : p + w ≤ n) (hdisjoint : e + l ≤ p ∨ p + w ≤ e) :
    (putField reg p w v).extractLsb' e l = reg.extractLsb' e l := by
  rw [extractLsb'_eq_iff]
  intro i hi
  have hout : ¬ (p ≤ e + i ∧ e + i < p + w) := by omega
  rw [getLsbD_putField h, if_neg hout]

/-- A field that ends `l` bits into the written one. -/
theorem extractLsb'_putField_below_iff (reg v : BitVec n) {r : Nat} (h : p + w ≤ n) (hle : e ≤ p)
    (hl : l ≤ w) (hr : e + r = p + l) :
    (putField reg p w v).extractLsb' e r = reg.extractLsb' e r ↔
      v.extractLsb' 0 l = reg.extractLsb' p l := by
  rw [extractLsb'_eq_iff, extractLsb'_eq_iff]
  constructor
  · intro hsame i hi
    have hin : p ≤ p + i ∧ p + i < p + w := by omega
    have hbit := hsame (p - e + i) (by omega)
    rw [show e + (p - e + i) = p + i by omega, getLsbD_putField h, if_pos hin,
      Nat.add_sub_cancel_left] at hbit
    rw [Nat.zero_add, hbit]
  · intro hsame i hi
    rw [getLsbD_putField h]
    split
    next hin =>
      have hbit := hsame (e + i - p) (by omega)
      rwa [Nat.zero_add, show p + (e + i - p) = e + i by omega] at hbit
    next => rfl

/-- A field that begins `l` bits before the end of the written one. -/
theorem extractLsb'_putField_above_iff (reg v : BitVec n) {r : Nat} (h : p + w ≤ n) (hle : p ≤ e)
    (hl : l ≤ r) (he : e + l = p + w) :
    (putField reg p w v).extractLsb' e r = reg.extractLsb' e r ↔
      v.extractLsb' (w - l) l = reg.extractLsb' e l := by
  rw [extractLsb'_eq_iff, extractLsb'_eq_iff]
  constructor
  · intro hsame i hi
    have hin : p ≤ e + i ∧ e + i < p + w := by omega
    have hbit := hsame i (by omega)
    rwa [getLsbD_putField h, if_pos hin, show e + i - p = w - l + i by omega] at hbit
  · intro hsame i hi
    rw [getLsbD_putField h]
    split
    next hin =>
      have hbit := hsame i (by omega)
      rwa [show e + i - p = w - l + i by omega]
    next => rfl

end CSem
