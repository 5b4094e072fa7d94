import Mathlib.Algebra.Group.Nat.Defs
import Mathlib.Order.Monotone.Defs
import Mathlib.Order.Nat

/-!
# Counters read in halves

A 64-bit counter behind two 32-bit registers. The hardware advances it between the reads, so the
halves a reader sees may belong to different values.
-/

namespace CSem

def joinWords (hi lo : BitVec 32) : BitVec 64 := hi.setWidth 64 <<< 32 ||| lo.setWidth 64

def lowWord (c : BitVec 64) : BitVec 32 := c.setWidth 32
def highWord (c : BitVec 64) : BitVec 32 := (c >>> 32).setWidth 32

theorem toNat_joinWords (hi lo : BitVec 32) :
    (joinWords hi lo).toNat = 2 ^ 32 * hi.toNat + lo.toNat := by
  have hshift : (hi.setWidth 64 <<< 32).toNat = hi.toNat <<< 32 := by
    rw [BitVec.toNat_shiftLeft, BitVec.toNat_setWidth_of_le (by omega), Nat.shiftLeft_eq]
    exact Nat.mod_eq_of_lt (by have := hi.isLt; omega)
  rw [joinWords, BitVec.toNat_or, hshift, BitVec.toNat_setWidth_of_le (by omega),
    ← Nat.shiftLeft_add_eq_or_of_lt lo.isLt, Nat.shiftLeft_eq, Nat.mul_comm]

theorem toNat_lowWord (c : BitVec 64) : (lowWord c).toNat = c.toNat % 2 ^ 32 :=
  BitVec.toNat_setWidth 32 c

theorem toNat_highWord (c : BitVec 64) : (highWord c).toNat = c.toNat / 2 ^ 32 := by
  rw [highWord, BitVec.toNat_setWidth, BitVec.toNat_ushiftRight, Nat.shiftRight_eq_div_pow]
  exact Nat.mod_eq_of_lt (by have := c.isLt; omega)

theorem toNat_joinWords_of (a b : BitVec 64) :
    (joinWords (highWord b) (lowWord a)).toNat =
      2 ^ 32 * (b.toNat / 2 ^ 32) + a.toNat % 2 ^ 32 := by
  rw [toNat_joinWords, toNat_highWord, toNat_lowWord]

theorem joinWords_self (c : BitVec 64) : joinWords (highWord c) (lowWord c) = c := by
  apply BitVec.eq_of_toNat_eq
  rw [toNat_joinWords_of]
  exact Nat.div_add_mod c.toNat (2 ^ 32)

theorem highWord_eq_iff {a b : BitVec 64} :
    highWord a = highWord b ↔ a.toNat / 2 ^ 32 = b.toNat / 2 ^ 32 := by
  rw [← toNat_highWord, ← toNat_highWord, BitVec.toNat_inj]

/-! ### A run of the hardware -/

/-- What each register read of a run finds: the word that the register at an address has at that
read. -/
abbrev Registers := Nat → BitVec 64 → BitVec 32

/-- The registers at `lo` and `hi` show the halves of the counter, whose value at each read is
`c`. -/
structure ShowsCounter (m : Registers) (lo hi : BitVec 64) (c : Nat → BitVec 64) : Prop where
  mono : Monotone fun t => (c t).toNat
  low : ∀ t, m t lo = lowWord (c t)
  high : ∀ t, m t hi = highWord (c t)

/-- The counter advances by less than `2 ^ 32` from the first to the last of the reads `s, …, t -
1`. -/
def AdvancesLittle (c : Nat → BitVec 64) (s t : Nat) : Prop :=
  (c (t - 1)).toNat < (c s).toNat + 2 ^ 32

/-- The counter has the value `v` at one of the reads `s, …, t - 1`. -/
def HeldAt (c : Nat → BitVec 64) (s t : Nat) (v : BitVec 64) : Prop := ∃ k, s ≤ k ∧ k < t ∧ c k = v

section

variable {c : Nat → BitVec 64} {s : Nat}

/-- The low half read first and the high half next: a wrap between the two gives a value that the
counter has yet to reach. -/
theorem heldAt_joinWords_iff (hc : Monotone fun t => (c t).toNat)
    (hlittle : AdvancesLittle c s (s + 2)) :
    HeldAt c s (s + 2) (joinWords (highWord (c (s + 1))) (lowWord (c s))) ↔
      highWord (c s) = highWord (c (s + 1)) := by
  have hle : (c s).toNat ≤ (c (s + 1)).toNat := hc (Nat.le_succ s)
  constructor
  · rintro ⟨k, hk, hks, hv⟩
    have hvalue : (c k).toNat = _ := congrArg BitVec.toNat hv
    rw [toNat_joinWords_of] at hvalue
    have hlast : (c (s + 1)).toNat < (c s).toNat + 2 ^ 32 := hlittle
    have hkle : (c k).toNat ≤ (c (s + 1)).toNat := hc (by omega)
    rw [highWord_eq_iff]
    omega
  · intro hhigh
    exact ⟨s, Nat.le_refl s, by omega, by rw [← hhigh, joinWords_self]⟩

/-- Both halves are read between two values, the second of which ends no lower than the first. -/
theorem joinWords_between (hc : Monotone fun t => (c t).toNat) {t u : Nat} (hst : s ≤ t)
    (htu : t ≤ u) (hlow : lowWord (c s) ≤ lowWord (c u)) :
    (c s).toNat ≤ (joinWords (highWord (c t)) (lowWord (c s))).toNat ∧
      (joinWords (highWord (c t)) (lowWord (c s))).toNat ≤ (c u).toNat := by
  have hfirst : (c s).toNat ≤ (c t).toNat := hc hst
  have hsecond : (c t).toNat ≤ (c u).toNat := hc htu
  rw [BitVec.le_def, toNat_lowWord, toNat_lowWord] at hlow
  rw [toNat_joinWords_of]
  omega

end

end CSem
