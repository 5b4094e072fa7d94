import Mathlib.Data.Nat.Basic
import Mathlib.Tactic.Ring

/-!
# Binary long division

The quotient and the remainder while the bits of the dividend are brought down one by one. The
remainder never exceeds what has been brought down, so that the next bit can be shifted in without
losing one at the top.
-/

namespace CSem

/-- The bits of `a` from bit `i` on have been divided by `b`; the quotient bits below `i` are still
zero. -/
structure LongDivision (a b i q r : Nat) : Prop where
  brought : ∃ m, q = m * 2 ^ i ∧ a / 2 ^ i = m * b + r
  lt : r < b

/-- The remainder with bit `i` of the dividend brought down. -/
def bringDown (a i r : Nat) : Nat := 2 * r + a / 2 ^ i % 2

namespace LongDivision

variable {a b i n q r : Nat}

theorem start (ha : a < 2 ^ n) (hb : 0 < b) : LongDivision a b n 0 0 :=
  ⟨⟨0, by rw [Nat.zero_mul], by rw [Nat.div_eq_of_lt ha, Nat.zero_mul]⟩, hb⟩

theorem remainder_le (h : LongDivision a b i q r) : r ≤ a / 2 ^ i := by
  obtain ⟨m, -, hdiv⟩ := h.brought
  rw [hdiv]
  exact Nat.le_add_left r (m * b)

theorem div_succ (a i : Nat) : a / 2 ^ i = 2 * (a / 2 ^ (i + 1)) + a / 2 ^ i % 2 := by
  rw [Nat.pow_succ, ← Nat.div_div_eq_div_mul]
  exact (Nat.div_add_mod (a / 2 ^ i) 2).symm

/-- Half of the numbers of the dividend's width are room enough for the remainder. -/
theorem remainder_lt (h : LongDivision a b (i + 1) q r) (ha : a < 2 ^ (n + 1)) : r < 2 ^ n := by
  have hle := h.remainder_le
  have hdiv : a / 2 ^ (i + 1) ≤ a / 2 ^ 1 :=
    Nat.div_le_div_left (Nat.pow_le_pow_right (by omega) (by omega)) (by omega)
  have hhalf : a / 2 ^ 1 < 2 ^ n := by
    rw [Nat.pow_succ] at ha
    omega
  omega

/-- A round that leaves a zero in the quotient. -/
theorem keep (h : LongDivision a b (i + 1) q r) (hlt : bringDown a i r < b) :
    LongDivision a b i q (bringDown a i r) := by
  obtain ⟨m, hq, hdiv⟩ := h.brought
  refine ⟨⟨2 * m, ?_, ?_⟩, hlt⟩
  · rw [hq]
    ring
  · rw [div_succ, hdiv, bringDown]
    ring

/-- A round that puts a one into it. -/
theorem subtract (h : LongDivision a b (i + 1) q r) (hle : b ≤ bringDown a i r) :
    LongDivision a b i (q + 2 ^ i) (bringDown a i r - b) := by
  obtain ⟨m, hq, hdiv⟩ := h.brought
  refine ⟨⟨2 * m + 1, ?_, ?_⟩, ?_⟩
  · rw [hq]
    ring
  · calc a / 2 ^ i = 2 * (m * b + r) + a / 2 ^ i % 2 := by rw [← hdiv, ← div_succ]
      _ = 2 * m * b + bringDown a i r := by rw [bringDown]; ring
      _ = 2 * m * b + (b + (bringDown a i r - b)) := by rw [Nat.add_sub_cancel' hle]
      _ = (2 * m + 1) * b + (bringDown a i r - b) := by ring
  · have hlt := h.lt
    have hbit : a / 2 ^ i % 2 < 2 := Nat.mod_lt _ (by omega)
    unfold bringDown at hle ⊢
    omega

/-- **When all bits are brought down** the division is done. -/
theorem done (h : LongDivision a b 0 q r) : q = a / b ∧ r = a % b := by
  obtain ⟨m, hq, hdiv⟩ := h.brought
  have hpos : 0 < b := Nat.zero_lt_of_lt h.lt
  rw [Nat.pow_zero, Nat.mul_one] at hq
  rw [Nat.pow_zero, Nat.div_one] at hdiv
  rw [hq, hdiv, Nat.mul_comm m b]
  constructor
  · rw [Nat.mul_add_div hpos, Nat.div_eq_of_lt h.lt, Nat.add_zero]
  · rw [Nat.mul_add_mod, Nat.mod_eq_of_lt h.lt]

end LongDivision

end CSem
