import Mathlib.Algebra.Order.Floor.Ring
import Mathlib.Algebra.Order.Field.Basic
import Mathlib.Algebra.Ring.Int.Parity
import Mathlib.Tactic.Linarith
import Mathlib.Tactic.FieldSimp
import Mathlib.Tactic.Ring

/-!
# Rounding to nearest, ties to even

Rounding to the nearest integer, and what it means that a value is the nearest one of a set. Where
the set is a grid around the argument, rounding the argument in units of the grid gives the nearest
value.
-/

namespace CSem

variable {K : Type*} [Field K] [LinearOrder K] [IsStrictOrderedRing K]

section Round

variable [FloorRing K]

/-- The nearest integer, and of two the even one. -/
def roundHalfEven (x : K) : ℤ :=
  if x - ⌊x⌋ < 1 / 2 then ⌊x⌋
  else if 1 / 2 < x - ⌊x⌋ then ⌊x⌋ + 1
  else if ⌊x⌋ % 2 = 0 then ⌊x⌋ else ⌊x⌋ + 1

/-- Nearer than a half, or just a half away and even. -/
theorem roundHalfEven_spec (x : K) :
    |x - roundHalfEven x| < 1 / 2 ∨ |x - roundHalfEven x| = 1 / 2 ∧ Even (roundHalfEven x) := by
  have hlow : (⌊x⌋ : K) ≤ x := Int.floor_le x
  have hhigh : x < ⌊x⌋ + 1 := Int.lt_floor_add_one x
  unfold roundHalfEven
  split_ifs with hless hmore heven
  · left
    rw [abs_of_nonneg (by linarith)]
    exact hless
  · left
    push_cast
    rw [abs_of_neg (by linarith)]
    linarith
  · right
    refine ⟨?_, Int.even_iff.mpr heven⟩
    rw [abs_of_nonneg (by linarith)]
    linarith
  · right
    refine ⟨?_, ?_⟩
    · push_cast
      rw [abs_of_neg (by linarith)]
      linarith
    · rw [Int.even_iff]
      omega

theorem abs_sub_roundHalfEven_le (x : K) : |x - roundHalfEven x| ≤ 1 / 2 := by
  obtain hlt | ⟨heq, _⟩ := roundHalfEven_spec x
  · exact hlt.le
  · exact heq.le

/-- Two different integers are not both nearer than a half, nor both even with one between them. -/
theorem roundHalfEven_eq {x : K} {n : ℤ} (h : |x - n| < 1 / 2 ∨ |x - n| = 1 / 2 ∧ Even n) :
    roundHalfEven x = n := by
  have hspec := roundHalfEven_spec x
  have hle := abs_sub_roundHalfEven_le x
  have hn : |x - n| ≤ 1 / 2 := by
    obtain hlt | ⟨heq, _⟩ := h
    · exact hlt.le
    · exact heq.le
  rw [abs_le] at hle hn
  have hclose : |((roundHalfEven x - n : ℤ) : K)| ≤ 1 := by
    push_cast
    rw [abs_le]
    constructor <;> linarith
  have hclose' : |roundHalfEven x - n| ≤ 1 := by exact_mod_cast hclose
  by_contra hne
  have hone : |roundHalfEven x - n| = 1 :=
    le_antisymm hclose' (Int.one_le_abs (sub_ne_zero.mpr hne))
  have hdist : (1 : K) ≤ |x - n| + |x - roundHalfEven x| := by
    have hcast : |((roundHalfEven x - n : ℤ) : K)| = 1 := by exact_mod_cast hone
    rw [← hcast]
    push_cast
    calc |(roundHalfEven x : K) - n| = |(x - n) - (x - roundHalfEven x)| := by ring_nf
      _ ≤ |x - n| + |x - roundHalfEven x| := abs_sub _ _
  obtain hlt | ⟨heq, heven⟩ := h
  · linarith [abs_sub_roundHalfEven_le x]
  · obtain hlt' | ⟨heq', heven'⟩ := hspec
    · linarith
    · obtain ⟨k, hk⟩ := heven'.sub heven
      rw [hk] at hone
      obtain h1 | h1 := abs_eq (by decide) |>.mp hone <;> omega

/-- No integer is nearer. -/
theorem roundHalfEven_nearest (x : K) (k : ℤ) : |x - roundHalfEven x| ≤ |x - k| := by
  by_contra hlt
  rw [not_le] at hlt
  have hle := abs_sub_roundHalfEven_le x
  have heq := roundHalfEven_eq (.inl (hlt.trans_le hle))
  rw [heq] at hlt
  exact lt_irrefl _ hlt

/-- Another integer is as near only in a tie. -/
theorem even_roundHalfEven {x : K} {k : ℤ} (hne : k ≠ roundHalfEven x)
    (htie : |x - k| = |x - roundHalfEven x|) : Even (roundHalfEven x) := by
  obtain hlt | ⟨_, heven⟩ := roundHalfEven_spec x
  · exact absurd (roundHalfEven_eq (.inl (htie ▸ hlt))).symm hne
  · exact heven

theorem le_roundHalfEven {x : K} {n : ℤ} (h : n ≤ x) : n ≤ roundHalfEven x := by
  by_contra hlt
  have hle := (abs_le.mp (abs_sub_roundHalfEven_le x)).2
  have hcast : (roundHalfEven x : K) ≤ n - 1 := by
    exact_mod_cast Int.le_sub_one_of_lt (not_le.mp hlt)
  linarith

theorem roundHalfEven_le {x : K} {n : ℤ} (h : x ≤ n) : roundHalfEven x ≤ n := by
  by_contra hlt
  have hle := (abs_le.mp (abs_sub_roundHalfEven_le x)).1
  have hcast : (n : K) + 1 ≤ roundHalfEven x := by
    exact_mod_cast Int.add_one_le_of_lt (not_le.mp hlt)
  linarith

theorem roundHalfEven_sub {x : K} {n : ℤ} (hn : Even n) :
    roundHalfEven (x - n) = roundHalfEven x - n := by
  apply roundHalfEven_eq
  push_cast
  rw [sub_sub_sub_cancel_right]
  obtain hlt | ⟨heq, heven⟩ := roundHalfEven_spec x
  · exact .inl hlt
  · exact .inr ⟨heq, heven.sub hn⟩

end Round

/-! ### The nearest value of a set -/

/-- `v` is the value of `S` nearest to `x`, and meets `E` if another one is as near. -/
structure NearestEven (S : Set K) (E : K → Prop) (x v : K) : Prop where
  mem : v ∈ S
  nearest : ∀ w ∈ S, |x - v| ≤ |x - w|
  tie : ∀ w ∈ S, w ≠ v → |x - w| = |x - v| → E v

variable {S : Set K} {E : K → Prop} {x v : K}

omit [IsStrictOrderedRing K] in
theorem NearestEven.neg (hS : ∀ w ∈ S, -w ∈ S) (hE : ∀ w, E w → E (-w)) (h : NearestEven S E x v) :
    NearestEven S E (-x) (-v) := by
  have hdist (w : K) : |-x - w| = |x - -w| := by
    rw [← abs_neg]
    ring_nf
  refine ⟨hS v h.mem, ?_, ?_⟩
  · intro w hw
    rw [hdist, hdist, neg_neg]
    exact h.nearest _ (hS w hw)
  · intro w hw hne htie
    rw [hdist, hdist, neg_neg] at htie
    exact hE v (h.tie _ (hS w hw) (fun heq => hne (by rw [← heq, neg_neg])) htie)

/-- A value of the set is the nearest one to itself. -/
theorem nearestEven_self (hx : x ∈ S) : NearestEven S E x x := by
  refine ⟨hx, ?_, ?_⟩
  · intro w _
    rw [sub_self, abs_zero]
    exact abs_nonneg _
  · intro w _ hne htie
    rw [sub_self, abs_zero, abs_eq_zero, sub_eq_zero] at htie
    exact absurd htie.symm hne

/-- Nothing of the set lies above `v`, and `x` does. -/
theorem nearestEven_of_le (hv : v ∈ S) (hmax : ∀ w ∈ S, w ≤ v) (hx : v ≤ x) :
    NearestEven S E x v := by
  refine ⟨hv, ?_, ?_⟩
  · intro w hw
    have hle := hmax w hw
    rw [abs_of_nonneg (by linarith), abs_of_nonneg (by linarith)]
    linarith
  · intro w hw hne htie
    have hle := hmax w hw
    rw [abs_of_nonneg (by linarith), abs_of_nonneg (by linarith)] at htie
    exact absurd (by linarith) hne

/-- Between two values of the set that lie on a grid, as all values between them do, the nearest one
is found by rounding in units of the grid. -/
theorem nearestEven_of_grid [FloorRing K] {g lo hi : K} (hg : 0 < g) (hlo : lo ∈ S) (hhi : hi ∈ S)
    (hlox : lo ≤ x) (hxhi : x ≤ hi) (hgrid : ∀ w ∈ S, lo ≤ w → w ≤ hi → ∃ k : ℤ, w = k * g)
    (hmem : roundHalfEven (x / g) * g ∈ S)
    (heven : Even (roundHalfEven (x / g)) → E (roundHalfEven (x / g) * g)) :
    NearestEven S E x (roundHalfEven (x / g) * g) := by
  have hscale (k : ℤ) : |x - k * g| = |x / g - k| * g := by
    rw [← abs_of_pos hg, ← abs_mul, abs_of_pos hg]
    congr 1
    field_simp
  have hle (k : ℤ) : |x - roundHalfEven (x / g) * g| ≤ |x - k * g| := by
    rw [hscale, hscale]
    exact mul_le_mul_of_nonneg_right (roundHalfEven_nearest _ _) hg.le
  obtain ⟨kl, hkl⟩ := hgrid lo hlo le_rfl (hlox.trans hxhi)
  obtain ⟨kh, hkh⟩ := hgrid hi hhi (hlox.trans hxhi) le_rfl
  -- a value outside is farther off than the end of the grid on its side
  have hout (w : K) (h : w < lo ∨ hi < w) : |x - roundHalfEven (x / g) * g| < |x - w| := by
    obtain h | h := h
    · refine (hle kl).trans_lt ?_
      rw [← hkl, abs_of_nonneg (by linarith), abs_of_nonneg (by linarith)]
      linarith
    · refine (hle kh).trans_lt ?_
      rw [← hkh, abs_of_nonpos (by linarith), abs_of_nonpos (by linarith)]
      linarith
  refine ⟨hmem, ?_, ?_⟩
  · intro w hw
    by_cases h : w < lo ∨ hi < w
    · exact (hout w h).le
    · rw [not_or, not_lt, not_lt] at h
      obtain ⟨k, rfl⟩ := hgrid w hw h.1 h.2
      exact hle k
  · intro w hw hne htie
    by_cases h : w < lo ∨ hi < w
    · exact absurd htie (hout w h).ne'
    · rw [not_or, not_lt, not_lt] at h
      obtain ⟨k, rfl⟩ := hgrid w hw h.1 h.2
      rw [hscale, hscale] at htie
      refine heven (even_roundHalfEven (k := k) ?_ (mul_right_cancel₀ hg.ne' htie))
      rintro rfl
      exact hne rfl

end CSem
