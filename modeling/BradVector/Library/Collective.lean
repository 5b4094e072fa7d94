import Mathlib.Data.List.Perm.Basic
import Mathlib.Data.List.FinRange
import Mathlib.Data.Fin.Basic
import Mathlib.Algebra.Group.Fin.Basic
import Mathlib.Algebra.Group.Units.Equiv
import Mathlib.Algebra.Order.Ring.Nat
import Mathlib.Order.Basic
import Mathlib.Tactic.SplitIfs

/-!
# Reducing round a ring

`n` ranks stand on a ring and every rank holds one value of an item. The ring all-reduce first walks
a running sum once round the ring, from the rank the item is assigned to, and then walks the
finished sum round once more. Here is what one item goes through: which rank is written in which
step, the sum every rank holds after any number of steps, and that the finished sum does not depend
on where the walk began.
-/

namespace Collective

variable {n : Nat} [NeZero n] {α : Type}

/-- `f 0 + f 1 + … + f (n - 1)`, for an operation `op` in the place of the sum. -/
def rankSum (op : α → α → α) (f : Fin n → α) : α := ((List.finRange n).tail.map f).foldl op (f 0)

theorem rankSum_of_one {op : α → α → α} (h : n = 1) (f : Fin n → α) (r : Fin n) :
    rankSum op f = f r := by
  subst h
  rw [Subsingleton.elim r 0]
  rfl

section Steps

variable (op : α → α → α) (c : Fin n)

/-- Step `s` of the first walk: of an item assigned to rank `c`, the rank `s + 1` places further
adds what its predecessor holds. -/
def reduceScatterStep (s : Fin n) (v : Fin n → α) : Fin n → α :=
  fun r => if r - s - 1 = c then op (v r) (v (r - 1)) else v r

/-- Step `s` of the second walk: the rank `s` places further takes what its predecessor holds. -/
def allGatherStep (s : Fin n) (v : Fin n → α) : Fin n → α :=
  fun r => if r - s = c then v (r - 1) else v r

def reduceScatter (v : Fin n → α) : Nat → Fin n → α
  | 0 => v
  | s + 1 => reduceScatterStep op c (Fin.ofNat n s) (reduceScatter v s)

def allGather (v : Fin n → α) : Nat → Fin n → α
  | 0 => v
  | s + 1 => allGatherStep c (Fin.ofNat n s) (allGather v s)

/-- The sum over the ranks from `c` to `k` places further. -/
def partialSum (v : Fin n → α) : Nat → α
  | 0 => v c
  | k + 1 => op (v (c + Fin.ofNat n (k + 1))) (partialSum v k)

end Steps

/-! ### Places on the ring -/

theorem ofNat_succ_eq (s : Nat) : Fin.ofNat n (s + 1) = Fin.ofNat n s + 1 := by
  apply Fin.ext
  simp [Fin.val_add, Nat.add_mod]

theorem sub_eq_ofNat_iff {r c : Fin n} {k : Nat} (hk : k < n) :
    r - c = Fin.ofNat n k ↔ (r - c).val = k := by
  rw [Fin.ext_iff, Fin.val_ofNat, Nat.mod_eq_of_lt hk]

theorem sub_sub_one_eq_iff {r c : Fin n} {s : Nat} (hs : s + 1 < n) :
    r - Fin.ofNat n s - 1 = c ↔ (r - c).val = s + 1 := by
  rw [← sub_eq_ofNat_iff hs, ofNat_succ_eq, sub_sub, sub_eq_iff_eq_add, sub_eq_iff_eq_add, add_comm]

theorem sub_ofNat_eq_iff {r c : Fin n} {s : Nat} (hs : s < n) :
    r - Fin.ofNat n s = c ↔ (r - c).val = s := by
  rw [← sub_eq_ofNat_iff hs, sub_eq_iff_eq_add, sub_eq_iff_eq_add, add_comm]

theorem pred_sub_val {r c : Fin n} {k : Nat} (hk : k + 1 < n) (h : (r - c).val = k + 1) :
    (r - 1 - c).val = k := by
  rw [← sub_eq_ofNat_iff hk, ofNat_succ_eq] at h
  rw [← sub_eq_ofNat_iff (Nat.lt_of_succ_lt hk), sub_right_comm, h, add_sub_cancel_right]

theorem pred_self_sub_val {r c : Fin n} (h : (r - c).val = 0) : (r - 1 - c).val = n - 1 := by
  have hzero : r - c = 0 := Fin.ext h
  obtain ⟨m, rfl⟩ := Nat.exists_eq_succ_of_ne_zero (NeZero.ne n)
  rw [sub_right_comm, hzero, zero_sub, Fin.coe_neg_one, Nat.succ_eq_add_one, Nat.add_sub_cancel]

/-! The same places, as the remainders a program computes. -/

theorem succ_val (r : Fin n) : (r + 1).val = (r.val + 1) % n := by
  simp [Fin.val_add]

theorem sub_ofNat_val (r : Fin n) {s : Nat} (hs : s < n) :
    (r - Fin.ofNat n s).val = (r.val + n - s) % n := by
  have hplace : n - s + r.val = r.val + n - s := by omega
  rw [Fin.sub_def, Fin.val_ofNat, Nat.mod_eq_of_lt hs, ← hplace]

theorem sub_ofNat_sub_one_val (r : Fin n) {s : Nat} (hs : s + 1 < n) :
    (r - Fin.ofNat n s - 1).val = (r.val + n - s - 1) % n := by
  rw [sub_sub, ← ofNat_succ_eq, sub_ofNat_val r hs, Nat.sub_sub]

theorem sub_ofNat_add_one_val (r : Fin n) {s : Nat} (hs : s < n) :
    (r - Fin.ofNat n s + 1).val = (r.val + n - s + 1) % n := by
  rw [succ_val, sub_ofNat_val r hs, Nat.mod_add_mod]

/-! ### What every rank holds after some steps -/

section Walks

variable (op : α → α → α) (c : Fin n) (v : Fin n → α)

theorem partialSum_of_sub_val {r : Fin n} {k : Nat} (hk : k + 1 < n) (h : (r - c).val = k + 1) :
    partialSum op c v (k + 1) = op (v r) (partialSum op c v k) := by
  rw [← sub_eq_ofNat_iff hk] at h
  rw [partialSum, ← h, add_sub_cancel]

/-- **The first walk.** After `s` steps the ranks up to `s` places on hold the sum so far, the
others what they began with. -/
theorem reduceScatter_eq {s : Nat} (hs : s < n) (r : Fin n) :
    reduceScatter op c v s r =
      if (r - c).val ≤ s then partialSum op c v (r - c).val else v r := by
  induction s generalizing r with
  | zero =>
      by_cases h : (r - c).val = 0
      · have hr : r = c := sub_eq_zero.mp (Fin.ext h)
        simp [reduceScatter, hr, partialSum]
      · have hgt : ¬ (r - c).val ≤ 0 := by omega
        rw [reduceScatter, if_neg hgt]
  | succ s ih =>
      have ih := ih (Nat.lt_of_succ_lt hs)
      rw [reduceScatter, reduceScatterStep]
      by_cases h : (r - c).val = s + 1
      · have hpred := pred_sub_val hs h
        rw [if_pos ((sub_sub_one_eq_iff hs).mpr h), ih r, ih (r - 1), if_neg (by omega),
          if_pos (by omega), if_pos (by omega), hpred, h, partialSum_of_sub_val op c v hs h]
      · rw [if_neg (mt (sub_sub_one_eq_iff hs).mp h), ih r]
        by_cases hle : (r - c).val ≤ s
        · rw [if_pos hle, if_pos (by omega)]
        · rw [if_neg hle, if_neg (by omega)]

/-- **The second walk.** After `s` steps the ranks less than `s` places on hold what the last rank
of the ring held. -/
theorem allGather_eq {s : Nat} (hs : s < n) (r : Fin n) :
    allGather c v s r = if (r - c).val < s then v (c - 1) else v r := by
  induction s generalizing r with
  | zero => simp [allGather]
  | succ s ih =>
      have hs' : s < n := Nat.lt_of_succ_lt hs
      have ih := ih hs'
      rw [allGather, allGatherStep]
      by_cases h : (r - c).val = s
      · rw [if_pos ((sub_ofNat_eq_iff hs').mpr h), ih (r - 1),
          if_pos (by omega : (r - c).val < s + 1)]
        cases s with
        | zero =>
            have hr : r = c := sub_eq_zero.mp (Fin.ext h)
            simp [hr]
        | succ s => rw [if_pos (by rw [pred_sub_val hs' h]; exact Nat.lt_succ_self s)]
      · rw [if_neg (mt (sub_ofNat_eq_iff hs').mp h), ih r]
        by_cases hlt : (r - c).val < s
        · rw [if_pos hlt, if_pos (by omega)]
        · rw [if_neg hlt, if_neg (by omega)]

theorem allGather_reduceScatter_eq (r : Fin n) :
    allGather c (reduceScatter op c v (n - 1)) (n - 1) r = partialSum op c v (n - 1) := by
  have hn : n - 1 < n := Nat.sub_lt (NeZero.pos n) Nat.one_pos
  have hlast : (c - 1 - c).val = n - 1 := pred_self_sub_val (by rw [sub_self]; rfl)
  rw [allGather_eq c _ hn]
  split_ifs with h
  · rw [reduceScatter_eq op c v hn, hlast, if_pos le_rfl]
  · have hr : (r - c).val = n - 1 := by
      have := (r - c).isLt
      omega
    rw [reduceScatter_eq op c v hn, hr, if_pos le_rfl]

end Walks

/-! ### The order of the ranks does not matter -/

theorem map_add_ofNat_range (c : Fin n) (v : Fin n → α) :
    v c :: (List.range (n - 1)).map (fun j => v (c + Fin.ofNat n (j + 1))) =
      ((List.finRange n).map (Equiv.addLeft c)).map v := by
  have hrange : (List.range n).map (fun j => v (c + Fin.ofNat n j)) =
      ((List.finRange n).map (Equiv.addLeft c)).map v := by
    rw [← List.map_coe_finRange_eq_range, List.map_map, List.map_map]
    refine List.map_congr_left fun j _ => ?_
    simp
  have hcons : List.range n = 0 :: (List.range (n - 1)).map (· + 1) := by
    conv_lhs => rw [← Nat.sub_add_cancel (NeZero.pos n), List.range_succ_eq_map]
  rw [← hrange, hcons]
  simp [Function.comp_def]

section Order

variable {op : α → α → α} [Std.Commutative op]

theorem partialSum_eq_foldl (c : Fin n) (v : Fin n → α) (k : Nat) :
    partialSum op c v k =
      ((List.range k).map fun j => v (c + Fin.ofNat n (j + 1))).foldl op (v c) := by
  induction k with
  | zero => rfl
  | succ k ih =>
      rw [partialSum, ih, List.range_succ, List.map_append, List.foldl_append, List.map_singleton,
        List.foldl_cons, List.foldl_nil]
      exact Std.Commutative.comm _ _

variable [Std.Associative op]

theorem foldl_head_perm {a b : α} {l l' : List α} (h : (a :: l).Perm (b :: l')) :
    l.foldl op a = l'.foldl op b := by
  have key : ∀ {l₁ l₂ : List α}, l₁.Perm l₂ → ∀ {a b : α} {l l' : List α},
      l₁ = a :: l → l₂ = b :: l' → l.foldl op a = l'.foldl op b := by
    intro l₁ l₂ hperm
    induction hperm with
    | nil => intro a b l l' h; cases h
    | cons x hperm =>
        rintro a b l l' ⟨⟩ ⟨⟩
        exact hperm.foldl_op_eq
    | swap x y l =>
        rintro a b l l' ⟨⟩ ⟨⟩
        rw [List.foldl_cons, List.foldl_cons]
        exact congrArg (l.foldl op) (Std.Commutative.comm _ _)
    | @trans l₁ l₂ l₃ h₁ _ ih₁ ih₂ =>
        rintro a b l l' rfl rfl
        cases l₂ with
        | nil => exact absurd h₁.length_eq (by simp)
        | cons x l₂ => exact (ih₁ rfl rfl).trans (ih₂ rfl rfl)
  exact key h rfl rfl

/-- **The sum does not depend on where it began.** -/
theorem partialSum_eq_rankSum (c : Fin n) (v : Fin n → α) :
    partialSum op c v (n - 1) = rankSum op v := by
  rw [partialSum_eq_foldl, rankSum]
  refine foldl_head_perm ?_
  rw [map_add_ofNat_range]
  refine ((Equiv.addLeft c).map_finRange_perm.map v).trans ?_
  obtain ⟨m, rfl⟩ := Nat.exists_eq_succ_of_ne_zero (NeZero.ne n)
  simp [List.finRange_succ]

end Order

/-! ### Splitting a range evenly -/

/-- Where part `i` begins when `count` items are split over `n` as evenly as possible, the longer
parts first. -/
def splitStart (count n i : Nat) : Nat := i * (count / n) + min i (count % n)

theorem splitStart_succ (count n i : Nat) :
    splitStart count n (i + 1) =
      splitStart count n i + count / n + if i < count % n then 1 else 0 := by
  rw [splitStart, splitStart, Nat.succ_mul]
  split_ifs <;> omega

theorem splitStart_last (count : Nat) {n : Nat} (hn : 0 < n) : splitStart count n n = count := by
  have hmod := Nat.mod_lt count hn
  have hdiv := Nat.div_add_mod count n
  rw [splitStart, Nat.min_eq_right (Nat.le_of_lt hmod), hdiv]

theorem splitStart_mono (count n : Nat) {i j : Nat} (hij : i ≤ j) :
    splitStart count n i ≤ splitStart count n j := by
  rw [splitStart, splitStart]
  have hmul := Nat.mul_le_mul_right (count / n) hij
  omega

theorem splitStart_le (count : Nat) {n i : Nat} (hn : 0 < n) (hi : i ≤ n) :
    splitStart count n i ≤ count :=
  (splitStart_mono count n hi).trans_eq (splitStart_last count hn)

theorem splitStart_one_pos {count : Nat} (n : Nat) (hcount : 0 < count) :
    0 < splitStart count n 1 := by
  have hdiv := Nat.div_add_mod count n
  rw [splitStart]
  by_cases hzero : count / n = 0
  · rw [hzero, Nat.mul_zero] at hdiv
    omega
  · omega

theorem exists_splitPart {count n e : Nat} (hn : 0 < n) (he : e < count) :
    ∃ i < n, splitStart count n i ≤ e ∧ e < splitStart count n (i + 1) := by
  have hex : ∃ i, e < splitStart count n (i + 1) :=
    ⟨n - 1, by rwa [Nat.sub_add_cancel hn, splitStart_last count hn]⟩
  classical
  have hmin : ∀ j < Nat.find hex, splitStart count n (j + 1) ≤ e := fun j hj =>
    Nat.le_of_not_lt (Nat.find_min hex hj)
  refine ⟨Nat.find hex, ?_, ?_, Nat.find_spec hex⟩
  · by_contra hge
    have := hmin (n - 1) (by omega)
    rw [Nat.sub_add_cancel hn, splitStart_last count hn] at this
    omega
  · cases hfind : Nat.find hex with
    | zero => simp [splitStart]
    | succ i => exact hmin i (by omega)

end Collective
