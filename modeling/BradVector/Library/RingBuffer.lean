import Mathlib.Data.Nat.ModEq
import Mathlib.Data.List.Basic
import Mathlib.Logic.Function.Basic

/-!
# Circular buffers

A queue kept in `cap` cells used in a circle: the elements lie one behind the other from `head` on,
and the cell behind the last one is the first. What the queue holds is a list; storing appends to
it, and taking out removes from its front, wherever in the circle the elements lie.
-/

namespace CSem

namespace Circle

variable {α : Type} (cap : Nat)

/-- The cells after `xs` is stored one element at a time from position `pos` on. -/
def fill (cell : Nat → α) (pos : Nat) : List α → Nat → α
  | [] => cell
  | x :: xs => fill (Function.update cell (pos % cap) x) (pos + 1) xs

/-- The `n` elements from position `pos` on. -/
def scan (cell : Nat → α) (pos n : Nat) : List α :=
  (List.range n).map fun i => cell ((pos + i) % cap)

variable {cap} {cell : Nat → α} {pos n m : Nat} {xs : List α}

theorem position_ne {i j : Nat} (hij : i < j) (hj : j < i + cap) :
    (pos + i) % cap ≠ (pos + j) % cap := by
  intro h
  have hmod : i ≡ j [MOD cap] := Nat.ModEq.add_left_cancel' pos h
  have hdvd : cap ∣ j - i := (Nat.modEq_iff_dvd' hij.le).mp hmod
  exact absurd (Nat.le_of_dvd (by omega) hdvd) (by omega)

theorem fill_of_ne {j : Nat} (h : ∀ i < xs.length, (pos + i) % cap ≠ j) :
    fill cap cell pos xs j = cell j := by
  induction xs generalizing cell pos with
  | nil => rfl
  | cons x xs ih =>
      have htail : ∀ i < xs.length, (pos + 1 + i) % cap ≠ j := by
        intro i hi
        rw [Nat.add_assoc, Nat.add_comm 1 i]
        exact h (i + 1) (Nat.succ_lt_succ hi)
      rw [fill, ih htail]
      exact Function.update_of_ne (Ne.symm (h 0 (Nat.succ_pos _))) _ _

theorem fill_at (hcap : xs.length ≤ cap) {i : Nat} (hi : i < xs.length) :
    fill cap cell pos xs ((pos + i) % cap) = xs[i] := by
  induction xs generalizing cell pos i with
  | nil => exact absurd hi (Nat.not_lt_zero i)
  | cons x xs ih =>
      rw [List.length_cons] at hcap
      rw [fill]
      cases i with
      | zero =>
          rw [fill_of_ne]
          · exact Function.update_self _ _ _
          · intro k hk
            rw [Nat.add_assoc]
            exact (position_ne (by omega) (by omega)).symm
      | succ i =>
          rw [show pos + (i + 1) = pos + 1 + i by omega]
          exact ih (Nat.le_of_succ_le hcap) (Nat.lt_of_succ_lt_succ hi)

@[simp]
theorem scan_length : (scan cap cell pos n).length = n := by
  simp [scan]

theorem scan_add : scan cap cell pos (n + m) = scan cap cell pos n ++ scan cap cell
    (pos + n) m := by
  simp [scan, List.range_add, Nat.add_assoc]

theorem scan_succ :
    scan cap cell pos (n + 1) = cell (pos % cap) :: scan cap cell (pos + 1) n := by
  simp [scan, List.range_succ_eq_map, Nat.add_assoc, Nat.add_comm 1]

theorem scan_mod : scan cap cell (pos % cap) n = scan cap cell pos n := by
  simp [scan]

theorem scan_congr_pos {p : Nat} (h : pos % cap = p % cap) :
    scan cap cell pos n = scan cap cell p n := by
  rw [← scan_mod, h, scan_mod]

theorem scan_fill (hcap : xs.length ≤ cap) :
    scan cap (fill cap cell pos xs) pos xs.length = xs := by
  refine List.ext_getElem (by simp) fun i _ hi => ?_
  simp [scan, fill_at hcap hi]

/-- What lies in the `n` positions before the stored elements is not overwritten by them. -/
theorem scan_fill_before (hcap : n + xs.length ≤ cap) :
    scan cap (fill cap cell (pos + n) xs) pos n = scan cap cell pos n := by
  refine List.map_congr_left fun i hi => ?_
  have hi : i < n := List.mem_range.mp hi
  refine fill_of_ne fun k hk => ?_
  rw [Nat.add_assoc]
  exact (position_ne (by omega) (by omega)).symm

theorem fill_congr_pos {p : Nat} (h : pos % cap = p % cap) :
    fill cap cell pos xs = fill cap cell p xs := by
  induction xs generalizing cell pos p with
  | nil => rfl
  | cons x xs ih =>
      rw [fill, fill, h]
      exact ih (Nat.ModEq.add_right 1 h)

end Circle

/-- A circular buffer with its fill level. -/
structure RingBuffer (α : Type) (cap : Nat) where
  cell : Nat → α
  head : Nat
  used : Nat
  used_le : used ≤ cap

namespace RingBuffer

variable {α : Type} {cap : Nat} (b : RingBuffer α cap)

/-- The position behind the last element. -/
def tail : Nat := (b.head + b.used) % cap

/-- The queue the buffer holds, front first. -/
def contents : List α := Circle.scan cap b.cell b.head b.used

def empty (cell : Nat → α) : RingBuffer α cap := ⟨cell, 0, 0, Nat.zero_le _⟩

def push (xs : List α) (h : b.used + xs.length ≤ cap) : RingBuffer α cap :=
  ⟨Circle.fill cap b.cell b.tail xs, b.head, b.used + xs.length, h⟩

/-- The first `n` elements. -/
def front (n : Nat) : List α := Circle.scan cap b.cell b.head n

def pop (n : Nat) : RingBuffer α cap :=
  ⟨b.cell, (b.head + n) % cap, b.used - n, Nat.le_trans (Nat.sub_le _ _) b.used_le⟩

@[simp]
theorem contents_length : b.contents.length = b.used := Circle.scan_length

@[simp]
theorem contents_empty (cell : Nat → α) : (empty cell : RingBuffer α cap).contents = [] := rfl

/-- **Storing appends.** -/
theorem contents_push (xs : List α) (h : b.used + xs.length ≤ cap) :
    (b.push xs h).contents = b.contents ++ xs := by
  have hfill : Circle.fill cap b.cell b.tail xs = Circle.fill cap b.cell (b.head + b.used) xs :=
    Circle.fill_congr_pos (Nat.mod_mod _ _)
  calc (b.push xs h).contents
      = Circle.scan cap (Circle.fill cap b.cell (b.head + b.used) xs) b.head
          (b.used + xs.length) := by
        rw [contents, push, hfill]
    _ = b.contents ++ xs := by
        rw [Circle.scan_add, Circle.scan_fill_before h, Circle.scan_fill (by omega), contents]

/-- **Taking out removes from the front.** -/
theorem front_append_contents_pop {n : Nat} (h : n ≤ b.used) :
    b.front n ++ (b.pop n).contents = b.contents := by
  calc b.front n ++ (b.pop n).contents
      = Circle.scan cap b.cell b.head n ++ Circle.scan cap b.cell (b.head + n) (b.used - n) := by
        rw [front, contents, pop, Circle.scan_mod]
    _ = b.contents := by
        rw [← Circle.scan_add, Nat.add_sub_cancel' h, contents]

theorem tail_push (xs : List α) (h : b.used + xs.length ≤ cap) :
    (b.push xs h).tail = (b.tail + xs.length) % cap := by
  simp [tail, push, Nat.add_assoc]

theorem tail_pop {n : Nat} (h : n ≤ b.used) : (b.pop n).tail = b.tail := by
  simp only [tail, pop, Nat.mod_add_mod]
  rw [Nat.add_assoc, Nat.add_sub_cancel' h]

end RingBuffer

end CSem
