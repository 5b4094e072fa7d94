import Mathlib.Data.List.Basic
import Mathlib.Algebra.GroupWithZero.Nat
import Mathlib.Algebra.Order.BigOperators.Group.List
import Mathlib.Algebra.Order.Group.Nat

/-!
# Tables of entries

Sums of a weight over the entries of a table, and what overwriting one entry does to them. With the
weight that tells whether an entry holds an address, the sum counts the entries that hold it, so
that "the entries tile a range" is a statement about sums.

Then merging neighbours. Entries of a table are neighbours in some relation on their indices;
merging entry `q` into its neighbour `p` leaves `p` with the neighbours `q` had. A pass that
compares entry `i` with all others, for one `i` after the other, merges everything there is to merge
if no more than three entries are neighbours of one another.
-/

namespace CSem

/-! ### Weights -/

section Totals

variable {α : Type} (w : α → Nat) {l l' : List α} {a b : α} {i j : Nat}

def total (l : List α) : Nat := (l.map w).sum

@[simp]
theorem total_nil : total w [] = 0 := rfl

@[simp]
theorem total_cons : total w (a :: l) = w a + total w l := List.sum_cons

@[simp]
theorem total_append : total w (l ++ l') = total w l + total w l' := by
  rw [total, List.map_append, List.sum_append]
  rfl

variable {w}

theorem total_set (hi : i < l.length) : total w (l.set i a) + w l[i] = total w l + w a := by
  induction l generalizing i with
  | nil => exact absurd hi (Nat.not_lt_zero i)
  | cons b l ih =>
      cases i with
      | zero =>
          simp only [List.set_cons_zero, total_cons, List.getElem_cons_zero]
          omega
      | succ i =>
          have htail := ih (Nat.lt_of_succ_lt_succ hi)
          simp only [List.set_cons_succ, total_cons, List.getElem_cons_succ]
          omega

theorem le_total (ha : a ∈ l) : w a ≤ total w l :=
  List.single_le_sum (fun _ _ => Nat.zero_le _) _ (List.mem_map_of_mem ha)

theorem total_mono {w' : α → Nat} (h : ∀ a ∈ l, w a ≤ w' a) : total w l ≤ total w' l := by
  induction l with
  | nil => exact Nat.le_refl 0
  | cons b l ih =>
      rw [total_cons, total_cons]
      exact Nat.add_le_add (h b List.mem_cons_self) (ih fun a ha => h a (List.mem_cons_of_mem b ha))

theorem total_eq_zero (h : ∀ a ∈ l, w a = 0) : total w l = 0 := by
  have hle : total w l ≤ total (fun _ => 0) l := total_mono fun a ha => (h a ha).le
  have hzero : total (fun _ : α => 0) l = 0 := by simp [total]
  omega

theorem add_le_total (hij : i < j) (hj : j < l.length) : w l[i] + w l[j] ≤ total w l := by
  induction l generalizing i j with
  | nil => exact absurd hj (Nat.not_lt_zero j)
  | cons b l ih =>
      cases j with
      | zero => exact absurd hij (Nat.not_lt_zero i)
      | succ j =>
          have hj' := Nat.lt_of_succ_lt_succ hj
          rw [total_cons]
          cases i with
          | zero =>
              have hle : w l[j] ≤ total w l := le_total (List.getElem_mem hj')
              simp only [List.getElem_cons_zero, List.getElem_cons_succ]
              omega
          | succ i =>
              have htail := ih (Nat.lt_of_succ_lt_succ hij) hj'
              simp only [List.getElem_cons_succ]
              omega

theorem getD_set {d : α} :
    (l.set i a).getD j d = if j = i ∧ i < l.length then a else l.getD j d := by
  simp only [List.getD_eq_getElem?_getD, List.getElem?_set]
  by_cases hij : i = j
  · subst hij
    by_cases hi : i < l.length <;> simp [hi]
  · simp [hij, Ne.symm hij]

/-- A loop whose rounds overwrite entries keeps the length of the table. -/
theorem length_foldl {β : Type} {f : List α → β → List α} (hf : ∀ l b, (f l b).length = l.length)
    {bs : List β} : (bs.foldl f l).length = l.length := by
  induction bs generalizing l with
  | nil => rfl
  | cons b bs ih => exact ih.trans (hf l b)

end Totals

/-! ### Neighbours -/

section Neighbours

/-- The neighbours after `q` has been merged into `p`, its neighbour before it. -/
def contract (R : Nat → Nat → Prop) (p q : Nat) (u v : Nat) : Prop :=
  u ≠ q ∧ v ≠ q ∧ u ≠ v ∧ (u = p ∧ R q v ∨ u ≠ p ∧ R u v)

/-- How far the pass has come: nothing is left to merge, or two neighbours of which one is still to
come, or three that are all still to come. -/
inductive Stage (R : Nat → Nat → Prop) (i : Nat) : Prop
  | none (h : ∀ u v, ¬ R u v)
  | pair (m n : Nat) (h : ∀ u v, R u v ↔ u = m ∧ v = n) (hmn : m ≠ n) (hi : i ≤ m ∨ i ≤ n)
  | chain (l x r : Nat) (h : ∀ u v, R u v ↔ u = l ∧ v = x ∨ u = x ∧ v = r)
      (hlx : l ≠ x) (hxr : x ≠ r) (hlr : l ≠ r) (hl : i ≤ l) (hx : i ≤ x) (hr : i ≤ r)

variable {R : Nat → Nat → Prop} {i p q : Nat}

/-- **A merge in round `i`** leaves at most two neighbours, not both of them behind. -/
theorem Stage.contract (h : Stage R i) (hpq : R p q) (hi : p = i ∨ q = i) :
    Stage (contract R p q) (i + 1) := by
  cases h with
  | none h => exact absurd hpq (h p q)
  | pair m n h hmn hmin =>
      obtain ⟨rfl, rfl⟩ := (h p q).mp hpq
      refine .none fun u v ⟨_, _, _, hR⟩ => ?_
      rcases hR with ⟨-, hR⟩ | ⟨hup, hR⟩
      · exact hmn ((h q v).mp hR).1.symm
      · exact hup ((h u v).mp hR).1
  | chain l x r h hlx hxr hlr hl hx hr =>
      rcases (h p q).mp hpq with ⟨rfl, rfl⟩ | ⟨rfl, rfl⟩
      · refine .pair p r (fun u v => ?_) hlr (by omega)
        simp only [CSem.contract, h]
        constructor
        · rintro ⟨huq, hvq, huv, ⟨rfl, ⟨rfl, rfl⟩ | ⟨-, rfl⟩⟩ | ⟨hup, ⟨rfl, rfl⟩ | ⟨rfl, rfl⟩⟩⟩
          · exact absurd rfl hlx
          · exact ⟨rfl, rfl⟩
          · exact absurd rfl hup
          · exact absurd rfl huq
        · rintro ⟨rfl, rfl⟩
          exact ⟨hlx, Ne.symm hxr, hlr, .inl ⟨rfl, .inr ⟨trivial, rfl⟩⟩⟩
      · refine .pair l p (fun u v => ?_) hlx (by omega)
        simp only [CSem.contract, h]
        constructor
        · rintro ⟨huq, hvq, huv, ⟨rfl, ⟨rfl, rfl⟩ | ⟨rfl, rfl⟩⟩ | ⟨hup, ⟨rfl, rfl⟩ | ⟨rfl, rfl⟩⟩⟩
          · exact absurd rfl hlr
          · exact absurd rfl hvq
          · exact ⟨rfl, rfl⟩
          · exact absurd rfl hup
        · rintro ⟨rfl, rfl⟩
          exact ⟨hlr, hxr, hlx, .inr ⟨hlx, .inl ⟨rfl, rfl⟩⟩⟩

theorem Stage.of_succ (h : Stage R (i + 1)) : Stage R i := by
  cases h with
  | none h => exact .none h
  | pair m n h hmn hi => exact .pair m n h hmn (by omega)
  | chain l x r h hlx hxr hlr hl hx hr =>
      exact .chain l x r h hlx hxr hlr (by omega) (by omega) (by omega)

/-- A round without neighbours to merge. -/
theorem Stage.skip (h : Stage R i) (hleft : ∀ v, ¬ R i v) (hright : ∀ u, ¬ R u i) :
    Stage R (i + 1) := by
  cases h with
  | none h => exact .none h
  | pair m n h hmn hi =>
      have hm : m ≠ i := by
        rintro rfl
        exact hleft n ((h m n).mpr ⟨rfl, rfl⟩)
      have hn : n ≠ i := by
        rintro rfl
        exact hright m ((h m n).mpr ⟨rfl, rfl⟩)
      exact .pair m n h hmn (by omega)
  | chain l x r h hlx hxr hlr hl hx hr =>
      have hl' : l ≠ i := by
        rintro rfl
        exact hleft x ((h l x).mpr (.inl ⟨rfl, rfl⟩))
      have hx' : x ≠ i := by
        rintro rfl
        exact hleft r ((h x r).mpr (.inr ⟨rfl, rfl⟩))
      have hr' : r ≠ i := by
        rintro rfl
        exact hright x ((h x r).mpr (.inr ⟨rfl, rfl⟩))
      exact .chain l x r h hlx hxr hlr (by omega) (by omega) (by omega)

/-- **After the last round** there are no neighbours. -/
theorem Stage.done {n : Nat} (h : Stage R n) (hbound : ∀ u v, R u v → u < n ∧ v < n) :
    ∀ u v, ¬ R u v := by
  cases h with
  | none h => exact h
  | pair m k h hmk hi =>
      have hlt := hbound m k ((h m k).mpr ⟨rfl, rfl⟩)
      omega
  | chain l x r h hlx hxr hlr hl hx hr =>
      have hlt := hbound l x ((h l x).mpr (.inl ⟨rfl, rfl⟩))
      omega

/-- Entry `x` is the only one that can have neighbours, at most one on each side. -/
theorem stage_zero {x : Nat} (honly : ∀ u v, R u v → u = x ∨ v = x) (hne : ∀ u v, R u v → u ≠ v)
    (hright : ∀ v v', R x v → R x v' → v = v') (hleft : ∀ u u', R u x → R u' x → u = u')
    (hcycle : ∀ u, R u x → ¬ R x u) : Stage R 0 := by
  by_cases hl : ∃ l, R l x
  · obtain ⟨l, hl⟩ := hl
    by_cases hr : ∃ r, R x r
    · obtain ⟨r, hr⟩ := hr
      have hlr : l ≠ r := by
        rintro rfl
        exact hcycle l hl hr
      refine .chain l x r (fun u v => ⟨fun h => ?_, ?_⟩) (hne l x hl) (hne x r hr) hlr
        (Nat.zero_le _) (Nat.zero_le _) (Nat.zero_le _)
      · rcases honly u v h with rfl | rfl
        · exact .inr ⟨rfl, hright v r h hr⟩
        · exact .inl ⟨hleft u l h hl, rfl⟩
      · rintro (⟨rfl, rfl⟩ | ⟨rfl, rfl⟩)
        · exact hl
        · exact hr
    · refine .pair l x (fun u v => ⟨fun h => ?_, ?_⟩) (hne l x hl) (.inl (Nat.zero_le _))
      · rcases honly u v h with rfl | rfl
        · exact absurd ⟨v, h⟩ hr
        · exact ⟨hleft u l h hl, rfl⟩
      · rintro ⟨rfl, rfl⟩
        exact hl
  · by_cases hr : ∃ r, R x r
    · obtain ⟨r, hr⟩ := hr
      refine .pair x r (fun u v => ⟨fun h => ?_, ?_⟩) (hne x r hr) (.inl (Nat.zero_le _))
      · rcases honly u v h with rfl | rfl
        · exact ⟨rfl, hright v r h hr⟩
        · exact absurd ⟨u, h⟩ hl
      · rintro ⟨rfl, rfl⟩
        exact hr
    · refine .none fun u v h => ?_
      rcases honly u v h with rfl | rfl
      · exact hr ⟨v, h⟩
      · exact hl ⟨u, h⟩

end Neighbours

end CSem
