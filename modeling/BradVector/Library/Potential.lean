import Mathlib.Algebra.BigOperators.Group.Finset.Piecewise
import Mathlib.Algebra.BigOperators.Fin
import Mathlib.Data.Fintype.Basic

/-!
# Costs of a run

A machine takes a command in each state, at a cost. Where a step that costs more than it is given
credit for pays the rest out of a potential, the costs of a run are at most its credit and the
potential it starts with.
-/

namespace CSem

variable {σ α : Type*}

/-- The costs of the commands of the run from `s`, each in the state it finds. -/
def costs (next : σ → α → σ) (cost : σ → α → Nat) : σ → List α → Nat
  | _, [] => 0
  | s, a :: as => cost s a + costs next cost (next s a) as

section

variable {next : σ → α → σ} {cost credit : σ → α → Nat}

/-- **The rule of potentials.** -/
theorem costs_le_of_potential (potential : σ → Nat)
    (hstep : ∀ s a, cost s a + potential (next s a) ≤ credit s a + potential s) (s : σ)
    (as : List α) :
    costs next cost s as + potential (as.foldl next s) ≤ costs next credit s as + potential s := by
  induction as generalizing s with
  | nil => exact Nat.le_refl _
  | cons a as ih =>
      have hhead := hstep s a
      have htail := ih (next s a)
      simp only [costs, List.foldl_cons]
      omega

theorem costs_add (f g : σ → α → Nat) (s : σ) (as : List α) :
    costs next (fun s a => f s a + g s a) s as = costs next f s as + costs next g s as := by
  induction as generalizing s with
  | nil => rfl
  | cons a as ih =>
      simp only [costs, ih]
      omega

theorem costs_mul (c : Nat) (f : σ → α → Nat) (s : σ) (as : List α) :
    costs next (fun s a => c * f s a) s as = c * costs next f s as := by
  induction as generalizing s with
  | nil => rfl
  | cons a as ih => simp only [costs, ih, Nat.mul_add]

end

/-- An update of a table changes a sum over its entries by what it changes in the one entry. -/
theorem sum_update_add {ι β : Type*} [Fintype ι] [DecidableEq ι] (f : ι → β → Nat) (t : ι → β)
    (i : ι) (v : β) :
    ∑ j, f j (Function.update t i v j) + f i (t i) = ∑ j, f j (t j) + f i v := by
  have hrest : ∑ j ∈ Finset.univ.erase i, f j (Function.update t i v j) =
      ∑ j ∈ Finset.univ.erase i, f j (t j) :=
    Finset.sum_congr rfl fun j hj => by rw [Function.update_of_ne (Finset.ne_of_mem_erase hj)]
  rw [← Finset.add_sum_erase _ _ (Finset.mem_univ i), hrest, Function.update_self,
    ← Finset.add_sum_erase _ (fun j => f j (t j)) (Finset.mem_univ i)]
  omega

end CSem
