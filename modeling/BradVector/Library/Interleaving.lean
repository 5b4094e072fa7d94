import Mathlib.Data.List.Induction
import Mathlib.Data.Set.Function
import Mathlib.Logic.Function.Iterate

/-!
# Processes that share a memory

Each process has a state of its own and takes steps on a memory all share. Where no process writes
what another one accesses, a process does not notice the others: after any schedule its state, and
the memory it accesses, are what the same number of steps alone leaves.
-/

namespace CSem

variable {ι σ κ β : Type*} (step : σ → (κ → β) → σ × (κ → β))

/-- The states of all processes, and the memory. -/
abbrev World (ι σ κ β : Type*) := (ι → σ) × (κ → β)

/-- A step of process `i`. -/
def stepOf [DecidableEq ι] (w : World ι σ κ β) (i : ι) : World ι σ κ β :=
  let r := step (w.1 i) w.2
  (Function.update w.1 i r.1, r.2)

/-- A process on its own. -/
def alone (n : Nat) (p : σ × (κ → β)) : σ × (κ → β) := (fun p => step p.1 p.2)^[n] p

/-- On every memory that holds the same in `A`, the step comes to the same state, writes the same
into `W`, and nothing outside. -/
structure StepWithin (A W : Set κ) (p : σ × (κ → β)) : Prop where
  state : ∀ mem, Set.EqOn mem p.2 A → (step p.1 mem).1 = (step p.1 p.2).1
  written : ∀ mem, Set.EqOn mem p.2 A → Set.EqOn (step p.1 mem).2 (step p.1 p.2).2 W
  frame : ∀ mem, Set.EqOn mem p.2 A → ∀ x ∉ W, (step p.1 mem).2 x = mem x

/-- On its own, process `i` of `S` accesses only `A i` and writes only `W i`, and no other process
of `S` accesses what it writes. -/
structure Apart (S : Set ι) (A W : ι → Set κ) (w : World ι σ κ β) : Prop where
  sub : ∀ i ∈ S, W i ⊆ A i
  apart : ∀ i ∈ S, ∀ j ∈ S, i ≠ j → ∀ x ∈ W i, x ∉ A j
  within : ∀ i ∈ S, ∀ n, StepWithin step (A i) (W i) (alone step n (w.1 i, w.2))

/-- The processes of `S` have taken `taken` steps each. -/
structure AsAlone (S : Set ι) (A W : ι → Set κ) (w : World ι σ κ β) (taken : ι → Nat)
    (w' : World ι σ κ β) : Prop where
  state : ∀ i ∈ S, w'.1 i = (alone step (taken i) (w.1 i, w.2)).1
  accessed : ∀ i ∈ S, Set.EqOn w'.2 (alone step (taken i) (w.1 i, w.2)).2 (A i)
  others : ∀ x, (∀ i ∈ S, x ∉ W i) → w'.2 x = w.2 x

variable {step}

theorem alone_succ (n : Nat) (p : σ × (κ → β)) :
    alone step (n + 1) p = step (alone step n p).1 (alone step n p).2 :=
  Function.iterate_succ_apply' _ n p

section Schedule

variable {S : Set ι} {A W : ι → Set κ} {w w' : World ι σ κ β}

theorem AsAlone.refl (S : Set ι) (A W : ι → Set κ) (w : World ι σ κ β) :
    AsAlone step S A W w (fun _ => 0) w :=
  ⟨fun _ _ => rfl, fun _ _ _ _ => rfl, fun _ _ => rfl⟩

variable [DecidableEq ι]

theorem AsAlone.advance {taken : ι → Nat} (hw : Apart step S A W w)
    (h : AsAlone step S A W w taken w') {i : ι} (hi : i ∈ S) :
    AsAlone step S A W w (Function.update taken i (taken i + 1)) (stepOf step w' i) := by
  obtain ⟨hstate, hwritten, hframe⟩ := hw.within i hi (taken i)
  have hsame := h.accessed i hi
  rw [← h.state i hi] at hstate hwritten hframe
  refine ⟨fun j hjS => ?_, fun j hjS x hx => ?_, fun x hx => ?_⟩
  · by_cases hj : j = i
    · subst hj
      rw [Function.update_self, alone_succ, ← h.state j hjS]
      exact (Function.update_self ..).trans (hstate _ hsame)
    · rw [Function.update_of_ne hj, ← h.state j hjS]
      exact Function.update_of_ne hj _ _
  · by_cases hj : j = i
    · subst hj
      rw [Function.update_self, alone_succ, ← h.state j hjS]
      by_cases hxW : x ∈ W j
      · exact hwritten _ hsame hxW
      · exact (hframe _ hsame x hxW).trans
          ((hsame hx).trans (hframe _ (Set.eqOn_refl _ _) x hxW).symm)
    · -- what another process accesses is not written
      have hxW : x ∉ W i := fun hxW => hw.apart i hi j hjS (Ne.symm hj) x hxW hx
      rw [Function.update_of_ne hj]
      exact (hframe _ hsame x hxW).trans (h.accessed j hjS hx)
  · exact (hframe _ hsame x (hx i hi)).trans (h.others x hx)

/-- **Every schedule.** -/
theorem Apart.schedule [BEq ι] [LawfulBEq ι] (hw : Apart step S A W w) (sched : List ι)
    (hsched : ∀ i ∈ sched, i ∈ S) :
    AsAlone step S A W w (fun i => sched.count i) (sched.foldl (stepOf step) w) := by
  induction sched using List.reverseRecOn with
  | nil => exact AsAlone.refl S A W w
  | append_singleton sched i ih =>
      have hcount : (fun j => (sched ++ [i]).count j) =
          Function.update (fun j => sched.count j) i (sched.count i + 1) := by
        funext j
        by_cases hj : j = i
        · subst hj
          rw [Function.update_self, List.count_append, List.count_singleton_self]
        · rw [Function.update_of_ne hj, List.count_append, List.count_singleton,
            if_neg (by simpa using Ne.symm hj), Nat.add_zero]
      rw [hcount, List.foldl_append]
      exact (ih fun j hj => hsched j (List.mem_append_left _ hj)).advance hw (hsched i (by simp))

end Schedule

end CSem
