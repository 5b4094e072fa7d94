import BradVector.Proof.CallStack

/-!
# Budgets

The budget of `bvrt_run` counts the instructions since the launch, so a run that stops at a budget
can be taken up with a larger one. However a budget is cut into pieces, the run is the iteration of
`bvrt_step` that the whole budget allows.
-/

namespace BradVector

open CSem Machine

section Iteration

variable {F : HostMath} {d d' : Device} {m n k : Nat} {r : StepResult}

/-- Calls of `bvrt_step` from `d`, until one does not return `BV_OK`, the lanes have exited or `n`
instructions have executed, come to `r`. -/
inductive Device.IteratesTo (F : HostMath) (n : Nat) : Device → StepResult → Prop where
  | exited {d : Device} (h : d.warp.active = 0) : d.IteratesTo F n (.ok (.halt, d))
  | spent {d : Device} (hactive : d.warp.active ≠ 0) (h : n ≤ d.insns) :
      d.IteratesTo F n (.ok (.timeout, d))
  | stopped {d : Device} {r : StepResult} (hactive : d.warp.active ≠ 0) (hlt : d.insns < n)
      (h : bvrtStep F d = r) (hr : ∀ e, r ≠ .ok (.ok, e)) : d.IteratesTo F n r
  | next {d d' : Device} {r : StepResult} (hactive : d.warp.active ≠ 0) (hlt : d.insns < n)
      (h : bvrtStep F d = .ok (.ok, d')) (hrest : d'.IteratesTo F n r) : d.IteratesTo F n r

theorem Device.IteratesTo.eq_bvrtRun (h : d.IteratesTo F n r) : r = bvrtRun F d n := by
  induction h with
  | exited h => exact (bvrtRun_of_halted h).symm
  | spent hactive h =>
      rw [bvrtRun_of_spent h]
      exact (if_neg hactive).symm
  | stopped _ hlt h hr => exact (bvrtRun_of_last hlt (next_eq_error_iff.mpr ⟨h, hr⟩)).symm
  | next _ hlt h _ ih =>
      rw [bvrtRun_of_next hlt (next_eq_ok_iff.mpr h)]
      exact ih

theorem iteratesTo_bvrtRun (F : HostMath) (n : Nat) (d : Device) :
    d.IteratesTo F n (bvrtRun F d n) := by
  obtain ⟨k, hk⟩ : ∃ k, k = n - d.insns := ⟨_, rfl⟩
  induction k generalizing d with
  | zero =>
      have hspent : n ≤ d.insns := by omega
      by_cases hactive : d.warp.active = 0
      · rw [bvrtRun_of_halted hactive]
        exact .exited hactive
      · rw [bvrtRun_of_spent hspent, Device.runResult, if_neg hactive]
        exact .spent hactive hspent
  | succ k ih =>
      have hlt : d.insns < n := by omega
      by_cases hactive : d.warp.active = 0
      · rw [bvrtRun_of_halted hactive]
        exact .exited hactive
      · cases hs : d.next F with
        | ok d' =>
            rw [bvrtRun_of_next hlt hs]
            apply Device.IteratesTo.next hactive hlt (next_eq_ok_iff.mp hs)
            apply ih
            rw [next_insns hs]
            omega
        | error r =>
            obtain ⟨hstep, hr⟩ := next_eq_error_iff.mp hs
            rw [bvrtRun_of_last hlt hs]
            exact .stopped hactive hlt hstep hr

/-- The fuel of the loop is never what ends it. -/
theorem iteratesTo_iff : d.IteratesTo F n r ↔ r = bvrtRun F d n := by
  constructor
  · exact Device.IteratesTo.eq_bvrtRun
  · rintro rfl
    exact iteratesTo_bvrtRun F n d

end Iteration

/-! ### Taking a run up again -/

section Split

variable {F : HostMath} {d d' : Device} {m n : Nat}

theorem bvrtStep_ne_timeout : bvrtStep F d ≠ .ok (.timeout, d') := by
  intro h
  by_cases hex : d.Executing
  · rw [bvrtStep_of_executing hex] at h
    cases hres : executeInsn F d.counted d.fetch <;>
      · rw [hres] at h
        cases h
  · obtain hs | hs := bvrtStep_of_not_executing (F := F) hex
    all_goals
      rw [hs] at h
      cases h

/-- A device that runs out of a budget is on the way of every run with a larger one. -/
theorem Device.IteratesTo.resume {r r' : StepResult} (h : d.IteratesTo F m r)
    (hr : r = .ok (.timeout, d')) (hle : m ≤ n) (h' : d'.IteratesTo F n r') :
    d.IteratesTo F n r' := by
  induction h with
  | exited => cases hr
  | spent =>
      cases hr
      exact h'
  | stopped _ _ hstep => exact absurd (hstep.trans hr) bvrtStep_ne_timeout
  | next hactive hlt hstep _ ih => exact .next hactive (by omega) hstep (ih hr)

/-- A run that ends within a budget ends in the same way within a larger one. -/
theorem Device.IteratesTo.mono {r : StepResult} (h : d.IteratesTo F m r)
    (hr : ∀ e, r ≠ .ok (.timeout, e)) (hle : m ≤ n) : d.IteratesTo F n r := by
  induction h with
  | exited h => exact .exited h
  | spent => exact absurd rfl (hr _)
  | stopped hactive hlt hstep hok => exact .stopped hactive (by omega) hstep hok
  | next hactive hlt hstep _ ih => exact .next hactive (by omega) hstep (ih hr)

/-- **Splitting a budget.** A run that is taken up again after a timeout comes to what the run with
the larger budget comes to, which is what iterating `bvrt_step` comes to. -/
theorem bvrtRun_resumed (hle : m ≤ n) (h : bvrtRun F d m = .ok (.timeout, d')) :
    bvrtRun F d' n = bvrtRun F d n ∧ ∀ r, d.IteratesTo F n r ↔ r = bvrtRun F d n := by
  refine ⟨?_, fun r => iteratesTo_iff⟩
  have hfirst : d.IteratesTo F m (.ok (.timeout, d')) := iteratesTo_iff.mpr h.symm
  have hsecond : d'.IteratesTo F n (bvrtRun F d' n) := iteratesTo_bvrtRun F n d'
  exact iteratesTo_iff.mp (hfirst.resume rfl hle hsecond)

/-- `bvrt_run` with the budgets `ms` one after the other for as long as it runs out of them, and
with `n` in the end. -/
def Device.runSplit (F : HostMath) (n : Nat) : List Nat → Device → StepResult
  | [], d => bvrtRun F d n
  | m :: ms, d =>
      match bvrtRun F d m with
      | .ok (.timeout, d') => d'.runSplit F n ms
      | r => r

theorem runSplit_iterates {ms : List Nat} (hle : ∀ m ∈ ms, m ≤ n) :
    d.IteratesTo F n (d.runSplit F n ms) := by
  induction ms generalizing d with
  | nil => exact iteratesTo_bvrtRun F n d
  | cons m ms ih =>
      have hm : m ≤ n := hle m List.mem_cons_self
      have hms : ∀ m ∈ ms, m ≤ n := fun m h => hle m (List.mem_cons_of_mem _ h)
      have hfirst := iteratesTo_bvrtRun F m d
      rw [Device.runSplit]
      split
      next d' heq =>
        rw [heq] at hfirst
        exact hfirst.resume rfl hm (ih hms)
      next hother => exact hfirst.mono hother hm

/-- No cut of the budget shows in the result. -/
theorem runSplit_eq_bvrtRun {ms : List Nat} (hle : ∀ m ∈ ms, m ≤ n) :
    d.runSplit F n ms = bvrtRun F d n :=
  (runSplit_iterates hle).eq_bvrtRun

end Split

/-- A kernel stopped behind its `CALL` and taken up again. -/
theorem callKernel_resumed :
    bvrtRun HostMath.integer callEntered 5 = bvrtRun HostMath.integer callLaunched 5 :=
  (bvrtRun_resumed (m := 1) (by decide) rfl).1

end BradVector
