import BradVector.Bradgfx
import BradVector.Bradxonc

/-!
# Waiting for the hardware

`gfx_wait_idle` and `cru_wait_pll_lock` return from within their loops. `gfx_driver_init` breaks out
of its one and tells from the counter how it ended, which is wrong for the last poll and when the
polls have run out.
-/

namespace BradVector

open CSem

theorem gfxWaitReady_reports_iff (status : Nat → Word) :
    Reports gfxReadyTimeout.toNat gfxOk gfxErrTimeout (fun k => status k &&& gfxStatusReady ≠ 0)
        (gfxWaitReady status) ↔
      ∃ k, k + 1 < gfxReadyTimeout.toNat ∧ status k &&& gfxStatusReady ≠ 0 := by
  have hne : gfxOk ≠ gfxErrTimeout := by decide
  have h : Reports gfxReadyTimeout.toNat gfxOk gfxErrTimeout
      (fun k => decide (status k &&& gfxStatusReady ≠ 0)) (gfxWaitReady status) ↔ _ :=
    reports_of_counter_iff hne (by decide)
  simp only [decide_eq_true_eq] at h
  exact h

theorem gfxWaitIdle_reports (status : Nat → Word) (timeoutUs : Size) :
    Reports timeoutUs.toNat gfxOk gfxErrTimeout (fun k => status k &&& gfxStatusBusy = 0)
      (gfxWaitIdle status timeoutUs) :=
  reports_of_return (by decide)

theorem cruPllTimeout_le (timeoutUs : Size) : (cruPllTimeout timeoutUs).toNat ≤
    timeoutUs.toNat := by
  unfold cruPllTimeout
  split_ifs with h
  · exact h.le
  · rw [BitVec.toNat_setWidth]
    exact Nat.mod_le _ _

theorem cruWaitPllLock_reports (status : Nat → Word) (pllId : Int) (timeoutUs : Size) :
    Reports (cruPllTimeout timeoutUs).toNat 0 (-1)
      (fun k => status k &&& (1 : Word) <<< BitVec.ofInt 32 pllId ≠ 0)
      (cruWaitPllLock status pllId timeoutUs) :=
  reports_of_return (by decide)

/-- **The waits of the drivers** report what their polls saw just when the graphics engine is ready
before the last poll of `gfx_driver_init`. -/
theorem waits_report_iff (ready idle lock : Nat → Word) (idleUs lockUs : Size) (pllId : Int) :
    Reports gfxReadyTimeout.toNat gfxOk gfxErrTimeout (fun k => ready k &&& gfxStatusReady ≠ 0)
          (gfxWaitReady ready) ∧
        Reports idleUs.toNat gfxOk gfxErrTimeout (fun k => idle k &&& gfxStatusBusy = 0)
          (gfxWaitIdle idle idleUs) ∧
        Reports lockUs.toNat 0 (-1) (fun k => lock k &&& (1 : Word) <<< BitVec.ofInt 32 pllId ≠ 0)
          (cruWaitPllLock lock pllId lockUs) ↔
      ∃ k, k + 1 < gfxReadyTimeout.toNat ∧ ready k &&& gfxStatusReady ≠ 0 := by
  rw [gfxWaitReady_reports_iff]
  refine and_iff_left ⟨gfxWaitIdle_reports idle idleUs, ?_⟩
  have hlock := cruWaitPllLock_reports lock pllId lockUs
  exact ⟨hlock.bounded.trans (cruPllTimeout_le lockUs), hlock.timeout_iff, hlock.success⟩

/-- An engine that never becomes ready is reported as working. -/
theorem gfxWaitReady_never_ready :
    ¬ Reports gfxReadyTimeout.toNat gfxOk gfxErrTimeout (fun _ => (0 : Word) &&& gfxStatusReady ≠ 0)
      (gfxWaitReady fun _ => 0) := by
  intro h
  obtain ⟨k, -, hready⟩ := (gfxWaitReady_reports_iff fun _ => 0).mp h
  exact hready (by decide)

end BradVector
