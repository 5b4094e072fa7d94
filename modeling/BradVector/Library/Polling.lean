import Mathlib.Data.BitVec

/-!
# Polling

The loop `while (timeout--) { if (seen) ...; }` over an unsigned counter. When the polls run out the
counter is decremented once more, from zero.
-/

namespace CSem

/-- How the loop ends: the counter, whether the last poll saw what was awaited, and the number of
polls. -/
structure Polled (w : Nat) where
  timeout : BitVec w
  seen : Bool
  polls : Nat
  deriving DecidableEq, Repr

/-- The loop from the counter `n` on, after `k` polls. -/
def pollLoop (w : Nat) (awaited : Nat → Bool) : (n k : Nat) → Polled w
  | 0, k => ⟨0 - 1, false, k⟩
  | n + 1, k => if awaited k then ⟨BitVec.ofNat w n, true, k + 1⟩ else pollLoop w awaited n (k + 1)

/-- The loop from the start, leaving early as soon as a poll sees what is awaited. -/
def poll {w : Nat} (awaited : Nat → Bool) (timeout : BitVec w) : Polled w :=
  pollLoop w awaited timeout.toNat 0

section

variable {w : Nat} {awaited : Nat → Bool} {timeout : BitVec w}

/-- A poll is the first that sees what is awaited, or none of those left is. -/
theorem pollLoop_cases (w : Nat) (awaited : Nat → Bool) (n k : Nat) :
    (∃ j < n, awaited (k + j) = true ∧ (∀ i < j, awaited (k + i) = false) ∧
        pollLoop w awaited n k = ⟨BitVec.ofNat w (n - (j + 1)), true, k + j + 1⟩) ∨
      (∀ j < n, awaited (k + j) = false) ∧ pollLoop w awaited n k = ⟨0 - 1, false, k + n⟩ := by
  induction n generalizing k with
  | zero => exact .inr ⟨fun j hj => absurd hj (Nat.not_lt_zero j), rfl⟩
  | succ n ih =>
      rw [pollLoop]
      by_cases hnow : awaited k = true
      · rw [if_pos hnow]
        exact .inl ⟨0, Nat.succ_pos n, hnow, fun i hi => absurd hi (Nat.not_lt_zero i), rfl⟩
      rw [if_neg hnow]
      rw [Bool.not_eq_true] at hnow
      rcases ih (k + 1) with ⟨j, hj, hseen, hbefore, heq⟩ | ⟨hnone, heq⟩
      · refine .inl ⟨j + 1, by omega, ?_, fun i hi => ?_, ?_⟩
        · rw [← hseen]
          congr 1
          omega
        · cases i with
          | zero => exact hnow
          | succ i =>
              rw [← hbefore i (by omega)]
              congr 1
              omega
        · rw [heq, show n + 1 - (j + 1 + 1) = n - (j + 1) by omega,
            show k + 1 + j + 1 = k + (j + 1) + 1 by omega]
      · refine .inr ⟨fun j hj => ?_, ?_⟩
        · cases j with
          | zero => exact hnow
          | succ j =>
              rw [← hnone j (by omega)]
              congr 1
              omega
        · rw [heq, show k + 1 + n = k + (n + 1) by omega]

theorem poll_cases (awaited : Nat → Bool) (timeout : BitVec w) :
    (∃ j < timeout.toNat, awaited j = true ∧ (∀ i < j, awaited i = false) ∧
        poll awaited timeout = ⟨BitVec.ofNat w (timeout.toNat - (j + 1)), true, j + 1⟩) ∨
      (∀ j < timeout.toNat, awaited j = false) ∧ poll awaited timeout =
        ⟨0 - 1, false, timeout.toNat⟩ := by
  have h := pollLoop_cases w awaited timeout.toNat 0
  simp only [Nat.zero_add] at h
  exact h

/-! ### What a wait reports -/

/-- A wait of at most `limit` polls returns `timeoutRet` exactly if no poll it made saw what is
awaited, and otherwise `okRet` after the first poll that did. -/
structure Reports (limit : Nat) (okRet timeoutRet : Int) (awaited : Nat → Bool)
    (result : Int × Nat) :
    Prop where
  bounded : result.2 ≤ limit
  timeout_iff : result.1 = timeoutRet ↔ ∀ k < result.2, awaited k = false
  success : result.1 ≠ timeoutRet → result.1 = okRet ∧
    ∃ k, result.2 = k + 1 ∧ awaited k = true ∧ ∀ j < k, awaited j = false

/-- **A wait that returns from within the loop** reports what it saw. -/
theorem reports_of_return {okRet timeoutRet : Int} (hne : okRet ≠ timeoutRet) :
    Reports timeout.toNat okRet timeoutRet awaited
      (if (poll awaited timeout).seen then okRet else timeoutRet,
        (poll awaited timeout).polls) := by
  rcases poll_cases awaited timeout with ⟨j, hj, hseen, hbefore, heq⟩ | ⟨hnone, heq⟩
  · rw [heq]
    refine ⟨hj, iff_of_false hne fun h => ?_, fun _ => ⟨rfl, j, rfl, hseen, hbefore⟩⟩
    rw [h j (Nat.lt_succ_self j)] at hseen
    cases hseen
  · rw [heq]
    exact ⟨le_rfl, iff_of_true rfl hnone, fun h => absurd rfl h⟩

/-- **A wait that tests the counter after the loop** reports what it saw only if a poll before the
last one saw it: on the last one the counter is zero already, and it is not when they have run
out. -/
theorem reports_of_counter_iff {okRet timeoutRet : Int} (hne : okRet ≠ timeoutRet) (hw : 0 < w) :
    Reports timeout.toNat okRet timeoutRet awaited
        (if (poll awaited timeout).timeout = 0 then timeoutRet else okRet,
          (poll awaited timeout).polls) ↔
      ∃ k, k + 1 < timeout.toNat ∧ awaited k = true := by
  rcases poll_cases awaited timeout with ⟨j, hj, hseen, hbefore, heq⟩ | ⟨hnone, heq⟩
  · have hzero : BitVec.ofNat w (timeout.toNat - (j + 1)) = 0 ↔ timeout.toNat = j + 1 := by
      have hlt := timeout.isLt
      rw [← BitVec.toNat_inj, BitVec.toNat_ofNat, BitVec.ofNat_eq_ofNat, BitVec.toNat_ofNat,
        Nat.zero_mod, Nat.mod_eq_of_lt (by omega)]
      omega
    rw [heq]
    dsimp only
    by_cases hlast : timeout.toNat = j + 1
    · rw [if_pos (hzero.mpr hlast)]
      refine iff_of_false (fun h => ?_) ?_
      · rw [h.timeout_iff.mp rfl j (Nat.lt_succ_self j)] at hseen
        cases hseen
      · rintro ⟨k, hk, hseen'⟩
        rw [hbefore k (by omega)] at hseen'
        cases hseen'
    · rw [if_neg (mt hzero.mp hlast)]
      refine iff_of_true ⟨hj, iff_of_false hne fun h => ?_, fun _ => ⟨rfl, j, rfl, hseen, hbefore⟩⟩
        ⟨j, by omega, hseen⟩
      rw [h j (Nat.lt_succ_self j)] at hseen
      cases hseen
  · have hwrapped : (0 - 1 : BitVec w) ≠ 0 := by
      intro h
      have hone : (1 : BitVec w) = 0 := (sub_eq_zero.mp h).symm
      have hvalue := congrArg BitVec.toNat hone
      rw [BitVec.ofNat_eq_ofNat, BitVec.toNat_ofNat, BitVec.ofNat_eq_ofNat, BitVec.toNat_ofNat,
        Nat.zero_mod, Nat.mod_eq_of_lt (Nat.one_lt_two_pow hw.ne')] at hvalue
      cases hvalue
    rw [heq]
    dsimp only
    rw [if_neg hwrapped]
    refine iff_of_false (fun h => ?_) ?_
    · exact hne (h.timeout_iff.mpr hnone)
    · rintro ⟨k, hk, hseen⟩
      rw [hnone k (by omega)] at hseen
      cases hseen

end

end CSem
