import BradVector.Proof.Tracing
import Mathlib.Algebra.BigOperators.Fin

/-!
# What the tracer counts

The tracer keeps three counts of the run: its instructions, the histogram of the opcodes and the
recorded events. The histogram is kept with the events, so it stops when their array is full, and a
fetch outside the image is counted although nothing is executed.
-/

namespace BradVector

open CSem Machine

/-- All entries of the histogram together. -/
def Bvtl.histTotal (tl : Bvtl) : Nat := ∑ op : Fin (2 ^ 8), tl.opHist (.ofFin op)

/-- The tracer has counted the instructions of the device, each of them in the histogram, and has an
event for as many of them as there is room for. -/
structure Bvtl.Counts (tl : Bvtl) : Prop where
  insns : tl.insns = tl.dev.insns
  hist : tl.histTotal = tl.insns
  events : tl.events.length = min tl.insns bvtlMaxEvents

/-- The events and the histogram have all that there is room for. -/
structure Bvtl.Recorded (tl : Bvtl) : Prop where
  hist : tl.histTotal = min tl.insns bvtlMaxEvents
  events : tl.events.length = min tl.insns bvtlMaxEvents

section Record

variable {tl tl' : Bvtl} {pc : Word} {lanes : Byte}

theorem histTotal_update (op : Byte) (n : Nat) :
    ∑ k : Fin (2 ^ 8), Function.update tl.opHist op (tl.opHist op + n) (.ofFin k) =
      tl.histTotal + n := by
  have hindex : (fun k : Fin (2 ^ 8) =>
      Function.update tl.opHist op (tl.opHist op + n) (.ofFin k)) =
      Function.update (fun k => tl.opHist (.ofFin k)) op.toFin (tl.opHist op + n) := by
    funext k
    by_cases heq : k = op.toFin
    · subst heq
      simp
    · have hne : BitVec.ofFin k ≠ op := fun h => heq (congrArg BitVec.toFin h)
      simp [heq, hne]
  have hsum := Finset.sum_erase_add Finset.univ (fun k : Fin (2 ^ 8) => tl.opHist (.ofFin k))
    (Finset.mem_univ op.toFin)
  rw [hindex, Finset.sum_update_of_mem (Finset.mem_univ op.toFin), Finset.sdiff_singleton_eq_erase]
  calc
    tl.opHist op + n + ∑ k ∈ Finset.univ.erase op.toFin, tl.opHist (.ofFin k) =
        (∑ k ∈ Finset.univ.erase op.toFin, tl.opHist (.ofFin k)) +
          tl.opHist (.ofFin op.toFin) + n := by
      rw [BitVec.ofFin_toFin]
      omega
    _ = tl.histTotal + n := by rw [hsum, Bvtl.histTotal]

/-- One instruction more, and its record. -/
theorem Bvtl.Recorded.record {d : Device} (h : tl.Recorded) :
    (Bvtl.record { tl with dev := d, insns := tl.insns + 1 } pc lanes).Recorded := by
  obtain ⟨hhist, hevents⟩ := h
  unfold Bvtl.record
  dsimp only
  split_ifs with hroom
  · constructor
    · rw [Bvtl.histTotal]
      dsimp only
      rw [histTotal_update]
      omega
    · rw [List.length_append, List.length_singleton]
      dsimp only
      omega
  · constructor
    · change tl.histTotal = min (tl.insns + 1) bvtlMaxEvents
      omega
    · change tl.events.length = min (tl.insns + 1) bvtlMaxEvents
      omega

theorem Bvtl.Recorded.counts_iff (h : tl.Recorded) :
    tl.Counts ↔ tl.insns = tl.dev.insns ∧ tl.insns ≤ bvtlMaxEvents := by
  constructor
  · intro hc
    refine ⟨hc.insns, ?_⟩
    have hhist := hc.hist.symm.trans h.hist
    omega
  · rintro ⟨hinsns, hle⟩
    exact ⟨hinsns, h.hist.trans (Nat.min_eq_left hle), h.events⟩

end Record

/-! ### Retiring -/

section Retire

variable {F : HostMath} {tl tl' : Bvtl} {st : BvStatus}

/-- The device counts the steps that execute an instruction. -/
theorem bvrtStep_insns {d d' : Device} (h : bvrtStep F d = .ok (st, d')) :
    (d.Executing → d'.insns = d.insns + 1) ∧ (¬ d.Executing → d'.insns = d.insns) := by
  constructor
  · intro hex
    have hsame := executeInsn_sameProgram F d.counted d.fetch
    rw [bvrtStep_of_executing hex] at h
    cases hres : executeInsn F d.counted d.fetch with
    | ok e =>
        rw [hres] at hsame h
        cases h
        exact hsame.insns
    | stop e =>
        rw [hres] at hsame h
        cases h
        exact hsame.insns
    | undefined a =>
        rw [hres] at h
        cases h
  · intro hex
    obtain hs | hs := bvrtStep_of_not_executing (F := F) hex
    all_goals
      rw [hs] at h
      cases h
      rfl

theorem bvtlRetire_recorded (h : tl.Recorded) (hactive : tl.dev.warp.active ≠ 0)
    (hok : bvtlRetire F tl = .ok (st, tl')) :
    tl'.Recorded ∧ tl'.insns = tl.insns + 1 ∧ bvrtStep F tl.dev = .ok (st, tl'.dev) := by
  unfold bvtlRetire at hok
  simp only [if_neg hactive] at hok
  cases hstep : bvrtStep F tl.dev with
  | error a =>
      rw [hstep] at hok
      cases hok
  | ok r =>
      obtain ⟨st', d⟩ := r
      rw [hstep] at hok
      have hrecord : (Bvtl.record { tl with dev := d, insns := tl.insns + 1 } tl.dev.warp.pc
          (BitVec.ofNat 8 (popcount32 tl.dev.warp.active))).Recorded := h.record
      by_cases htrap : st' = .trap ∨ st' = .oob
      · obtain ⟨rfl, rfl⟩ := Prod.mk.inj (Except.ok.inj ((if_pos htrap).symm.trans hok))
        refine ⟨⟨hrecord.hist, hrecord.events⟩, ?_, ?_⟩
        · simp
        · simp
      · obtain ⟨rfl, rfl⟩ := Prod.mk.inj (Except.ok.inj ((if_neg htrap).symm.trans hok))
        refine ⟨hrecord, ?_, ?_⟩
        · simp
        · simp

/-- Every instruction the run gets to in `n` steps is fetched from inside the image, and with it and
the `used` instructions before the run the events are not more than there is room for. -/
def Device.TracedInside (F : HostMath) (d : Device) (n used : Nat) : Prop :=
  ∀ m e, m < n → d.Steps F m e → e.warp.active ≠ 0 → e.Executing ∧ used + m < bvtlMaxEvents

theorem tracedInside_zero (d : Device) (used : Nat) : d.TracedInside F 0 used :=
  fun m _ hm => absurd hm (Nat.not_lt_zero m)

theorem tracedInside_next_iff {d d' : Device} {k used : Nat} (h : d.next F = .ok d') :
    d.TracedInside F (k + 1) used ↔ used < bvtlMaxEvents ∧ d'.TracedInside F k (used + 1) := by
  constructor
  · intro hin
    refine ⟨(hin 0 d (by omega) rfl (executing_of_next h).1.1).2, ?_⟩
    intro m e hm he hactive
    obtain ⟨hex, hlt⟩ := hin (m + 1) e (by omega) (steps_succ_iff.mpr ⟨d', h, he⟩) hactive
    exact ⟨hex, by omega⟩
  · rintro ⟨hroom, hin⟩ m e hm he hactive
    cases m with
    | zero =>
        cases he
        exact ⟨(executing_of_next h).1, hroom⟩
    | succ m =>
        obtain ⟨u, hu, he⟩ := steps_succ_iff.mp he
        obtain rfl := Except.ok.inj (h.symm.trans hu)
        obtain ⟨hex, hlt⟩ := hin m e (by omega) he hactive
        exact ⟨hex, by omega⟩

theorem tracedInside_last_iff {d : Device} {k used : Nat} {r : StepResult}
    (h : d.next F = .error r) :
    d.TracedInside F (k + 1) used ↔ (d.warp.active ≠ 0 → d.Executing ∧ used < bvtlMaxEvents) := by
  constructor
  · intro hin hactive
    exact hin 0 d (by omega) rfl hactive
  · intro hin m e _ he hactive
    cases m with
    | zero =>
        cases he
        exact hin hactive
    | succ m =>
        obtain ⟨u, hu, -⟩ := steps_succ_iff.mp he
        rw [h] at hu
        cases hu

/-- The loop, from a tracer that has counted the instructions of the device. -/
theorem bvtlRunLoop_counts_iff {maxInsns fuel : Nat} (h : tl.Recorded)
    (hsame : tl.insns = tl.dev.insns)
    (hfuel : maxInsns - tl.insns = fuel) (hok : bvtlRunLoop F maxInsns fuel tl = .ok (st, tl')) :
    tl'.Counts ↔ tl.insns ≤ bvtlMaxEvents ∧ tl.dev.TracedInside F fuel tl.insns := by
  induction fuel generalizing tl with
  | zero =>
      obtain ⟨-, rfl⟩ := Prod.mk.inj (Except.ok.inj hok)
      rw [h.counts_iff]
      exact ⟨fun hc => ⟨hc.2, tracedInside_zero _ _⟩, fun hc => ⟨hsame, hc.1⟩⟩
  | succ k ih =>
      rw [bvtlRunLoop, if_pos (by omega)] at hok
      by_cases hactive : tl.dev.warp.active = 0
      · have hretire : bvtlRetire F tl = .ok (.halt, tl) := if_pos hactive
        have hlast : tl.dev.next F = .error (.ok (.halt, tl.dev)) := by
          refine next_eq_error_iff.mpr ⟨?_, by simp⟩
          unfold bvrtStep
          rw [if_pos hactive]
        rw [hretire] at hok
        obtain ⟨-, rfl⟩ := Prod.mk.inj (Except.ok.inj hok)
        rw [h.counts_iff, tracedInside_last_iff hlast]
        exact ⟨fun hc => ⟨hc.2, fun hne => absurd hactive hne⟩, fun hc => ⟨hsame, hc.1⟩⟩
      · cases hretire : bvtlRetire F tl with
        | error a =>
            rw [hretire] at hok
            cases hok
        | ok r =>
            obtain ⟨st₁, tl₁⟩ := r
            obtain ⟨hrec, hinsns, hstep⟩ := bvtlRetire_recorded h hactive hretire
            obtain ⟨hcounted, hkept⟩ := bvrtStep_insns hstep
            rw [hretire] at hok
            by_cases hcont : st₁ = .ok
            · subst hcont
              have hnext := next_eq_ok_iff.mpr hstep
              have hdev := hcounted (executing_of_next hnext).1
              rw [tracedInside_next_iff hnext, ← hinsns, ih hrec (by omega) (by omega) hok]
              constructor
              · rintro ⟨hle, hin⟩
                exact ⟨by omega, by omega, hin⟩
              · rintro ⟨-, hlt, hin⟩
                exact ⟨by omega, hin⟩
            · have hend : (st, tl') = (st₁, tl₁) := by
                cases st₁
                case ok => exact absurd rfl hcont
                all_goals exact (Except.ok.inj hok).symm
              obtain ⟨rfl, rfl⟩ := Prod.mk.inj hend
              have hlast : tl.dev.next F = .error (.ok (st, tl'.dev)) :=
                next_eq_error_iff.mpr ⟨hstep, by simpa using hcont⟩
              rw [hrec.counts_iff, tracedInside_last_iff hlast]
              constructor
              · rintro ⟨hsame', hle⟩
                refine ⟨by omega, fun _ => ⟨?_, by omega⟩⟩
                by_contra hex
                have hdev := hkept hex
                omega
              · rintro ⟨-, hin⟩
                obtain ⟨hex, hlt⟩ := hin hactive
                have hdev := hcounted hex
                omega

end Retire

/-- At the end of a traced run the counts are right exactly when the run stays inside the image and
its instructions are not more than the events there is room for. -/
theorem counts_iff_of_bvtlRun (F : HostMath) {d₀ d : Device} {kernel : List Byte} {args : List Word}
    (hlaunch : bvrtLaunch d₀ kernel args = some d) {n : Nat} {st : BvStatus} {tl : Bvtl}
    (hok : bvtlRun F (bvtlCreate d) n = .ok (st, tl)) : tl.Counts ↔ d.TracedInside F n 0 := by
  have hfresh : (bvtlCreate d).Recorded := by
    constructor
    · simp [bvtlCreate, Bvtl.histTotal]
    · rfl
  have hloop := bvtlRunLoop_counts_iff (F := F) hfresh (launch_insns hlaunch).symm rfl hok
  rw [hloop]
  exact and_iff_right (Nat.zero_le _)

/-- **Counting.** A traced run ends with its instructions counted, each of them in the histogram,
exactly when it fetches no instruction from outside the image, its instructions are not more than
the events there is room for, and all of them are in bounds. -/
theorem bvtlRun_counts_iff (F : HostMath) {d₀ d : Device} {kernel : List Byte} {args : List Word}
    (hlaunch : bvrtLaunch d₀ kernel args = some d) (n : Nat) :
    (∃ st tl, bvtlRun F (bvtlCreate d) n = .ok (st, tl) ∧ tl.Counts) ↔
      d.TracedInside F n 0 ∧ d.InBoundsFor F n := by
  have hdefined : (∃ st tl, bvtlRun F (bvtlCreate d) n = .ok (st, tl)) ↔ d.InBoundsFor F n :=
    bvtlRunLoop_ok_iff rfl
  rw [← hdefined]
  constructor
  · rintro ⟨st, tl, hok, hcounts⟩
    exact ⟨(counts_iff_of_bvtlRun F hlaunch hok).mp hcounts, st, tl, hok⟩
  · rintro ⟨hinside, st, tl, hok⟩
    exact ⟨st, tl, hok, (counts_iff_of_bvtlRun F hlaunch hok).mpr hinside⟩

theorem exitKernel_counts :
    ∃ st tl, bvtlRun HostMath.integer (bvtlCreate exitLaunched) 2 = .ok (st, tl) ∧ tl.Counts := by
  refine (bvtlRun_counts_iff HostMath.integer exitLaunched_launch 2).mpr
    ⟨fun m e hm he hactive => ?_, exitLaunched_inBoundsFor⟩
  obtain rfl | rfl : m = 0 ∨ m = 1 := by omega
  · cases he
    exact ⟨⟨by decide, by decide, by decide⟩, by decide⟩
  · unfold Device.Steps at he
    rw [after_one] at he
    cases he
    exact absurd rfl hactive

/-- A kernel `k` of one `BAR`, which runs off its end. -/
def barKernel : BvbcImage :=
  { BvbcImage.zero with
    kernels := [{ name := kernelName (cstr "k"), entry := 0, nargs := 0 }]
    insns := .array [bven Opcode.bar.toByte 0 0 0 0 0 0 0]
    ninsn := 1 }

/-- The fetch behind the `BAR` traps, and the tracer has counted two instructions where the device
has executed one. -/
theorem not_forall_traced_counts :
    ¬ ∀ (F : HostMath) (d₀ d : Device) (kernel : List Byte) (args : List Word),
      bvrtLaunch d₀ kernel args = some d → ∀ (n : Nat) (st : BvStatus) (tl : Bvtl),
        bvtlRun F (bvtlCreate d) n = .ok (st, tl) → tl.Counts := by
  intro h
  obtain ⟨d, hlaunch⟩ : ∃ d,
      bvrtLaunch (bvrtLoad (bvrtCreate 64 fun _ => 0) barKernel) (cstr "k") [] = some d :=
    ⟨_, rfl⟩
  obtain ⟨st, tl, hrun, htraced, hexecuted⟩ : ∃ st tl,
      bvtlRun HostMath.integer (bvtlCreate d) 5 = .ok (st, tl) ∧ tl.insns = 2 ∧
        tl.dev.insns = 1 := by
    cases hlaunch
    exact ⟨_, _, rfl, rfl, rfl⟩
  have hcounts := h HostMath.integer _ d _ _ hlaunch 5 st tl hrun
  have hsame := hcounts.insns
  omega

end BradVector
