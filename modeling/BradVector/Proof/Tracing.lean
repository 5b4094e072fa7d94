import BradVector.Bradtimeline
import BradVector.Proof.Runs

/-!
# Tracing against running

`bvtl_run` and `bvrt_run` are two loops around `bvrt_step`. They take the same steps, and differ
only in what they test behind the loop: `bvrt_run` looks at the active mask before it reports a
timeout, and `bvtl_run` does not.
-/

namespace BradVector

open CSem Machine

/-! ### The instruction that retires the warp -/

theorem executeInsn_active (F : HostMath) (d : Device) (i : BvInsn) :
    (executeInsn F d i).Sat
      (fun d' => d'.warp.active = if Opcode.ofByte i.op = some .exit then 0 else d.warp.active)
      (fun _ => True) (fun _ => True) := by
  have hcases := effect_cases F d.warp.pc d.warp.cycles i
  by_cases hexit : Opcode.ofByte i.op = some .exit
  · unfold executeInsn
    rw [effect_exit hexit]
    simp [hexit, Device.advance, Device.setActive]
  · simp only [if_neg hexit]
    have hloop (body : Fin warpSize → Local → LaneOutcome Local) :
        (forLanes i.pred body d).Sat (fun d' => d'.warp.active = d.warp.active) (fun _ => True)
          (fun _ => True) :=
      (forLanes_keeps (Q := fun _ _ => True) (fun _ => trivial) fun l m r _ => by
        cases body l ⟨d.lane l, m, r⟩ <;> trivial).mono (fun d' h => h.1) (fun _ _ => trivial)
          fun _ h => h
    unfold executeInsn
    cases heff : effect F d.warp.pc d.warp.cycles i with
    | lanes body => exact (hloop body).bind fun d' h => h
    | call => exact (hloop _).bind fun d' h => h
    | branch =>
        apply branch_sat
        intro taken
        cases taken <;> rfl
    | ret =>
        exact (retLoop_sat d).mono (fun d' h => h.active) (fun _ _ => trivial) fun _ h => h.elim
    | barrier => rfl
    | trap => trivial
    | exit =>
        rw [heff] at hcases
        exact absurd hcases hexit

/-- A step that goes on halts the warp exactly if it executes `EXIT`. -/
theorem next_active_eq_zero_iff {F : HostMath} {d d' : Device} (h : d.next F = .ok d') :
    d'.warp.active = 0 ↔ Opcode.ofByte d.fetch.op = some .exit := by
  obtain ⟨hex, hok⟩ := executing_of_next h
  have hactive := (executeInsn_active F d.counted d.fetch).of_eq_ok hok
  rw [hactive]
  split_ifs with hop
  · simp [hop]
  · simp only [hop, iff_false]
    exact hex.1

/-- The `n`-th instruction of the run from `d` is an `EXIT`. -/
def Device.ExitsAt (F : HostMath) (d : Device) (n : Nat) : Prop :=
  ∃ m e, n = m + 1 ∧ d.Steps F m e ∧ e.Executing ∧ Opcode.ofByte e.fetch.op = some .exit

theorem exitsAt_iff {F : HostMath} {d : Device} {n : Nat} (hactive : d.warp.active ≠ 0) :
    d.ExitsAt F n ↔ ∃ e, d.Steps F n e ∧ e.warp.active = 0 := by
  constructor
  · rintro ⟨m, e, rfl, hm, hex, hop⟩
    have hok : executeInsn F e.counted e.fetch = .ok ((e.counted.setActive 0).advance) := by
      unfold executeInsn
      rw [effect_exit hop]
    have hnext := next_of_executing hex hok
    exact ⟨_, after_succ_eq_ok_iff.mpr ⟨e, hm, hnext⟩, rfl⟩
  · rintro ⟨e, hn, hzero⟩
    cases n with
    | zero =>
        cases hn
        exact absurd hzero hactive
    | succ m =>
        obtain ⟨e', hm, hnext⟩ := after_succ_eq_ok_iff.mp hn
        exact ⟨m, e', rfl, hm, (executing_of_next hnext).1,
          (next_active_eq_zero_iff hnext).mp hzero⟩

/-! ### The two loops -/

/-- The status and the device a call of the tracer leaves. -/
def seen (r : Except Access (BvStatus × Bvtl)) : StepResult := r.map fun p => (p.1, p.2.dev)

@[simp]
theorem record_dev (tl : Bvtl) (pc : Word) (lanes : Byte) : (tl.record pc lanes).dev = tl.dev := by
  unfold Bvtl.record
  split <;> rfl

@[simp]
theorem record_insns (tl : Bvtl) (pc : Word) (lanes : Byte) :
    (tl.record pc lanes).insns = tl.insns := by
  unfold Bvtl.record
  split <;> rfl

theorem bvtlRetire_cases (F : HostMath) {tl : Bvtl} (hactive : tl.dev.warp.active ≠ 0) :
    (∃ a, bvrtStep F tl.dev = .error a ∧ bvtlRetire F tl = .error a) ∨
      ∃ st tl', bvrtStep F tl.dev = .ok (st, tl'.dev) ∧ bvtlRetire F tl = .ok (st, tl') ∧
        tl'.insns = tl.insns + 1 := by
  unfold bvtlRetire
  simp only [if_neg hactive]
  rcases bvrtStep F tl.dev with a | ⟨st, d⟩
  · exact Or.inl ⟨a, rfl, rfl⟩
  · refine Or.inr ?_
    by_cases htrap : st = .trap ∨ st = .oob
    · refine ⟨st, _, ?_, if_pos htrap, ?_⟩
      · simp
      · simp
    · refine ⟨st, _, ?_, if_neg htrap, ?_⟩
      · simp
      · simp

/-- The loops agree unless the warp is found halted when the budget is spent. -/
theorem bvtlRunLoop_eq_iff (F : HostMath) (maxInsns : Nat) {fuel : Nat} {tl : Bvtl}
    (hsame : tl.insns = tl.dev.insns) (hfuel : maxInsns - tl.insns = fuel) :
    seen (bvtlRunLoop F maxInsns fuel tl) = bvrtRunLoop F maxInsns fuel tl.dev ↔
      ¬ ∃ e, tl.dev.Steps F fuel e ∧ e.warp.active = 0 := by
  induction fuel generalizing tl with
  | zero =>
      have hzero : (∃ e, tl.dev.Steps F 0 e ∧ e.warp.active = 0) ↔ tl.dev.warp.active = 0 := by
        refine ⟨?_, fun h => ⟨_, rfl, h⟩⟩
        rintro ⟨e, he, h⟩
        cases he
        exact h
      rw [hzero]
      by_cases h : tl.dev.warp.active = 0 <;> simp [bvtlRunLoop, bvrtRunLoop, seen, h, Except.map]
  | succ k ih =>
      have hlast {r : StepResult} (h : tl.dev.next F = .error r) :
          ¬ ∃ e, tl.dev.Steps F (k + 1) e ∧ e.warp.active = 0 := by
        rintro ⟨e, he, -⟩
        obtain ⟨u, hu, -⟩ := steps_succ_iff.mp he
        rw [h] at hu
        cases hu
      have hlt : tl.insns < maxInsns := by omega
      rw [bvtlRunLoop, if_pos hlt, bvrtRunLoop]
      by_cases hactive : tl.dev.warp.active = 0
      · have hretire : bvtlRetire F tl = .ok (.halt, tl) := if_pos hactive
        rw [if_neg fun h => h.1 hactive, if_pos hactive, hretire]
        refine iff_of_true rfl ?_
        rintro ⟨e, he, -⟩
        obtain ⟨u, hu, -⟩ := steps_succ_iff.mp he
        exact (executing_of_next hu).1.1 hactive
      · rw [if_pos ⟨hactive, by rw [← hsame]; exact hlt⟩]
        rcases bvtlRetire_cases F hactive with ⟨a, hstep, hretire⟩ | ⟨st, tl', hstep, hretire, hins⟩
        · rw [hstep, hretire]
          exact iff_of_true rfl (hlast (next_eq_error_iff.mpr ⟨hstep, by simp⟩))
        · rw [hstep, hretire]
          cases st
          case ok =>
            have hnext := next_eq_ok_iff.mpr hstep
            have hrest : (∃ e, tl.dev.Steps F (k + 1) e ∧ e.warp.active = 0) ↔
                ∃ e, tl'.dev.Steps F k e ∧ e.warp.active = 0 := by
              simp only [steps_succ_iff, hnext, Except.ok.injEq, exists_eq_left']
            rw [hrest]
            exact ih (by rw [hins, next_insns hnext, hsame]) (by omega)
          all_goals
            exact iff_of_true rfl (hlast (next_eq_error_iff.mpr ⟨hstep, by simp⟩))

/-! ### Runs in bounds -/

/-- The instructions the run gets to in `n` steps are all in bounds. -/
def Device.InBoundsFor (F : HostMath) (d : Device) (n : Nat) : Prop :=
  ∀ m e, m < n → d.Steps F m e → e.Executing → e.InBounds

section InBounds

variable {F : HostMath} {d d' : Device} {k : Nat}

theorem inBoundsFor_next_iff (h : d.next F = .ok d') :
    d.InBoundsFor F (k + 1) ↔ d'.InBoundsFor F k := by
  constructor
  · intro hin m e hm he hex
    exact hin (m + 1) e (by omega) (steps_succ_iff.mpr ⟨d', h, he⟩) hex
  · intro hin m e hm he hex
    cases m with
    | zero =>
        cases he
        exact exists_bvrtStep_iff.mp ⟨_, _, next_eq_ok_iff.mp h⟩ hex
    | succ m =>
        obtain ⟨u, hu, he⟩ := steps_succ_iff.mp he
        obtain rfl := Except.ok.inj (h.symm.trans hu)
        exact hin m e (by omega) he hex

theorem inBoundsFor_last_iff {r : StepResult} (h : d.next F = .error r) :
    d.InBoundsFor F (k + 1) ↔ (d.Executing → d.InBounds) := by
  constructor
  · intro hin hex
    exact hin 0 d (by omega) rfl hex
  · intro hin m e _ he hex
    cases m with
    | zero =>
        cases he
        exact hin hex
    | succ m =>
        obtain ⟨u, hu, -⟩ := steps_succ_iff.mp he
        rw [h] at hu
        cases hu

/-- The tracer's loop returns exactly when the instructions it gets to are in bounds. -/
theorem bvtlRunLoop_ok_iff {maxInsns fuel : Nat} {tl : Bvtl} (hfuel : maxInsns - tl.insns = fuel) :
    (∃ st tl', bvtlRunLoop F maxInsns fuel tl = .ok (st, tl')) ↔ tl.dev.InBoundsFor F fuel := by
  induction fuel generalizing tl with
  | zero => exact iff_of_true ⟨.timeout, tl, rfl⟩ fun m e hm => absurd hm (Nat.not_lt_zero m)
  | succ k ih =>
      rw [bvtlRunLoop, if_pos (by omega)]
      by_cases hactive : tl.dev.warp.active = 0
      · have hretire : bvtlRetire F tl = .ok (.halt, tl) := if_pos hactive
        rw [hretire]
        have hstep : bvrtStep F tl.dev = .ok (.halt, tl.dev) := if_pos hactive
        rw [inBoundsFor_last_iff (next_eq_error_iff.mpr ⟨hstep, by simp⟩)]
        exact iff_of_true ⟨.halt, tl, rfl⟩ fun hex => absurd hactive hex.1
      rcases bvtlRetire_cases F hactive with ⟨a, hstep, hretire⟩ | ⟨st, tl', hstep, hretire, hins⟩
      · rw [hretire, inBoundsFor_last_iff (next_eq_error_iff.mpr ⟨hstep, by simp⟩)]
        refine iff_of_false ?_ fun hin => bvrtStep_defined_iff.mpr hin a hstep
        rintro ⟨st, tl', hok⟩
        cases hok
      · rw [hretire]
        cases st
        case ok =>
          rw [inBoundsFor_next_iff (next_eq_ok_iff.mpr hstep)]
          exact ih (by omega)
        all_goals
          rw [inBoundsFor_last_iff (next_eq_error_iff.mpr ⟨hstep, by simp⟩)]
          exact iff_of_true ⟨_, tl', rfl⟩ (exists_bvrtStep_iff.mp ⟨_, _, hstep⟩)

end InBounds

/-! ### Runs from a launch -/

theorem seen_eq_ok_iff {r : Except Access (BvStatus × Bvtl)} {st : BvStatus} {d : Device} :
    seen r = .ok (st, d) ↔ ∃ tl, r = .ok (st, tl) ∧ tl.dev = d := by
  rcases r with a | ⟨st', tl⟩
  · simp [seen, Except.map]
  · simp only [seen, Except.map, Except.ok.injEq, Prod.mk.injEq]
    constructor
    · rintro ⟨rfl, hdev⟩
      exact ⟨tl, ⟨rfl, rfl⟩, hdev⟩
    · rintro ⟨tl', ⟨rfl, rfl⟩, hdev⟩
      exact ⟨rfl, hdev⟩

/-- From a launch, the two loops end alike, an access out of bounds included, unless the instruction
that spends the budget is an `EXIT`. -/
theorem seen_bvtlRun_eq_iff (F : HostMath) {d₀ d : Device} {kernel : List Byte}
    {args : List Word} (hlaunch : bvrtLaunch d₀ kernel args = some d) (n : Nat) :
    seen (bvtlRun F (bvtlCreate d) n) = bvrtRun F d n ↔ ¬ d.ExitsAt F n := by
  have hinsns := launch_insns hlaunch
  have hactive : d.warp.active ≠ 0 := by
    rw [launch_active hlaunch]
    decide
  have hloop : seen (bvtlRunLoop F n n (bvtlCreate d)) = bvrtRunLoop F n n d ↔ _ :=
    bvtlRunLoop_eq_iff F n hinsns.symm rfl
  rw [exitsAt_iff hactive]
  unfold bvtlRun bvrtRun
  rw [hinsns]
  exact hloop

/-- **Tracing.** From a launch, `bvtl_run` returns the status of `bvrt_run` and leaves the same
device exactly when the instruction that spends the budget is not an `EXIT` and all instructions
executed are in bounds. -/
theorem bvtlRun_eq_bvrtRun_iff (F : HostMath) {d₀ d : Device} {kernel : List Byte}
    {args : List Word} (hlaunch : bvrtLaunch d₀ kernel args = some d) (n : Nat) :
    (∃ st tl, bvtlRun F (bvtlCreate d) n = .ok (st, tl) ∧ bvrtRun F d n = .ok (st, tl.dev)) ↔
      ¬ d.ExitsAt F n ∧ d.InBoundsFor F n := by
  have hsame := seen_bvtlRun_eq_iff F hlaunch n
  have hdefined : (∃ st tl, bvtlRun F (bvtlCreate d) n = .ok (st, tl)) ↔ d.InBoundsFor F n :=
    bvtlRunLoop_ok_iff rfl
  rw [← hsame, ← hdefined]
  constructor
  · rintro ⟨st, tl, htraced, hrun⟩
    exact ⟨(seen_eq_ok_iff.mpr ⟨tl, htraced, rfl⟩).trans hrun.symm, st, tl, htraced⟩
  · rintro ⟨heq, st, tl, htraced⟩
    exact ⟨st, tl, htraced, heq.symm.trans (seen_eq_ok_iff.mpr ⟨tl, htraced, rfl⟩)⟩

/-- The device with a kernel `k` that is one `EXIT`, launched. -/
def exitLaunched : Device :=
  { bvrtLoad (bvrtCreate 64 fun _ => 0) exitKernel with
    warp := {
      pc := 0
      active := 0xFFFFFFFF
      lanes := fun l => { Lane.zero with s := launchRegs [] l }
      cycles := 0 } }

theorem exitLaunched_launch :
    bvrtLaunch (bvrtLoad (bvrtCreate 64 fun _ => 0) exitKernel) (cstr "k") [] =
      some exitLaunched := rfl

theorem exitLaunched_inBoundsFor : exitLaunched.InBoundsFor HostMath.integer 2 := by
  intro m e hm he hex
  obtain rfl | rfl : m = 0 ∨ m = 1 := by omega
  · cases he
    refine ⟨Or.inl fun op hop => ?_, fun op len hop hlen => ?_⟩
    · cases hop
      exact ⟨fieldsInRange_of_nil rfl rfl, fun h => by cases h⟩
    · cases hop
      cases hlen
  · unfold Device.Steps at he
    rw [after_one] at he
    cases he
    exact absurd rfl hex.1

/-- With a budget of two the `EXIT` is not what spends it. -/
theorem exitKernel_traced_with_two :
    ∃ st tl, bvtlRun HostMath.integer (bvtlCreate exitLaunched) 2 = .ok (st, tl) ∧
      bvrtRun HostMath.integer exitLaunched 2 = .ok (st, tl.dev) := by
  refine (bvtlRun_eq_bvrtRun_iff HostMath.integer exitLaunched_launch 2).mpr
    ⟨?_, exitLaunched_inBoundsFor⟩
  rintro ⟨m, e, hm, he, hex, -⟩
  obtain rfl : m = 1 := by omega
  unfold Device.Steps at he
  rw [after_one] at he
  cases he
  exact hex.1 rfl

/-- With a budget of one the run has halted, and the tracer reports a timeout. -/
theorem not_forall_traced_eq_run :
    ¬ ∀ (F : HostMath) (d₀ d : Device) (kernel : List Byte) (args : List Word),
      bvrtLaunch d₀ kernel args = some d → ∀ n,
        seen (bvtlRun F (bvtlCreate d) n) = bvrtRun F d n := by
  intro h
  have heq := h HostMath.integer _ _ _ _ exitLaunched_launch 1
  have hstatus := congrArg (fun r : StepResult => (r.toOption.map Prod.fst)) heq
  exact absurd hstatus (by decide)

end BradVector
