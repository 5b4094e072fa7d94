import BradVector.Bradgdb
import BradVector.Proof.Tracing

/-!
# Debugging against running

`bradgdb_continue` looks for a breakpoint before it takes a step. The first call stops where it
should, and every later one finds the breakpoint it is parked at again and takes no step at all.
-/

namespace BradVector

open CSem Machine

/-! ### What a debugger is to do -/

/-- The warp is live and its pc is at an enabled breakpoint. -/
def Bradgdb.Arrived (g : Bradgdb) (d : Device) : Prop :=
  d.warp.active ≠ 0 ∧ ∃ b ∈ g.breaks, b.enabled ≠ 0 ∧ b.pc = d.warp.pc

instance (g : Bradgdb) (d : Device) : Decidable (g.Arrived d) := by
  unfold Bradgdb.Arrived
  infer_instance

/-- The arrivals at breakpoints among the first `n` states of the run from `d`, in order. -/
def Bradgdb.arrivals (F : HostMath) (g : Bradgdb) : Nat → Device → List Device
  | 0, _ => []
  | n + 1, d =>
      let rest :=
        match d.next F with
        | .ok d' => g.arrivals F n d'
        | .error _ => []
      if g.Arrived d then d :: rest else rest

/-- `bradgdb_continue` returns `r`. -/
def Bradgdb.Continues (F : HostMath) (g : Bradgdb) (r : Except Access (BvStatus × Bradgdb)) :
    Prop :=
  ∃ fuel, bradgdbContinue F fuel g = some r

/-- Calls of `bradgdb_continue` until one does not return `BV_OK`: the devices the earlier ones stop
at, and the status and the device of the last. -/
inductive Session (F : HostMath) : Bradgdb → List Device → BvStatus → Device → Prop where
  | last {g g' : Bradgdb} {st : BvStatus} (h : g.Continues F (.ok (st, g'))) (hst : st ≠ .ok) :
      Session F g [] st g'.dev
  | stop {g g' : Bradgdb} {stops : List Device} {st : BvStatus} {d : Device}
      (h : g.Continues F (.ok (.ok, g'))) (rest : Session F g' stops st d) :
      Session F g (g'.dev :: stops) st d

/-- `g'` comes out of one or more calls that returned `BV_OK`, so that it is parked. -/
inductive Bradgdb.Parks (F : HostMath) (g : Bradgdb) : Bradgdb → Prop where
  | first {g' : Bradgdb} (h : g.Continues F (.ok (.ok, g'))) : g.Parks F g'
  | again {g₁ g₂ : Bradgdb} (h₁ : g.Parks F g₁) (h : g₁.Continues F (.ok (.ok, g₂))) : g.Parks F g₂

/-- Repeated calls stop at the arrivals of the run, in order and each once, the last one returns
`st` and leaves `d`, and a call that starts parked executes an instruction. -/
structure Bradgdb.FollowsRun (F : HostMath) (g : Bradgdb) (st : BvStatus) (d : Device) : Prop where
  session : ∃ N, ∀ n, N ≤ n → Session F g (g.arrivals F n g.dev) st d
  advances : ∀ g₁ st' g₂, g.Parks F g₁ → g₁.Continues F (.ok (st', g₂)) →
    g₁.dev.insns < g₂.dev.insns

/-- `bvrt_run` with an unlimited budget halts or traps, with `st` and `d'`. -/
def Device.Finishes (F : HostMath) (d : Device) (st : BvStatus) (d' : Device) : Prop :=
  (st = .halt ∨ st = .trap) ∧ ∃ N, ∀ n, N ≤ n → bvrtRun F d n = .ok (st, d')

theorem Device.Finishes.exists_steps {F : HostMath} {d d' : Device} {st : BvStatus}
    (h : d.Finishes F st d') :
    ∃ n t, d.Steps F n t ∧ t.next F = .error (.ok (st, d')) := by
  obtain ⟨hst, N, hN⟩ := h
  have hrun := hN (max N d.insns) (Nat.le_max_left _ _)
  generalize max N d.insns = maxInsns at hrun
  clear hN
  unfold bvrtRun at hrun
  generalize maxInsns - d.insns = fuel at hrun
  have hend (e : Device) (he : bvrtRunLoop F maxInsns 0 e = .ok (st, d')) :
      e.next F = .error (.ok (st, d')) := by
    rw [bvrtRunLoop] at he
    split at he
    next hactive =>
      cases he
      rw [next_eq_error_iff]
      refine ⟨?_, fun e h => by cases h⟩
      unfold bvrtStep
      rw [if_pos hactive]
    next =>
      cases he
      rcases hst with h | h <;> cases h
  induction fuel generalizing d with
  | zero => exact ⟨0, d, rfl, hend d hrun⟩
  | succ fuel ih =>
      rw [bvrtRunLoop] at hrun
      split at hrun
      next hlive =>
        cases hnext : d.next F with
        | ok e =>
            rw [next_eq_ok_iff.mp hnext] at hrun
            obtain ⟨n, t, hn, ht⟩ := ih hrun
            exact ⟨n + 1, t, by rw [Device.Steps, after_succ_of_ok hnext]; exact hn, ht⟩
        | error r =>
            obtain ⟨hstep, hne⟩ := next_eq_error_iff.mp hnext
            refine ⟨0, d, rfl, ?_⟩
            rw [hnext]
            rw [hstep] at hrun
            rcases r with a | ⟨st', e⟩
            · cases hrun
            · cases st'
              case ok => exact absurd rfl (hne e)
              all_goals
                cases hrun
                rfl
      next => exact ⟨0, d, rfl, hend d hrun⟩

/-! ### What the calls do -/

section Continue

variable {F : HostMath} {g g' : Bradgdb} {fuel n : Nat} {r : Except Access (BvStatus × Bradgdb)}

theorem atBreakpoint_eq_none_iff {d : Device} (hactive : d.warp.active ≠ 0) :
    atBreakpoint g.breaks d.warp.pc = none ↔ ¬ g.Arrived d := by
  unfold atBreakpoint Bradgdb.Arrived
  rw [List.findIdx?_eq_none_iff]
  constructor
  · rintro h ⟨-, b, hb, hen, hpc⟩
    exact of_decide_eq_false (h b hb) ⟨hen, hpc⟩
  · intro h b hb
    exact decide_eq_false fun hc => h ⟨hactive, b, hb, hc⟩

theorem continue_of_arrived (h : g.Arrived g.dev) :
    ∃ g', (∀ fuel, bradgdbContinue F (fuel + 1) g = some (.ok (.ok, g'))) ∧
      g'.dev = g.dev ∧ g'.Arrived g'.dev := by
  cases hbp : atBreakpoint g.breaks g.dev.warp.pc with
  | none => exact absurd h ((atBreakpoint_eq_none_iff h.1).mp hbp)
  | some bp =>
      refine ⟨{ g with breaks := g.breaks.modify bp fun b => { b with hit := b.hit + 1 } },
        fun fuel => ?_, rfl, h.1, ?_⟩
      · rw [bradgdbContinue]
        simp only [if_neg h.1, hbp]
      · -- only the count of hits has changed
        obtain ⟨b, hb, hen, hpc⟩ := h.2
        obtain ⟨i, hi, rfl⟩ := List.mem_iff_getElem.mp hb
        refine ⟨_, List.getElem_mem (n := i) (by rwa [List.length_modify]), ?_, ?_⟩
        · rw [List.getElem_modify]
          split <;> exact hen
        · rw [List.getElem_modify]
          split <;> exact hpc

theorem continue_of_next {d : Device} (hnot : ¬ g.Arrived g.dev) (h : g.dev.next F = .ok d) :
    bradgdbContinue F (fuel + 1) g =
      bradgdbContinue F fuel { g with dev := d, steps := g.steps + 1 } := by
  have hactive := (executing_of_next h).1.1
  rw [bradgdbContinue]
  simp only [if_neg hactive, (atBreakpoint_eq_none_iff hactive).mpr hnot, bradgdbStep,
    next_eq_ok_iff.mp h]
  rfl

theorem continue_of_last {st : BvStatus} {d : Device} (hnot : ¬ g.Arrived g.dev)
    (h : g.dev.next F = .error (.ok (st, d))) :
    ∃ g', bradgdbContinue F (fuel + 1) g = some (.ok (st, g')) ∧ g'.dev = d := by
  obtain ⟨hstep, hne⟩ := next_eq_error_iff.mp h
  rw [bradgdbContinue]
  by_cases hactive : g.dev.warp.active = 0
  · unfold bvrtStep at hstep
    rw [if_pos hactive] at hstep
    cases hstep
    exact ⟨g, if_pos hactive, rfl⟩
  · simp only [if_neg hactive, (atBreakpoint_eq_none_iff hactive).mpr hnot, bradgdbStep, hstep]
    cases st
    case ok => exact absurd rfl (hne d)
    all_goals exact ⟨{ g with dev := d }, rfl, rfl⟩

theorem continue_of_arrival {e : Device} (hn : g.dev.Steps F n e) (harr : g.Arrived e)
    (h : bradgdbContinue F fuel g = some r) :
    ∃ g', r = .ok (.ok, g') ∧ g'.Arrived g'.dev := by
  induction n generalizing g fuel with
  | zero =>
      cases hn
      cases fuel with
      | zero => cases h
      | succ fuel =>
          obtain ⟨g', hret, -, hparked⟩ := continue_of_arrived (F := F) harr
          rw [hret] at h
          cases h
          exact ⟨g', rfl, hparked⟩
  | succ n ih =>
      cases fuel with
      | zero => cases h
      | succ fuel =>
          by_cases hhere : g.Arrived g.dev
          · obtain ⟨g', hret, -, hparked⟩ := continue_of_arrived (F := F) hhere
            rw [hret] at h
            cases h
            exact ⟨g', rfl, hparked⟩
          · obtain ⟨d, hd, hrest⟩ := exists_after_of_le hn (Nat.succ_le_succ (Nat.zero_le n))
            rw [after_one] at hd
            rw [continue_of_next hhere hd] at h
            exact ih (g := { g with dev := d, steps := g.steps + 1 }) hrest harr h

/-- Parked at a breakpoint, the calls never get to another answer. -/
theorem not_session_of_arrived {stops : List Device} {st : BvStatus} {d : Device}
    (hs : Session F g stops st d) : ¬ g.Arrived g.dev := by
  induction hs with
  | last h hst =>
      intro harr
      obtain ⟨fuel, hfuel⟩ := h
      obtain ⟨g', hr, -⟩ := continue_of_arrival (n := 0) rfl harr hfuel
      cases hr
      exact hst rfl
  | stop h rest ih =>
      intro harr
      obtain ⟨fuel, hfuel⟩ := h
      obtain ⟨g', hr, hparked⟩ := continue_of_arrival (n := 0) rfl harr hfuel
      cases hr
      exact ih hparked

theorem not_session_of_arrival {e : Device} {stops : List Device} {st : BvStatus} {d : Device}
    (hn : g.dev.Steps F n e) (harr : g.Arrived e) : ¬ Session F g stops st d := by
  intro hs
  cases hs with
  | last h hst =>
      obtain ⟨fuel, hfuel⟩ := h
      obtain ⟨g', hr, -⟩ := continue_of_arrival hn harr hfuel
      cases hr
      exact hst rfl
  | stop h rest =>
      obtain ⟨fuel, hfuel⟩ := h
      obtain ⟨g', hr, hparked⟩ := continue_of_arrival hn harr hfuel
      cases hr
      exact not_session_of_arrived rest hparked

theorem continue_of_no_arrival {t d : Device} {st : BvStatus}
    (hno : ∀ m e, g.dev.Steps F m e → ¬ g.Arrived e) (hn : g.dev.Steps F n t)
    (ht : t.next F = .error (.ok (st, d))) :
    ∃ g', bradgdbContinue F (n + 1) g = some (.ok (st, g')) ∧ g'.dev = d := by
  induction n generalizing g with
  | zero =>
      cases hn
      exact continue_of_last (hno 0 _ rfl) ht
  | succ n ih =>
      obtain ⟨e, he, hrest⟩ := exists_after_of_le hn (Nat.succ_le_succ (Nat.zero_le n))
      rw [after_one] at he
      rw [continue_of_next (hno 0 _ rfl) he]
      refine ih (g := { g with dev := e, steps := g.steps + 1 }) (fun m u hu harr => ?_) hrest
      refine hno (m + 1) u ?_ harr
      rw [Device.Steps, after_succ_of_ok he]
      exact hu

theorem continue_ok_arrives (h : bradgdbContinue F fuel g = some (.ok (.ok, g'))) :
    ∃ n e, g.dev.Steps F n e ∧ g.Arrived e := by
  induction fuel generalizing g with
  | zero => cases h
  | succ fuel ih =>
      by_cases hhere : g.Arrived g.dev
      · exact ⟨0, _, rfl, hhere⟩
      · cases hnext : g.dev.next F with
        | ok d =>
            rw [continue_of_next hhere hnext] at h
            obtain ⟨n, e, hn, harr⟩ := ih h
            exact ⟨n + 1, e, by rw [Device.Steps, after_succ_of_ok hnext]; exact hn, harr⟩
        | error s =>
            rcases s with a | ⟨st, d⟩
            · obtain ⟨hstep, -⟩ := next_eq_error_iff.mp hnext
              have hactive := (bvrtStep_eq_error_iff.mp hstep).1.1
              rw [bradgdbContinue] at h
              simp only [if_neg hactive, (atBreakpoint_eq_none_iff hactive).mpr hhere, bradgdbStep,
                hstep] at h
              cases h
            · obtain ⟨g'', hret, -⟩ : ∃ g'', bradgdbContinue F (fuel + 1) g = some (.ok (st, g'')) ∧
                  g''.dev = d := continue_of_last hhere hnext
              rw [hret] at h
              cases h
              exact absurd rfl ((next_eq_error_iff.mp hnext).2 d)

theorem arrivals_eq_nil (hno : ∀ m e, g.dev.Steps F m e → ¬ g.Arrived e) {d : Device} {m : Nat}
    (hd : g.dev.Steps F m d) : g.arrivals F n d = [] := by
  induction n generalizing d m with
  | zero => rfl
  | succ n ih =>
      rw [Bradgdb.arrivals, if_neg (hno m d hd)]
      cases hnext : d.next F with
      | ok d' => exact ih (after_succ_eq_ok_iff.mpr ⟨d, hd, hnext⟩)
      | error r => rfl

end Continue

/-- **Debugging.** On a run that halts or traps, repeated calls of `bradgdb_continue` follow the run
exactly when it never arrives at an enabled breakpoint. -/
theorem followsRun_iff (F : HostMath) {g : Bradgdb} {st : BvStatus} {d : Device}
    (hrun : g.dev.Finishes F st d) :
    g.FollowsRun F st d ↔ ∀ n e, g.dev.Steps F n e → ¬ g.Arrived e := by
  constructor
  · rintro ⟨⟨N, hN⟩, -⟩ n e hn harr
    exact not_session_of_arrival hn harr (hN N le_rfl)
  · intro hno
    obtain ⟨n, t, hn, ht⟩ := hrun.exists_steps
    obtain ⟨g', hret, hdev⟩ := continue_of_no_arrival hno hn ht
    have hst : st ≠ .ok := by
      rcases hrun.1 with rfl | rfl <;> decide
    refine ⟨⟨0, fun m _ => ?_⟩, fun g₁ st' g₂ hparks => ?_⟩
    · rw [arrivals_eq_nil hno (m := 0) rfl, ← hdev]
      exact .last ⟨n + 1, hret⟩ hst
    · -- no call returns parked
      have hnever (g'' : Bradgdb) : ¬ g.Continues F (.ok (.ok, g'')) := by
        rintro ⟨fuel, hfuel⟩
        obtain ⟨m, e, hm, harr⟩ := continue_ok_arrives hfuel
        exact hno m e hm harr
      have hnone : ∀ g'', ¬ g.Parks F g'' := by
        intro g'' hp
        induction hp with
        | first h => exact hnever _ h
        | again h₁ h ih => exact ih
      exact absurd hparks (hnone g₁)

/-- The device of `exitLaunched` once its `EXIT` is executed. -/
def exitHalted : Device := (exitLaunched.counted.setActive 0).advance

theorem exitLaunched_next (F : HostMath) : exitLaunched.next F = .ok exitHalted := by rfl

theorem exitHalted_next (F : HostMath) : exitHalted.next F = .error (.ok (.halt, exitHalted)) := by
  rfl

theorem exitLaunched_finishes (F : HostMath) : exitLaunched.Finishes F .halt exitHalted := by
  refine ⟨Or.inl rfl, 2, fun n hn => ?_⟩
  refine bvrtRun_of_ends (n := 1) ?_ (exitHalted_next F) ?_
  · rw [Device.Steps, after_one]
    exact exitLaunched_next F
  · have hzero : exitLaunched.insns = 0 := rfl
    omega

/-- The `EXIT` under a debugger with an enabled breakpoint at `pc`. -/
def exitDebugged (pc : Word) : Bradgdb where
  dev := exitLaunched
  breaks := [⟨pc, 1, 0⟩]
  steps := 0

theorem exitDebugged_followsRun : (exitDebugged 5).FollowsRun HostMath.integer .halt
    exitHalted := by
  refine (followsRun_iff HostMath.integer (exitLaunched_finishes _)).mpr fun n e hn harr => ?_
  have hpc : e.warp.active = 0 ∨ e.warp.pc = 0 := by
    cases n with
    | zero =>
        cases hn
        exact Or.inr rfl
    | succ n =>
        replace hn : after (Device.next HostMath.integer) (n + 1) exitLaunched = .ok e := hn
        rw [after_succ_of_ok (exitLaunched_next _)] at hn
        cases n with
        | zero =>
            cases hn
            exact Or.inl rfl
        | succ n =>
            rw [after_succ_of_error (exitHalted_next _)] at hn
            cases hn
  rcases hpc with hzero | hpc
  · exact harr.1 hzero
  · obtain ⟨b, hb, -, hat⟩ := harr.2
    obtain rfl := List.mem_singleton.mp hb
    rw [hpc] at hat
    exact absurd hat (by decide)

/-- With a breakpoint at the kernel's entry no call ever executes the `EXIT`. -/
theorem not_forall_debugger_followsRun :
    ¬ ∀ (F : HostMath) (d₀ d : Device) (kernel : List Byte) (args : List Word),
      bvrtLaunch d₀ kernel args = some d → ∀ pc id g,
        bradlibBreakpoint (bradgdbAttach d) pc = some (id, g) → ∀ st d', d.Finishes F st d' →
          g.FollowsRun F st d' := by
  intro h
  have hfollows := h HostMath.integer _ _ _ _ exitLaunched_launch 0 0 (exitDebugged 0) rfl .halt
    exitHalted (exitLaunched_finishes _)
  obtain ⟨N, hN⟩ := hfollows.session
  exact not_session_of_arrival (n := 0) rfl (by decide) (hN N le_rfl)

end BradVector
