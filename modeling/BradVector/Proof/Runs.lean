import BradVector.Library.Machine
import BradVector.Proof.LaneMask

/-!
# Counted runs

The interpreter as a machine: `Device.next` is a call of `bvrt_step` that lets a run loop go on, and
the run ends with the first call that does not. Each loop around `bvrt_step` is related to the steps
of this machine.
-/

namespace BradVector

open CSem Machine

/-- A step, as a run loop sees it: it goes on after `BV_OK` only. -/
def Device.next (F : HostMath) (d : Device) : Except StepResult Device :=
  match bvrtStep F d with
  | .ok (.ok, d') => .ok d'
  | r => .error r

/-- `d'` is `n` instructions after `d`. -/
def Device.Steps (F : HostMath) (n : Nat) (d d' : Device) : Prop :=
  after (Device.next F) n d = .ok d'

/-- The run from `d` ends with a step that returns `r`. -/
def Device.EndsWith (F : HostMath) (d : Device) (r : StepResult) : Prop :=
  Machine.EndsWith (Device.next F) d r

section Step

variable {F : HostMath} {d d' : Device} {r : StepResult}

theorem next_eq_ok_iff : d.next F = .ok d' ↔ bvrtStep F d = .ok (.ok, d') := by
  unfold Device.next
  rcases bvrtStep F d with a | ⟨st, e⟩
  · simp
  · cases st <;> simp

theorem next_eq_error_iff : d.next F = .error r ↔ bvrtStep F d = r ∧ ∀ e, r ≠ .ok (.ok, e) := by
  unfold Device.next
  rcases bvrtStep F d with a | ⟨st, e⟩
  · simp only [Except.error.injEq]
    refine ⟨?_, fun h => h.1⟩
    rintro rfl
    exact ⟨rfl, fun e h => by cases h⟩
  · cases st
    case ok =>
      simp only [reduceCtorEq, false_iff]
      rintro ⟨rfl, h⟩
      exact h e rfl
    all_goals
      simp only [Except.error.injEq]
      refine ⟨?_, fun h => h.1⟩
      rintro rfl
      exact ⟨rfl, fun e h => by cases h⟩

theorem steps_succ_iff {n : Nat} :
    d.Steps F (n + 1) d' ↔ ∃ e, d.next F = .ok e ∧ e.Steps F n d' := after_head_eq_ok_iff

theorem executing_of_next (h : d.next F = .ok d') :
    d.Executing ∧ executeInsn F d.counted d.fetch = .ok d' := by
  rw [next_eq_ok_iff] at h
  have hex : d.Executing := by
    by_contra hno
    rcases bvrtStep_of_not_executing (F := F) hno with hs | hs <;>
      · rw [hs] at h
        cases h
  refine ⟨hex, ?_⟩
  rw [bvrtStep_of_executing hex] at h
  cases hres : executeInsn F d.counted d.fetch with
  | ok e =>
      rw [hres] at h
      cases h
      rfl
  | stop e =>
      rw [hres] at h
      cases h
  | undefined a =>
      rw [hres] at h
      cases h

theorem bvrtStep_sat {Q : Device → Prop} {st : BvStatus} (hstep : bvrtStep F d = .ok (st, d'))
    (hhalt : Q d) (htrap : Q { d with status := .trap })
    (hex : d.Executing → (executeInsn F d.counted d.fetch).Sat Q Q (fun _ => True)) : Q d' := by
  by_cases h : d.Executing
  · have hsat := hex h
    rw [bvrtStep_of_executing h] at hstep
    cases hres : executeInsn F d.counted d.fetch with
    | ok e =>
        rw [hres] at hsat hstep
        cases hstep
        exact hsat
    | stop e =>
        rw [hres] at hsat hstep
        cases hstep
        exact hsat
    | undefined a =>
        rw [hres] at hstep
        cases hstep
  · rcases bvrtStep_of_not_executing (F := F) h with hs | hs
    · rw [hs] at hstep
      cases hstep
      exact hhalt
    · rw [hs] at hstep
      cases hstep
      exact htrap

theorem next_of_executing (h : d.Executing) (hok : executeInsn F d.counted d.fetch = .ok d') :
    d.next F = .ok d' := by
  rw [next_eq_ok_iff, bvrtStep_of_executing h, hok]
  rfl

end Step

/-! ### What every instruction leaves alone -/

/-- The image, the count of instructions and the size of device memory are as before. -/
structure Device.SameProgram (d d' : Device) : Prop where
  img : d'.img = d.img
  insns : d'.insns = d.insns
  memSize : d'.mem.size = d.mem.size

theorem forLanes_sameProgram {pred : BitVec 8} {body : Fin warpSize → Local → LaneOutcome Local}
    {d : Device} (hbody : ∀ l c, c.lane.PredHolds pred →
      (body l c).Sat (fun c' => c'.mem.size = c.mem.size) (fun _ => True) fun _ => True) :
    (forLanes pred body d).Sat d.SameProgram d.SameProgram (fun _ => True) := by
  have hloop : (forLanes pred body d).Sat _ _ _ := forLanes_sat
    (J := fun _ m _ => m.size = d.mem.size) (Q := fun _ _ => True) (E := fun _ => True)
    (U := fun _ _ => True) rfl (fun _ _ _ _ h => h) fun l m r hl hm =>
      (hbody l ⟨d.lane l, m, r⟩ hl.2).mono (fun c hc => ⟨trivial, hc.trans hm⟩) (fun _ h => h)
        fun _ h => h
  refine hloop.mono ?_ ?_ (fun _ _ => trivial)
  · rintro d' ⟨hdone, hsize⟩
    exact ⟨by rw [hdone.control], by rw [hdone.control], hsize⟩
  · rintro d' ⟨l, d₀, -, -, hdone, hsize, rfl⟩
    exact ⟨by rw [hdone.control], by rw [hdone.control], hsize⟩

theorem DataBody.memSize {i : BvInsn} {op : Opcode}
    {body : Fin warpSize → Local → LaneOutcome Local} (h : DataBody i op body) (l : Fin warpSize)
    (c : Local) (hpred : c.lane.PredHolds i.pred) :
    (body l c).Sat (fun c' => c'.mem.size = c.mem.size) (fun _ => True) fun _ => True := by
  cases h with
  | register _ h =>
      exact (h l c hpred).mono (fun _ hc => congrArg DevMem.size hc.2.1) (fun _ _ => trivial)
        fun _ _ => trivial
  | memory _ h =>
      exact (h l c).mono (fun _ hc => hc.2.2.2.1) (fun _ _ => trivial) fun _ _ => trivial

theorem retLoop_sameProgram (d : Device) :
    (Outcome.forRange warpSize retStep d).Sat d.SameProgram d.SameProgram (fun _ => True) := by
  refine Outcome.Sat.forRange (I := fun _ d' => d.SameProgram d') ⟨rfl, rfl, rfl⟩
    fun l d' h => ?_
  unfold retStep
  dsimp only
  split_ifs
  · exact ⟨h.img, h.insns, h.memSize⟩
  · exact ⟨h.img, h.insns, h.memSize⟩
  · exact h

theorem executeInsn_sameProgram (F : HostMath) (d : Device) (i : BvInsn) :
    (executeInsn F d i).Sat d.SameProgram d.SameProgram (fun _ => True) := by
  have hcases := effect_cases F d.warp.pc d.warp.cycles i
  unfold executeInsn
  cases heff : effect F d.warp.pc d.warp.cycles i with
  | lanes body =>
      rw [heff] at hcases
      obtain ⟨op, -, -, hdata⟩ := hcases
      exact (forLanes_sameProgram hdata.memSize).bind fun d' h => ⟨h.img, h.insns, h.memSize⟩
  | call =>
      refine (forLanes_sameProgram fun _ c _ => ?_).bind fun d' h => ⟨h.img, h.insns, h.memSize⟩
      exact (pushRet_sat d.warp.pc c).mono (fun _ hc => congrArg DevMem.size hc)
        (fun _ _ => trivial) fun _ h => h.elim
  | branch =>
      apply branch_sat
      intro taken
      cases taken <;> exact ⟨rfl, rfl, rfl⟩
  | ret => exact retLoop_sameProgram d
  | barrier => exact ⟨rfl, rfl, rfl⟩
  | exit => exact ⟨rfl, rfl, rfl⟩
  | trap => exact ⟨rfl, rfl, rfl⟩

section Next

variable {F : HostMath} {d d' : Device} {n : Nat}

theorem next_insns (h : d.next F = .ok d') : d'.insns = d.insns + 1 :=
  ((executeInsn_sameProgram F d.counted d.fetch).of_eq_ok (executing_of_next h).2).insns

theorem Device.Steps.trans {m : Nat} {e : Device} (h : d.Steps F m d') (h' : d'.Steps F n e) :
    d.Steps F (m + n) e := (after_add_of_ok h).trans h'

theorem steps_one (h : d.next F = .ok d') : d.Steps F 1 d' := after_one.trans h

theorem bvrtStep_sameMachine {st : BvStatus} (h : bvrtStep F d = .ok (st, d')) :
    d'.img = d.img ∧ d'.mem.size = d.mem.size :=
  bvrtStep_sat (Q := fun e => e.img = d.img ∧ e.mem.size = d.mem.size) h ⟨rfl, rfl⟩ ⟨rfl, rfl⟩
    fun _ => (executeInsn_sameProgram F d.counted d.fetch).mono (fun _ h => ⟨h.img, h.memSize⟩)
      (fun _ h => ⟨h.img, h.memSize⟩) fun _ h => h

theorem steps_insns (h : d.Steps F n d') : d'.insns = d.insns + n := by
  induction n generalizing d with
  | zero =>
      cases h
      rfl
  | succ n ih =>
      obtain ⟨e, hs, h⟩ := steps_succ_iff.mp h
      rw [ih h, next_insns hs]
      omega

end Next

/-! ### A launch -/

theorem launch_insns {d₀ d : Device} {kernel : List Byte} {args : List Word}
    (h : bvrtLaunch d₀ kernel args = some d) : d.insns = 0 := by
  unfold bvrtLaunch at h
  cases hk : bvbcFindKernel d₀.img kernel with
  | none => simp [hk] at h
  | some ki =>
      simp only [hk, Option.some.injEq] at h
      rw [← h]
      rfl

theorem launch_active {d₀ d : Device} {kernel : List Byte} {args : List Word}
    (h : bvrtLaunch d₀ kernel args = some d) : d.warp.active = 0xFFFFFFFF := by
  unfold bvrtLaunch at h
  cases hk : bvbcFindKernel d₀.img kernel with
  | none => simp [hk] at h
  | some ki =>
      simp only [hk, Option.some.injEq] at h
      rw [← h]

/-! ### `bvrt_run` -/

section Run

variable {F : HostMath} {d d' : Device} {n fuel maxInsns : Nat} {r : StepResult}

/-- The answer of `bvrt_run` at the end of its loop. -/
def Device.runResult (d : Device) : StepResult :=
  if d.warp.active = 0 then .ok (.halt, d) else .ok (.timeout, d)

theorem bvrtRun_of_spent (h : maxInsns ≤ d.insns) : bvrtRun F d maxInsns = d.runResult := by
  unfold bvrtRun
  rw [Nat.sub_eq_zero_of_le h]
  rfl

theorem bvrtRun_of_halted (h : d.warp.active = 0) : bvrtRun F d maxInsns = .ok (.halt, d) := by
  unfold bvrtRun
  cases maxInsns - d.insns with
  | zero => exact if_pos h
  | succ n =>
      rw [bvrtRunLoop, if_neg (fun hc => hc.1 h), if_pos h]

theorem bvrtRun_of_next (hlt : d.insns < maxInsns) (h : d.next F = .ok d') :
    bvrtRun F d maxInsns = bvrtRun F d' maxInsns := by
  have hactive := (executing_of_next h).1.1
  obtain ⟨k, hk⟩ : ∃ k, maxInsns - d.insns = k + 1 := ⟨maxInsns - d.insns - 1, by omega⟩
  have hk' : maxInsns - d'.insns = k := by
    rw [next_insns h]
    omega
  unfold bvrtRun
  rw [hk, hk', bvrtRunLoop, if_pos ⟨hactive, hlt⟩, next_eq_ok_iff.mp h]

theorem bvrtRun_of_steps (hle : d.insns + n ≤ maxInsns) (h : d.Steps F n d') :
    bvrtRun F d maxInsns = bvrtRun F d' maxInsns := by
  induction n generalizing d with
  | zero =>
      cases h
      rfl
  | succ n ih =>
      obtain ⟨e, hs, h⟩ := steps_succ_iff.mp h
      rw [bvrtRun_of_next (by omega) hs]
      exact ih (by rw [next_insns hs]; omega) h

theorem bvrtRun_of_last (hlt : d.insns < maxInsns) (h : d.next F = .error r) :
    bvrtRun F d maxInsns = r := by
  obtain ⟨hstep, hne⟩ := next_eq_error_iff.mp h
  by_cases hactive : d.warp.active = 0
  · rw [bvrtRun_of_halted hactive, ← hstep]
    unfold bvrtStep
    rw [if_pos hactive]
  · obtain ⟨k, hk⟩ : ∃ k, maxInsns - d.insns = k + 1 := ⟨maxInsns - d.insns - 1, by omega⟩
    unfold bvrtRun
    rw [hk, bvrtRunLoop, if_pos ⟨hactive, hlt⟩, hstep]
    rcases r with a | ⟨st, e⟩
    · rfl
    · cases st
      case ok => exact absurd rfl (hne e)
      all_goals rfl

/-- **Running to the end.** With a budget that lasts, `bvrt_run` returns what the last step
returns. -/
theorem bvrtRun_of_ends (hn : d.Steps F n d') (hr : d'.next F = .error r)
    (hlt : d.insns + n < maxInsns) : bvrtRun F d maxInsns = r := by
  rw [bvrtRun_of_steps (by omega) hn]
  exact bvrtRun_of_last (by rw [steps_insns hn]; exact hlt) hr

theorem bvrtRun_sameMachine {e : Device} {st : BvStatus} (h : bvrtRun F d maxInsns = .ok (st, e)) :
    e.img = d.img ∧ e.mem.size = d.mem.size := by
  obtain ⟨k, hk⟩ : ∃ k, k = maxInsns - d.insns := ⟨_, rfl⟩
  induction k generalizing d with
  | zero =>
      rw [bvrtRun_of_spent (by omega)] at h
      unfold Device.runResult at h
      split_ifs at h
      all_goals
        cases h
        exact ⟨rfl, rfl⟩
  | succ k ih =>
      cases hs : d.next F with
      | ok d' =>
          rw [bvrtRun_of_next (by omega) hs] at h
          obtain ⟨himg, hsize⟩ := ih h (by rw [next_insns hs]; omega)
          obtain ⟨himg', hsize'⟩ := bvrtStep_sameMachine (next_eq_ok_iff.mp hs)
          exact ⟨himg.trans himg', hsize.trans hsize'⟩
      | error r =>
          rw [bvrtRun_of_last (by omega) hs] at h
          exact bvrtStep_sameMachine ((next_eq_error_iff.mp hs).1.trans h)

/-! ### Runs that halt -/

/-- The run from `d` comes to a halt. -/
def Device.Halts (F : HostMath) (d : Device) : Prop := ∃ e, d.EndsWith F (.ok (.halt, e))

theorem Device.Halts.next (h : d.Halts F) (hactive : d.warp.active ≠ 0) :
    ∃ e, d.next F = .ok e ∧ e.Halts F := by
  obtain ⟨e, hends⟩ := h
  cases hs : d.next F with
  | ok d' => exact ⟨d', rfl, e, hends.of_after (after_one.trans hs)⟩
  | error r =>
      obtain rfl : r = .ok (.halt, e) := EndsWith.unique ⟨0, d, rfl, hs⟩ hends
      have hstep := (next_eq_error_iff.mp hs).1
      by_cases hex : d.Executing
      · rw [bvrtStep_of_executing hex] at hstep
        cases hres : executeInsn F d.counted d.fetch <;>
          · rw [hres] at hstep
            cases hstep
      · unfold bvrtStep at hstep
        rw [if_neg hactive] at hstep
        split_ifs at hstep with hneg hle
        · cases hstep
        · cases hstep
        · exact absurd ⟨hactive, by omega, by omega⟩ hex

theorem Device.Halts.of_steps (h : d.Halts F) (hn : d.Steps F n d') : d'.Halts F := by
  obtain ⟨e, hends⟩ := h
  exact ⟨e, hends.of_after hn⟩

theorem halts_of_run {e : Device} (h : bvrtRun F d maxInsns = .ok (.halt, e)) : d.Halts F := by
  obtain ⟨k, hk⟩ : ∃ k, k = maxInsns - d.insns := ⟨_, rfl⟩
  induction k generalizing d with
  | zero =>
      rw [bvrtRun_of_spent (by omega)] at h
      unfold Device.runResult at h
      split_ifs at h with hactive
      · refine ⟨d, 0, d, rfl, next_eq_error_iff.mpr ⟨?_, fun e h => by cases h⟩⟩
        unfold bvrtStep
        rw [if_pos hactive]
      · cases h
  | succ k ih =>
      cases hs : d.next F with
      | ok d' =>
          rw [bvrtRun_of_next (by omega) hs] at h
          obtain ⟨e', hends⟩ := ih h (by rw [next_insns hs]; omega)
          exact ⟨e', hends.prepend (after_one.trans hs)⟩
      | error r =>
          rw [bvrtRun_of_last (by omega) hs] at h
          subst h
          exact ⟨e, 0, d, rfl, hs⟩

end Run

end BradVector
