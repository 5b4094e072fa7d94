import BradVector.Proof.StepSafety

/-!
# The lane mask

A step in bounds changes only lanes that are active and whose selected predicate holds, except at
`EXIT`, which retires the whole warp, and at `RET`, which pops the return stack of every active
lane.
-/

namespace BradVector

open CSem

/-- The lane's registers, predicates, return stack and active bit are unchanged. -/
def Device.KeepsLane (d d' : Device) (l : Fin warpSize) : Prop :=
  d'.lane l = d.lane l ∧ d'.laneActive l = d.laneActive l

/-- The step leaves every masked lane as it was. A step with an access out of bounds does not: what
it writes past a register file may be another lane's. -/
def Device.RespectsMask (F : HostMath) (d : Device) : Prop :=
  ∃ st d', bvrtStep F d = .ok (st, d') ∧ ∀ l, d.MaskedLane d.fetch l → d.KeepsLane d' l

/-! ### The lane loop leaves the other lanes alone -/

section Loop

variable {d : Device} {pred : BitVec 8} {body : Fin warpSize → Local → LaneOutcome Local}

theorem forLanes_keeps_others :
    (forLanes pred body d).Sat
      (fun d' => ∀ l, ¬ d.EnabledLane pred l → d.KeepsLane d' l)
      (fun d' => ∀ l, ¬ d.EnabledLane pred l → d.KeepsLane d' l) (fun _ => True) := by
  have hloop : (forLanes pred body d).Sat _ _ _ :=
    forLanes_keeps (Q := fun l r => ¬ d.EnabledLane pred l → r = d.lane l) (fun _ _ => rfl)
      fun l m r hen => by
        cases body l ⟨d.lane l, m, r⟩ with
        | ok c => exact fun hl => absurd hen hl
        | stop => trivial
        | undefined => trivial
  have hkeeps {d' : Device} (h : d'.warp.active = d.warp.active ∧
      ∀ l, ¬ d.EnabledLane pred l → d'.lane l = d.lane l) (l : Fin warpSize)
      (hl : ¬ d.EnabledLane pred l) : d.KeepsLane d' l := by
    refine ⟨h.2 l hl, ?_⟩
    unfold Device.laneActive
    rw [h.1]
  exact hloop.mono (fun _ h => hkeeps h) (fun _ h => hkeeps h) fun _ _ => trivial

end Loop

/-! ### The loop of `RET` -/

/-- One return address taken off the lane's stack. -/
def Lane.pop (r : Lane) : Lane := { r with retsp := ⟨r.retsp - 1, by omega⟩ }

theorem Lane.pop_ne {r : Lane} (h : r.retsp.val ≠ 0) : r.pop ≠ r := by
  intro heq
  have hsp := congrArg (fun r : Lane => r.retsp.val) heq
  simp only [Lane.pop] at hsp
  omega

/-- After the lanes below `k`: the active ones had a return address, and it is popped. -/
structure RetDone (d d' : Device) (k : Nat) : Prop where
  active : d'.warp.active = d.warp.active
  lanes : ∀ l : Fin warpSize, if l.val < k ∧ d.laneActive l = true
    then (d.lane l).retsp.val ≠ 0 ∧ d'.lane l = (d.lane l).pop else d'.lane l = d.lane l

theorem RetDone.laneActive {d d' : Device} {k : Nat} (h : RetDone d d' k) (l : Fin warpSize) :
    d'.laneActive l = d.laneActive l := by
  unfold Device.laneActive
  rw [h.active]

theorem retLoop_sat (d : Device) :
    (Outcome.forRange warpSize retStep d).Sat (fun d' => RetDone d d' warpSize)
      (fun d' => ∃ l d₀, d.laneActive l = true ∧ (d.lane l).retsp.val = 0 ∧ RetDone d d₀ l ∧
        d' = { d₀ with status := .trap })
      (fun _ => False) := by
  refine Outcome.Sat.forRange (I := fun k d' => RetDone d d' k)
    ⟨rfl, fun l => by simp⟩ fun l d' hdone => ?_
  have hlane : d'.lane l = d.lane l := by simpa using hdone.lanes l
  have hstep (l' : Fin warpSize) (hne : l' ≠ l) : l'.val < l + 1 ↔ l'.val < l := by
    have : l'.val ≠ l.val := fun hv => hne (Fin.ext hv)
    omega
  unfold retStep
  by_cases hact : d.laneActive l = true
  · rw [if_pos (by rw [hdone.laneActive, hact])]
    by_cases hsp : (d.lane l).retsp.val = 0
    · simp only [hlane, dif_pos hsp]
      exact ⟨l, d', hact, hsp, hdone, rfl⟩
    · simp only [hlane, dif_neg hsp]
      refine ⟨hdone.active, fun l' => ?_⟩
      by_cases heq : l' = l
      · subst heq
        rw [if_pos ⟨by omega, hact⟩]
        exact ⟨hsp, by simp [Device.lane, Lane.pop]⟩
      · have hother := hdone.lanes l'
        simp only [Device.lane, Function.update_of_ne heq, hstep l' heq] at hother ⊢
        exact hother
  · rw [if_neg (by rw [hdone.laneActive]; exact hact)]
    refine ⟨hdone.active, fun l' => ?_⟩
    by_cases heq : l' = l
    · subst heq
      rw [if_neg fun h => hact h.2, hlane]
    · simpa only [hstep l' heq] using hdone.lanes l'

/-! ### The mask of a step -/

/-- What keeps `EXIT` and `RET` within the mask: at `EXIT` no active lane has a false predicate; at
`RET` every such lane comes at or behind an active lane whose return stack is empty, where the
instruction traps. -/
def Device.ControlWithinMask (d : Device) : Prop :=
  (Opcode.ofByte d.fetch.op = some .exit →
    ∀ l, d.laneActive l = true → ¬ (d.lane l).PredFalse d.fetch.pred) ∧
  (Opcode.ofByte d.fetch.op = some .ret →
    ∀ l, d.laneActive l = true → (d.lane l).PredFalse d.fetch.pred →
      ∃ l' ≤ l, d.laneActive l' = true ∧ (d.lane l').retsp.val = 0)

theorem effect_exit {F : HostMath} {pc cycles : Word} {i : BvInsn}
    (h : Opcode.ofByte i.op = some .exit) : effect F pc cycles i = .exit := by
  unfold effect
  rw [h]

theorem effect_ret {F : HostMath} {pc cycles : Word} {i : BvInsn}
    (h : Opcode.ofByte i.op = some .ret) : effect F pc cycles i = .ret := by
  unfold effect
  rw [h]

/-- Everything but `EXIT` and `RET` keeps masked lanes, and those two do so within their
condition. -/
theorem executeInsn_keeps_masked (F : HostMath) {d : Device} (hcond : d.ControlWithinMask) :
    (executeInsn F d.counted d.fetch).Sat (fun d' => ∀ l, d.MaskedLane d.fetch l → d.KeepsLane d' l)
      (fun d' => ∀ l, d.MaskedLane d.fetch l → d.KeepsLane d' l) (fun _ => True) := by
  have hloop (body : Fin warpSize → Local → LaneOutcome Local) :=
    (forLanes_keeps_others : (forLanes d.fetch.pred body d.counted).Sat _ _ _).mono
      (fun _ h l hl => h l (Device.MaskedLane.not_enabled hl))
      (fun _ h l hl => h l (Device.MaskedLane.not_enabled hl)) (fun _ h => h)
  have hcases := effect_cases F d.counted.warp.pc d.counted.warp.cycles d.fetch
  unfold executeInsn
  cases heff : effect F d.counted.warp.pc d.counted.warp.cycles d.fetch with
  | lanes body => exact (hloop body).bind fun d' h => h
  | call => exact (hloop _).bind fun d' h => h
  | branch =>
      apply branch_sat
      intro taken
      cases taken <;> exact fun l _ => ⟨rfl, rfl⟩
  | barrier => exact fun l _ => ⟨rfl, rfl⟩
  | trap => exact fun l _ => ⟨rfl, rfl⟩
  | exit =>
      rw [heff] at hcases
      intro l hl
      have hinactive : d.laneActive l = false := by
        rcases hl with h | h
        · exact h
        · by_contra hact
          exact hcond.1 hcases l (by simpa using hact) h
      refine ⟨rfl, ?_⟩
      rw [hinactive]
      simp [Device.advance, Device.setActive, Device.laneActive]
  | ret =>
      rw [heff] at hcases
      refine (retLoop_sat d.counted).mono ?_ ?_ (fun _ _ => trivial)
      · intro d' hdone l hl
        refine ⟨?_, hdone.laneActive l⟩
        have hlane := hdone.lanes l
        by_cases hact : d.laneActive l = true
        · have hfalse := hl.resolve_left (by simp [hact])
          obtain ⟨l', -, hact', hsp⟩ := hcond.2 hcases l hact hfalse
          have hpop := hdone.lanes l'
          rw [if_pos ⟨l'.isLt, hact'⟩] at hpop
          exact absurd hsp hpop.1
        · rwa [if_neg fun h => hact h.2] at hlane
      · rintro d' ⟨l₀, d₀, hact₀, hsp₀, hdone, rfl⟩ l hl
        refine ⟨?_, hdone.laneActive l⟩
        have hlane := hdone.lanes l
        by_cases hpopped : l.val < l₀.val ∧ d.laneActive l = true
        · have hfalse := hl.resolve_left (by simp [hpopped.2])
          obtain ⟨l', hle, hact', hsp⟩ := hcond.2 hcases l hpopped.2 hfalse
          have hpop := hdone.lanes l'
          rw [if_pos ⟨Nat.lt_of_le_of_lt hle hpopped.1, hact'⟩] at hpop
          exact absurd hsp hpop.1
        · exact (if_neg hpopped).mp hlane

/-- A step leaves masked lanes alone exactly when its accesses are in bounds, and it is not an
`EXIT` with a false predicate in some active lane, nor a `RET` that pops one. -/
theorem respectsMask_iff (F : HostMath) (d : Device) :
    d.RespectsMask F ↔ (d.Executing → d.InBounds ∧ d.ControlWithinMask) := by
  constructor
  · rintro ⟨st, d', hok, hmask⟩ hex
    refine ⟨exists_bvrtStep_iff.mp ⟨st, d', hok⟩ hex, ?_⟩
    rw [bvrtStep_of_executing hex] at hok
    refine ⟨fun hop l hact hfalse => ?_, fun hop l hact hfalse => ?_⟩
    · unfold executeInsn at hok
      rw [effect_exit hop] at hok
      cases hok
      have hkeeps := (hmask l (Or.inr hfalse)).2
      rw [hact] at hkeeps
      simp [Device.laneActive, Device.advance, Device.setActive] at hkeeps
    · by_contra hnone
      push Not at hnone
      unfold executeInsn at hok
      rw [effect_ret hop] at hok
      have hsat := retLoop_sat d.counted
      cases hres : Outcome.forRange warpSize retStep d.counted with
      | ok e =>
          rw [hres] at hsat hok
          cases hok
          have hpop := hsat.lanes l
          rw [if_pos ⟨l.isLt, hact⟩] at hpop
          have hkeeps := (hmask l (Or.inr hfalse)).1
          exact Lane.pop_ne hpop.1 (hpop.2.symm.trans hkeeps)
      | stop e =>
          rw [hres] at hsat hok
          cases hok
          obtain ⟨l₀, d₀, hact₀, hsp₀, hdone, rfl⟩ := hsat
          have hlt : l < l₀ := by
            by_contra hle
            exact hnone l₀ (not_lt.mp hle) hact₀ hsp₀
          have hpop := hdone.lanes l
          rw [if_pos ⟨hlt, hact⟩] at hpop
          have hkeeps := (hmask l (Or.inr hfalse)).1
          exact Lane.pop_ne hpop.1 (hpop.2.symm.trans hkeeps)
      | undefined a =>
          rw [hres] at hsat
          exact hsat
  · intro hcond
    obtain ⟨st, d', hstep⟩ := exists_bvrtStep_iff (F := F).mpr fun hex => (hcond hex).1
    refine ⟨st, d', hstep, fun l hl => ?_⟩
    by_cases hex : d.Executing
    · have hsat := executeInsn_keeps_masked F (hcond hex).2
      rw [bvrtStep_of_executing hex] at hstep
      cases hres : executeInsn F d.counted d.fetch with
      | ok e =>
          rw [hres] at hsat hstep
          cases hstep
          exact hsat l hl
      | stop e =>
          rw [hres] at hsat hstep
          cases hstep
          exact hsat l hl
      | undefined a => simp [hres, Exec.result] at hstep
    · rcases bvrtStep_of_not_executing (F := F) hex with h | h <;>
        · simp only [h, Except.ok.injEq, Prod.mk.injEq] at hstep
          exact hstep.2 ▸ ⟨rfl, rfl⟩

/-- **The lane mask.** A run leaves masked lanes alone in all its steps exactly when all of them are
in bounds and it executes no `EXIT` with a false predicate in some active lane, and no `RET` that
pops one. -/
theorem run_respectsMask_iff (F : HostMath) (d₀ : Device) :
    (∀ d, d₀.RunsTo F d → d.RespectsMask F) ↔
      ∀ d, d₀.RunsTo F d → d.Executing → d.InBounds ∧ d.ControlWithinMask :=
  forall₂_congr fun d _ => respectsMask_iff F d

/-- A kernel `k` of one instruction, `EXIT@P0`. -/
def exitKernel : BvbcImage :=
  { BvbcImage.zero with
    kernels := [{ name := kernelName (cstr "k"), entry := 0, nargs := 0 }]
    insns := .array [bven Opcode.exit.toByte 1 0 0 0 0 0 0]
    ninsn := 1 }

/-- At launch all predicates are false, and the predicated `EXIT` retires the lanes all the same. -/
theorem not_forall_reachable_respectsMask :
    ¬ ∀ (F : HostMath) (d : Device), Reachable F d → d.RespectsMask F := by
  intro h
  have hlaunch : Reachable HostMath.integer _ :=
    ⟨bvrtLoad (bvrtCreate 64 fun _ => 0) exitKernel, cstr "k", [], _, rfl, .start⟩
  obtain ⟨st, d', hstep, hmask⟩ := h _ _ hlaunch
  cases hstep
  have hkeeps := hmask ⟨0, by decide⟩ (Or.inr ⟨by decide, by decide, rfl⟩)
  exact absurd hkeeps.2 (by decide)

end BradVector
