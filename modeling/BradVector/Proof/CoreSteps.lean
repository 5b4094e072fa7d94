import BradVector.Library.Machine
import BradVector.Proof.Pipelines

/-!
# Steps of the emulator

What a step does to the registers and to the cycle counter. A step that takes a branch returns
before it counts, but it leaves nothing in the execution stage, so that the next one counts.
-/

namespace BradVector.CoreEmu

open CSem CSem.Machine

section Frames

variable (s : Emu) (memSize : Nat)

theorem fetch_frame (core : CoreState) (mem : Nat → Byte) :
    ∃ pc, (fetch core mem memSize).core = { core with pc } := by
  rw [fetch]
  split_ifs
  · exact ⟨_, rfl⟩
  · exact ⟨_, rfl⟩
  · exact ⟨_, rfl⟩
  · exact ⟨_, rfl⟩

/-- The fetch moves the program counter and fills the pipeline. -/
theorem fetchInto_frame : ∃ pc pipeline, fetchInto s memSize = { s.core with pc, pipeline } := by
  obtain ⟨pc, hfetch⟩ := fetch_frame memSize s.core s.mem
  unfold fetchInto
  dsimp only
  split
  · split
    · rw [hfetch]
      exact ⟨_, _, rfl⟩
    · exact ⟨_, _, rfl⟩
  · exact ⟨_, _, rfl⟩

/-- Registers and model stay, and the cycle counts. -/
theorem fetchStage_frame :
    (fetchStage s memSize).core.regs = s.core.regs ∧
      (fetchStage s memSize).core.cycles = s.core.cycles + 1 ∧
      (fetchStage s memSize).core.model = s.core.model := by
  obtain ⟨pc, pipeline, hinto⟩ := fetchInto_frame s memSize
  rw [fetchStage_eq, hinto, CoreState.finish]
  dsimp only
  split <;> exact ⟨rfl, rfl, rfl⟩

variable (core : CoreState) (retires : Bool)

theorem leave_frame : ∃ pipeline, core.leave retires = { core with pipeline } := by
  cases retires with
  | false => exact ⟨_, rfl⟩
  | true => exact ⟨_, rfl⟩

theorem leave_regs : (core.leave retires).regs = core.regs := by
  obtain ⟨pipeline, hleave⟩ := leave_frame core retires
  rw [hleave]

theorem leave_cycles : (core.leave retires).cycles = core.cycles := by
  obtain ⟨pipeline, hleave⟩ := leave_frame core retires
  rw [hleave]

theorem leave_model : (core.leave retires).model = core.model := by
  obtain ⟨pipeline, hleave⟩ := leave_frame core retires
  rw [hleave]

end Frames

/-! ### One step -/

variable {s : Emu} {memSize : Nat} {pc : Word} {d : BradInsn}

/-- The core as the execution stage finds it. -/
def Emu.advanced (s : Emu) : CoreState :=
  { s.core with pipeline := advancePipeline s.core.pipeline }

/-- The outcome of the instruction that the step executes. -/
def Emu.effect (s : Emu) (memSize : Nat) (pc : Word) (d : BradInsn) : Executed :=
  execute s.advanced d s.mem memSize pc

theorem coreEmuStep_of_stopped (h : s.core.running = false) : coreEmuStep s memSize = s := by
  rw [coreEmuStep, h, if_pos (by simp)]

theorem Emu.executing_of_running (h : s.core.running = true) :
    s.executing = (advancePipeline s.core.pipeline).executing := if_pos h

/-- **A step** executes nothing and counts, or it executes an instruction, and then it counts unless
that is a branch taken. -/
theorem coreEmuStep_cases (hrunning : s.core.running = true) (memSize : Nat) :
    (s.executing = none ∧ coreEmuStep s memSize = fetchStage ⟨s.advanced, s.mem⟩ memSize) ∨
      ∃ pc d retires, s.executing = some (pc, d) ∧
        (((s.effect memSize pc d).taken = true ∧ coreEmuStep s memSize =
            ⟨((s.effect memSize pc d).core.leave retires).flush, (s.effect memSize pc d).mem⟩) ∨
          ((s.effect memSize pc d).taken = false ∧ coreEmuStep s memSize =
            fetchStage ⟨(s.effect memSize pc d).core.leave retires,
              (s.effect memSize pc d).mem⟩ memSize)) := by
  obtain ⟨retires, flushes, hstep, hflushes⟩ := coreEmuStep_eq memSize s hrunning
  rw [Emu.executing_of_running hrunning, hstep]
  cases hexecuting : (advancePipeline s.core.pipeline).executing with
  | none => exact .inl ⟨rfl, runPipeline_of_idle retires flushes hexecuting⟩
  | some found =>
      obtain ⟨pc, d⟩ := found
      refine .inr ⟨pc, d, retires, rfl, ?_⟩
      cases htaken : (s.effect memSize pc d).taken with
      | true =>
          have hflush : flushes (s.effect memSize pc d) = true := (hflushes _ _ _ _).trans htaken
          exact .inl ⟨rfl, runPipeline_of_flush retires flushes hexecuting rfl hflush⟩
      | false =>
          have hflush : flushes (s.effect memSize pc d) = false := (hflushes _ _ _ _).trans htaken
          exact .inr ⟨rfl, runPipeline_of_not_flush retires flushes hexecuting rfl hflush⟩

theorem coreEmuStep_regs_of_idle (h : s.executing = none) :
    (coreEmuStep s memSize).core.regs = s.core.regs := by
  cases hrunning : s.core.running with
  | false => rw [coreEmuStep_of_stopped hrunning]
  | true =>
      rcases coreEmuStep_cases hrunning memSize with ⟨-, hstep⟩ | ⟨pc, d, retires, hexecuting, -⟩
      · rw [hstep, (fetchStage_frame _ memSize).1]
        rfl
      · rw [h] at hexecuting
        cases hexecuting

theorem running_of_executing (h : s.executing = some (pc, d)) : s.core.running = true := by
  by_contra hstopped
  rw [Emu.executing, if_neg hstopped] at h
  cases h

/-- The registers after a step are those its instruction leaves. -/
theorem coreEmuStep_regs (h : s.executing = some (pc, d)) :
    (coreEmuStep s memSize).core.regs = (s.effect memSize pc d).core.regs := by
  rcases coreEmuStep_cases (running_of_executing h) memSize with
    ⟨hidle, -⟩ | ⟨pc', d', retires, hexecuting, ⟨-, hstep⟩ | ⟨-, hstep⟩⟩
  · rw [h] at hidle
    cases hidle
  · cases h.symm.trans hexecuting
    rw [hstep]
    exact leave_regs _ retires
  · cases h.symm.trans hexecuting
    rw [hstep, (fetchStage_frame _ memSize).1, leave_regs]

theorem coreEmuStep_model (s : Emu) (memSize : Nat) : (coreEmuStep s memSize).core.model =
    s.core.model := by
  cases hrunning : s.core.running with
  | false => rw [coreEmuStep_of_stopped hrunning]
  | true =>
      rcases coreEmuStep_cases hrunning memSize with
        ⟨-, hstep⟩ | ⟨pc, d, retires, -, ⟨-, hstep⟩ | ⟨-, hstep⟩⟩
      · rw [hstep, (fetchStage_frame _ memSize).2.2]
        rfl
      · rw [hstep]
        exact (leave_model _ retires).trans (execute_frame s.advanced d s.mem memSize pc).model
      · rw [hstep, (fetchStage_frame _ memSize).2.2, leave_model]
        exact (execute_frame s.advanced d s.mem memSize pc).model

/-! ### Runs -/

theorem run_succ (s : Emu) (memSize n : Nat) :
    s.run memSize (n + 1) = coreEmuStep (s.run memSize n) memSize :=
  Function.iterate_succ_apply' _ n s

theorem run_model (s : Emu) (memSize n : Nat) : (s.run memSize n).core.model = s.core.model := by
  induction n with
  | zero => rfl
  | succ n ih => rw [run_succ, coreEmuStep_model, ih]

end BradVector.CoreEmu
