import BradVector.Proof.CoreSteps

/-!
# The run of a core ends

The loop of `brad_core_emu_run` looks at the cycle counter, which a branch taken does not advance.
After a branch the execution stage is empty, so of two steps in a row one counts, and twice the
cycles to go, with one more when a branch is about to be taken, falls with every round. Until it
ends the run gets on: as many steps as there are stages execute at least one instruction.
-/

namespace BradVector.CoreEmu

open CSem CSem.Machine

variable {s : Emu} {memSize : Nat}

theorem execute_cycles (core : CoreState) (d : BradInsn) (mem : Nat → Byte) (pc : Word) :
    (execute core d mem memSize pc).core.cycles = core.cycles := by
  have hset : ∀ v, ((core.count d.opcode).setReg d.rd v).cycles = core.cycles := by
    intro v
    rw [CoreState.setReg]
    split_ifs <;> rfl
  rw [execute]
  dsimp only
  cases hop : d.opcode with
  | add | sub | mul | and | or | xor | shl | shr =>
      rw [hop] at hset
      dsimp only
      split
      · rfl
      · exact hset _
  | addi =>
      rw [hop] at hset
      exact hset _
  | ldw =>
      rw [hop] at hset
      dsimp only
      split_ifs
      · rfl
      · exact hset _
  | stw | bz | bnz =>
      dsimp only
      split_ifs <;> rfl
  | jmp | call | ret => rfl

/-- The step takes a branch. -/
def Emu.branches (s : Emu) (memSize : Nat) : Bool :=
  s.executing.any fun (pc, d) => (s.effect memSize pc d).taken

theorem branches_of_executing {pc : Word} {d : BradInsn} (h : s.executing = some (pc, d)) :
    s.branches memSize = (s.effect memSize pc d).taken := by
  rw [Emu.branches, h]
  rfl

theorem cycles_of_not_branches (hrunning : s.core.running = true) (h : s.branches memSize = false) :
    (coreEmuStep s memSize).core.cycles = s.core.cycles + 1 := by
  rcases coreEmuStep_cases hrunning memSize with
    ⟨-, hstep⟩ | ⟨pc, d, retires, hexecuting, ⟨htaken, -⟩ | ⟨-, hstep⟩⟩
  · rw [hstep, (fetchStage_frame _ memSize).2.1]
    rfl
  · rw [branches_of_executing hexecuting, htaken] at h
    cases h
  · rw [hstep, (fetchStage_frame _ memSize).2.1, leave_cycles, Emu.effect, execute_cycles]
    rfl

/-- After a flush nothing comes into the execution stage for a step, wherever that stage is. -/
theorem executing_advance_flush (p : Pipeline) (drain : Bool) :
    (advancePipeline { pipelineFlush p with drain }).executing = none := by
  apply if_neg
  simp only [advancePipeline, pipelineFlush]
  split_ifs with hzero hlt hprev
  · exact Bool.false_ne_true
  · omega
  · exact Bool.false_ne_true
  · omega
  · exact Bool.false_ne_true

/-- **A branch taken** does not count, and the step after it does not take one. -/
theorem branches_step (hrunning : s.core.running = true) (h : s.branches memSize = true) :
    (coreEmuStep s memSize).core.cycles = s.core.cycles ∧
      (coreEmuStep s memSize).core.running = true ∧
      (coreEmuStep s memSize).branches memSize = false := by
  rcases coreEmuStep_cases hrunning memSize with
    ⟨hidle, -⟩ | ⟨pc, d, retires, hexecuting, ⟨-, hstep⟩ | ⟨hnot, -⟩⟩
  · rw [Emu.branches, hidle] at h
    cases h
  · obtain ⟨pipeline, hleave⟩ := leave_frame (s.effect memSize pc d).core retires
    have hstill : (coreEmuStep s memSize).core.running = true := by
      rw [hstep, hleave]
      exact (execute_frame s.advanced d s.mem memSize pc).running.trans hrunning
    refine ⟨?_, hstill, ?_⟩
    · rw [hstep, hleave]
      exact execute_cycles s.advanced d s.mem pc
    · rw [Emu.branches, Emu.executing_of_running hstill, hstep, CoreState.flush,
        executing_advance_flush]
      rfl
  · rw [branches_of_executing hexecuting, hnot] at h
    cases h

/-! ### The loop -/

section Loop

variable (memSize) (start maxCycles : BitVec 64)

/-- Twice the cycles to go, with one more for a branch about to be taken. -/
def roundsLeft (s : Emu) : Nat :=
  if (s.core.cycles - start).toNat < maxCycles.toNat then
    2 * (maxCycles.toNat - (s.core.cycles - start).toNat) + (s.branches memSize).toNat
  else 2 * maxCycles.toNat + 2

theorem roundsLeft_le (s : Emu) : roundsLeft memSize start maxCycles s ≤
    2 * maxCycles.toNat + 2 := by
  have hone := Bool.toNat_le (s.branches memSize)
  rw [roundsLeft]
  split_ifs <;> omega

variable {memSize start maxCycles} {t : Emu}

theorem coreEmuRunStep_eq_ok (h : coreEmuRunStep memSize start maxCycles s = .ok t) :
    s.core.running = true ∧ t = coreEmuStep s memSize ∧
      (t.core.cycles - start).toNat < maxCycles.toNat := by
  by_cases hrunning : s.core.running = true
  · rw [coreEmuRunStep, if_neg (not_not_intro hrunning)] at h
    by_cases hover : maxCycles ≤ (coreEmuStep s memSize).core.cycles - start
    · rw [if_pos hover] at h
      cases h
    · rw [if_neg hover] at h
      obtain rfl := Except.ok.inj h
      exact ⟨hrunning, rfl, Nat.lt_of_not_le hover⟩
  · rw [coreEmuRunStep, if_pos hrunning] at h
    cases h

theorem roundsLeft_lt (h : coreEmuRunStep memSize start maxCycles s = .ok t) :
    roundsLeft memSize start maxCycles t < roundsLeft memSize start maxCycles s := by
  obtain ⟨hrunning, rfl, hlt⟩ := coreEmuRunStep_eq_ok h
  rw [roundsLeft, if_pos hlt]
  cases hbranches : s.branches memSize with
  | true =>
      obtain ⟨hcycles, -, hnext⟩ := branches_step hrunning hbranches
      rw [hcycles] at hlt
      rw [roundsLeft, hcycles, hnext, if_pos hlt, hbranches]
      exact Nat.lt_succ_self _
  | false =>
      have hone := Bool.toNat_le ((coreEmuStep s memSize).branches memSize)
      have hsucc : ((coreEmuStep s memSize).core.cycles - start).toNat =
          ((s.core.cycles - start).toNat + 1) % 2 ^ 64 := by
        rw [cycles_of_not_branches hrunning hbranches, add_sub_right_comm]
        exact BitVec.toNat_add _ _
      have hbound := maxCycles.isLt
      rw [roundsLeft, hbranches]
      split_ifs with hs
      · rw [Nat.mod_eq_of_lt (by omega)] at hsucc
        omega
      · omega

end Loop

theorem coreEmuRun_ends (s : Emu) (memSize : Nat) (maxCycles : BitVec 64) :
    EndsWith (coreEmuRunStep memSize s.core.cycles maxCycles) s (coreEmuRun s memSize maxCycles) ∧
      ∀ t : Emu, t.core.running = true →
        (coreEmuStep t memSize).core.cycles = t.core.cycles + 1 ∨
          (coreEmuStep t memSize).core.cycles = t.core.cycles ∧
            (coreEmuStep (coreEmuStep t memSize) memSize).core.cycles = t.core.cycles + 1 := by
  constructor
  · apply ends_resultWithin fun _ _ => roundsLeft_lt
    have hle := roundsLeft_le memSize s.core.cycles maxCycles s
    omega
  · intro t hrunning
    cases hbranches : t.branches memSize with
    | true =>
        obtain ⟨hcycles, hstill, hnext⟩ := branches_step hrunning hbranches
        refine .inr ⟨hcycles, ?_⟩
        rw [cycles_of_not_branches hstill hnext, hcycles]
    | false => exact .inl (cycles_of_not_branches hrunning hbranches)

/-! ### What a run executes

A step without an execution moves every instruction on by a stage and fetches one behind them,
unless the core drains. So an instruction comes into the execution stage before the steps are as
many as the stages, or none is left and the core stops.
-/

section Progress

theorem fetchStage_pipeline (s : Emu) (memSize : Nat) :
    (fetchStage s memSize).core.pipeline = (fetchInto s memSize).pipeline :=
  finish_pipeline _

theorem fetchStage_stops (h : (fetchStage s memSize).core.running = true)
    (hdrain : (fetchInto s memSize).pipeline.drain = true) :
    (fetchInto s memSize).pipeline.isEmpty = false := by
  rw [fetchStage_eq, CoreState.finish] at h
  by_contra hempty
  rw [Bool.not_eq_false] at hempty
  dsimp only at h
  rw [if_pos ⟨hdrain, hempty⟩] at h
  cases h

/-- A fetch fills the first stage, or the core drains and leaves it as it is. -/
theorem fetchInto_cases (hrunning : s.core.running = true)
    (hfree : (s.core.pipeline.stages 0).insn = none) :
    (∃ pc d, s.core.pipeline.drain = false ∧ (fetchInto s memSize).pipeline =
        { s.core.pipeline with
          stages := Function.update s.core.pipeline.stages 0 ⟨some d, pc, true⟩ }) ∨
      (fetchInto s memSize).pipeline = { s.core.pipeline with drain := true } := by
  obtain ⟨pc, hfetch⟩ := fetch_frame memSize s.core s.mem
  unfold fetchInto
  dsimp only
  by_cases hfilling : s.core.pipeline.drain = false
  · rw [if_pos ⟨hfree, hrunning, by simp [hfilling]⟩, hfetch]
    cases (fetch s.core s.mem memSize).insn with
    | none => exact .inr rfl
    | some d => exact .inl ⟨pc - 4, d, hfilling, rfl⟩
  · rw [Bool.not_eq_false] at hfilling
    right
    rw [if_neg (by simp [hfilling]), ← hfilling]

/-- The depth and the place of execution, which no step changes. -/
def Pipeline.layout (p : Pipeline) : Nat × Nat := (p.depth, p.execStage)

theorem fetchStage_layout (s : Emu) (memSize : Nat) :
    (fetchStage s memSize).core.pipeline.layout = s.core.pipeline.layout := by
  obtain ⟨pc, hfetch⟩ := fetch_frame memSize s.core s.mem
  rw [fetchStage_pipeline, fetchInto]
  dsimp only
  split
  · split
    · rw [hfetch]
      rfl
    · rfl
  · rfl

theorem leave_layout (core : CoreState) (retires : Bool) :
    (core.leave retires).pipeline.layout = core.pipeline.layout := by
  cases retires <;> rfl

theorem effect_layout (pc : Word) (d : BradInsn) :
    (s.effect memSize pc d).core.pipeline.layout = s.core.pipeline.layout := by
  rw [Emu.effect, (execute_frame s.advanced d s.mem memSize pc).pipeline]
  rfl

theorem coreEmuStep_layout (s : Emu) (memSize : Nat) :
    (coreEmuStep s memSize).core.pipeline.layout = s.core.pipeline.layout := by
  cases hrunning : s.core.running with
  | false => rw [coreEmuStep_of_stopped hrunning]
  | true =>
      rcases coreEmuStep_cases hrunning memSize with
        ⟨-, hstep⟩ | ⟨pc, d, retires, -, ⟨-, hstep⟩ | ⟨-, hstep⟩⟩
      · rw [hstep, fetchStage_layout]
        rfl
      · rw [hstep]
        exact (leave_layout _ retires).trans (effect_layout pc d)
      · rw [hstep, fetchStage_layout, leave_layout, effect_layout]

theorem run_layout (s : Emu) (memSize n : Nat) :
    (s.run memSize n).core.pipeline.layout = s.core.pipeline.layout := by
  induction n with
  | zero => rfl
  | succ n ih => rw [run_succ, coreEmuStep_layout, ih]

/-- **A step without an execution.** The instructions move on, and a fetched one comes into the
first stage, or the core drains and nothing does. -/
theorem coreEmuStep_of_idle (hrunning : s.core.running = true) (hidle : s.executing = none) :
    (∀ i, i + 1 < s.core.pipeline.depth →
        (coreEmuStep s memSize).core.pipeline.stages (i + 1) = s.core.pipeline.stages i) ∧
      ((∃ pc d, s.core.pipeline.drain = false ∧
          (coreEmuStep s memSize).core.pipeline.stages 0 = ⟨some d, pc, true⟩) ∨
        (coreEmuStep s memSize).core.pipeline.drain = true ∧
          ((coreEmuStep s memSize).core.pipeline.stages 0).valid = false) := by
  rcases coreEmuStep_cases hrunning memSize with ⟨-, hstep⟩ | ⟨pc, d, retires, hexecuting, -⟩
  · have hshift (i : Nat) (hi : i + 1 < s.core.pipeline.depth) :
        s.advanced.pipeline.stages (i + 1) = s.core.pipeline.stages i := by
      simp [Emu.advanced, advancePipeline, hi]
    rw [hstep, fetchStage_pipeline]
    rcases @fetchInto_cases ⟨s.advanced, s.mem⟩ memSize hrunning rfl with
      ⟨pc, d, hfilling, hinto⟩ | hinto
    · rw [hinto]
      refine ⟨?_, .inl ⟨pc, d, hfilling, ?_⟩⟩
      · intro i hi
        dsimp only
        rw [Function.update_of_ne i.succ_ne_zero, hshift i hi]
      · dsimp only
        rw [Function.update_self]
    · rw [hinto]
      exact ⟨hshift, .inr ⟨rfl, rfl⟩⟩
  · rw [hidle] at hexecuting
    cases hexecuting

theorem coreEmuStep_stops (hrunning : (coreEmuStep s memSize).core.running = true)
    (hidle : s.executing = none) (hdrain : (coreEmuStep s memSize).core.pipeline.drain = true) :
    (coreEmuStep s memSize).core.pipeline.isEmpty = false := by
  have hbefore : s.core.running = true := by
    by_contra hstopped
    rw [Bool.not_eq_true] at hstopped
    rw [coreEmuStep_of_stopped hstopped, hstopped] at hrunning
    cases hrunning
  rcases coreEmuStep_cases hbefore memSize with ⟨-, hstep⟩ | ⟨pc, d, retires, hexecuting, -⟩
  · rw [hstep] at hrunning hdrain ⊢
    rw [fetchStage_pipeline] at hdrain ⊢
    exact fetchStage_stops hrunning hdrain
  · rw [hidle] at hexecuting
    cases hexecuting

theorem running_of_run_add {m n : Nat} (h : (s.run memSize (m + n)).core.running = true) :
    (s.run memSize m).core.running = true := by
  induction n with
  | zero => exact h
  | succ n ih =>
      apply ih
      by_contra hstopped
      rw [Bool.not_eq_true] at hstopped
      rw [← Nat.add_assoc, run_succ, coreEmuStep_of_stopped hstopped, hstopped] at h
      cases h

section Idle

variable {depth n : Nat} (hdepth : s.core.pipeline.depth = depth)
  (hrunning : (s.run memSize n).core.running = true)
  (hidle : ∀ i < n, (s.run memSize i).executing = none)
include hdepth hrunning hidle

theorem idle_step {i : Nat} (hi : i < n) :
    (∀ k, k + 1 < depth → (s.run memSize (i + 1)).core.pipeline.stages (k + 1) =
        (s.run memSize i).core.pipeline.stages k) ∧
      ((∃ pc d, (s.run memSize i).core.pipeline.drain = false ∧
          (s.run memSize (i + 1)).core.pipeline.stages 0 = ⟨some d, pc, true⟩) ∨
        (s.run memSize (i + 1)).core.pipeline.drain = true ∧
          ((s.run memSize (i + 1)).core.pipeline.stages 0).valid = false) := by
  obtain ⟨k, rfl⟩ := Nat.exists_eq_add_of_lt hi
  rw [Nat.add_assoc] at hrunning
  have hlayout : (s.run memSize i).core.pipeline.depth = depth :=
    (congrArg Prod.fst (run_layout s memSize i)).trans hdepth
  rw [run_succ, ← hlayout]
  exact coreEmuStep_of_idle (running_of_run_add hrunning) (hidle i hi)

/-- What the first of the steps fetches goes from stage to stage. -/
theorem idle_moves {i : Nat} (hi : i < n) (hdeep : i < depth) :
    (s.run memSize (i + 1)).core.pipeline.stages i = (s.run memSize 1).core.pipeline.stages 0 := by
  induction i with
  | zero => rfl
  | succ i ih =>
      rw [(idle_step hdepth hrunning hidle hi).1 i hdeep]
      exact ih (Nat.lt_of_succ_lt hi) (Nat.lt_of_succ_lt hdeep)

/-- A core that drains from the first of the steps on has empty stages behind the instructions
left. -/
theorem idle_drains (hdrain : (s.run memSize 1).core.pipeline.drain = true)
    (hfirst : ((s.run memSize 1).core.pipeline.stages 0).valid = false) {i : Nat} (hi : i < n) :
    (s.run memSize (i + 1)).core.pipeline.drain = true ∧
      ∀ k ≤ i, k < depth → ((s.run memSize (i + 1)).core.pipeline.stages k).valid = false := by
  induction i with
  | zero =>
      refine ⟨hdrain, ?_⟩
      intro k hk _
      obtain rfl := Nat.le_zero.mp hk
      exact hfirst
  | succ i ih =>
      obtain ⟨hstill, hbehind⟩ := ih (Nat.lt_of_succ_lt hi)
      obtain ⟨hshift, ⟨pc, d, hfilling, -⟩ | ⟨hdrains, hfree⟩⟩ := idle_step hdepth hrunning hidle hi
      · rw [hstill] at hfilling
        cases hfilling
      · refine ⟨hdrains, ?_⟩
        intro k hk hdeep
        cases k with
        | zero => exact hfree
        | succ k =>
            rw [hshift k hdeep]
            exact hbehind k (Nat.le_of_succ_le_succ hk) (Nat.lt_of_succ_lt hdeep)

end Idle

/-- **Progress.** A core that is still running after as many steps as it has stages has executed
something. -/
theorem exists_executing_of_running (hfirst : 0 < s.core.pipeline.execStage)
    (hlast : s.core.pipeline.execStage < s.core.pipeline.depth)
    (hrunning : (s.run memSize s.core.pipeline.depth).core.running = true) :
    ∃ i < s.core.pipeline.depth, (s.run memSize i).executing.isSome = true := by
  by_contra hnone
  push Not at hnone
  have hidle (i : Nat) (hi : i < s.core.pipeline.depth) : (s.run memSize i).executing = none := by
    simpa using hnone i hi
  have hstart : 0 < s.core.pipeline.depth := hfirst.trans hlast
  obtain ⟨-, ⟨pc, d, -, hfetched⟩ | ⟨hdrain, hfree⟩⟩ := idle_step rfl hrunning hidle hstart
  · -- the word that the first step fetches is executed when it gets to the execution stage
    obtain ⟨k, hk⟩ := Nat.exists_eq_succ_of_ne_zero hfirst.ne'
    have hplace := idle_moves rfl hrunning hidle (i := k) (by omega) (by omega)
    rw [hfetched] at hplace
    obtain ⟨rest, hrest⟩ := Nat.exists_eq_add_of_lt hlast
    rw [hrest, Nat.add_assoc] at hrunning
    have hthere : (s.run memSize s.core.pipeline.execStage).executing = some (pc, d) := by
      have hstage : (s.run memSize s.core.pipeline.execStage).core.pipeline.execStage =
          s.core.pipeline.execStage := congrArg Prod.snd (run_layout s memSize _)
      have hdepth : (s.run memSize s.core.pipeline.execStage).core.pipeline.depth =
          s.core.pipeline.depth := congrArg Prod.fst (run_layout s memSize _)
      rw [Emu.executing_of_running (running_of_run_add hrunning), Pipeline.executing]
      simp only [advancePipeline, hstage, hdepth, if_neg hfirst.ne', if_pos hlast]
      rw [hk, Nat.succ_sub_one, hplace]
      rfl
    rw [hidle _ hlast] at hthere
    cases hthere
  · -- the core has run empty
    obtain ⟨k, hk⟩ := Nat.exists_eq_succ_of_ne_zero hstart.ne'
    obtain ⟨hdrained, hempty⟩ := idle_drains rfl hrunning hidle hdrain hfree (i := k) (by omega)
    have hdepth : (s.run memSize (k + 1)).core.pipeline.depth = s.core.pipeline.depth :=
      congrArg Prod.fst (run_layout s memSize _)
    have hnot : (s.run memSize (k + 1)).core.pipeline.isEmpty = false := by
      rw [hk, Nat.succ_eq_add_one, run_succ] at hrunning
      rw [run_succ] at hdrained ⊢
      exact coreEmuStep_stops hrunning (hidle k (by omega)) hdrained
    rw [isEmpty_iff.mpr] at hnot
    · cases hnot
    · intro i hi
      rw [hdepth] at hi
      exact hempty i (by omega) hi

theorem trace_add (s : Emu) (memSize m n : Nat) :
    s.trace memSize (m + n) = s.trace memSize m ++ (s.run memSize m).trace memSize n :=
  events_add _ _ m n s

/-- A core that is still running executes an instruction in every so many steps as it has stages. -/
theorem le_trace_length (hfirst : 0 < s.core.pipeline.execStage)
    (hlast : s.core.pipeline.execStage < s.core.pipeline.depth) (n : Nat)
    (hrunning : (s.run memSize (n * s.core.pipeline.depth)).core.running = true) :
    n ≤ (s.trace memSize (n * s.core.pipeline.depth)).length := by
  induction n with
  | zero => exact Nat.zero_le _
  | succ n ih =>
      let t := s.run memSize (n * s.core.pipeline.depth)
      have hlayout : t.core.pipeline.layout = s.core.pipeline.layout := run_layout s memSize _
      have hdepth : t.core.pipeline.depth = s.core.pipeline.depth := congrArg Prod.fst hlayout
      have hstage : t.core.pipeline.execStage = s.core.pipeline.execStage :=
        congrArg Prod.snd hlayout
      rw [Nat.succ_mul] at hrunning ⊢
      have hbefore := ih (running_of_run_add hrunning)
      rw [trace_add, List.length_append]
      have hpos : 0 < (t.trace memSize s.core.pipeline.depth).length := by
        rw [← hdepth, ← hstage] at hlast
        rw [← hstage] at hfirst
        rw [Emu.run, Nat.add_comm, Function.iterate_add_apply, ← Emu.run, ← Emu.run] at hrunning
        rw [← hdepth]
        obtain ⟨i, hi, hsome⟩ :=
          exists_executing_of_running hfirst hlast (by rw [hdepth]; exact hrunning)
        obtain ⟨found, hfound⟩ := Option.isSome_iff_exists.mp hsome
        apply events_length_pos hi
        exact congrArg (Option.map _) hfound
      exact Nat.add_le_add hbefore hpos

theorem Initial.le_trace_length (h : Initial s) (n : Nat)
    (hrunning : (s.run memSize (n * s.core.model.depth)).core.running = true) :
    n ≤ (s.trace memSize (n * s.core.model.depth)).length := by
  rw [← h.depth] at hrunning ⊢
  apply CoreEmu.le_trace_length _ _ n hrunning
  · rw [h.execStage]
    exact s.core.model.execStage_pos
  · rw [h.execStage, h.depth]
    exact s.core.model.execStage_lt_depth

end Progress

end BradVector.CoreEmu
