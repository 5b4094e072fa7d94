import BradVector.Library.Simulation
import BradVector.Proof.CoreAccess
import Mathlib.Data.BitVec
import Mathlib.Data.Set.Basic

/-!
# The pipelines against sequential execution

The step functions of the four pipeline models execute what an interpreter executes that fetches at
the program counter and executes, one instruction after the other. The instructions in front of the
execution stage are those the interpreter comes to next, unless one of them branches and flushes the
others.
-/

namespace BradVector.CoreEmu

open CSem

/-! ### What an execution depends on -/

/-- An execution leaves everything as it is but registers, program counter and counters. -/
structure SameFrame (core core' : CoreState) : Prop where
  model : core'.model = core.model
  running : core'.running = core.running
  pipeline : core'.pipeline = core.pipeline
  compressed : core'.compressed = core.compressed

/-- The outcome of an execution, and its address if it is a branch taken. -/
structure SameEffect (e e' : Executed) : Prop where
  regs : e'.core.regs = e.core.regs
  mem : e'.mem = e.mem
  taken : e'.taken = e.taken
  access : e'.access = e.access
  target : e.taken = true → e'.core.pc = e.core.pc

section Effects

variable {core core' : CoreState}

theorem SameFrame.setReg (core : CoreState) (r : BitVec 4) (v : Word) :
    SameFrame core (core.setReg r v) := by
  unfold CoreState.setReg
  split_ifs <;> exact ⟨rfl, rfl, rfl, rfl⟩

theorem setReg_pc (core : CoreState) (r : BitVec 4) (v : Word) :
    (core.setReg r v).pc = core.pc := by
  unfold CoreState.setReg
  split_ifs <;> rfl

theorem regVal_congr (hmodel : core'.model = core.model) (hregs : core'.regs = core.regs)
    (r : BitVec 4) : core'.regVal r = core.regVal r := by
  unfold CoreState.regVal
  rw [hmodel, hregs]

theorem setReg_regs_congr (hmodel : core'.model = core.model) (hregs : core'.regs = core.regs)
    (r : BitVec 4) (v : Word) : (core'.setReg r v).regs = (core.setReg r v).regs := by
  unfold CoreState.setReg
  rw [hmodel, hregs]
  split_ifs
  · rfl
  · exact hregs

theorem SameEffect.setReg (hmodel : core'.model = core.model) (hregs : core'.regs = core.regs)
    (r : BitVec 4) (v : Word) (mem : Nat → Byte) (ret : Int) (access : Option Word) :
    SameEffect ⟨core.setReg r v, mem, ret, false, access⟩
      ⟨core'.setReg r v, mem, ret, false, access⟩ :=
  ⟨setReg_regs_congr hmodel hregs r v, rfl, rfl, rfl, nofun⟩

theorem SameEffect.jump (hregs : core'.regs = core.regs) (mem : Nat → Byte) (target : Word) :
    SameEffect (.jump core mem target) (.jump core' mem target) :=
  ⟨hregs, rfl, rfl, rfl, fun _ => rfl⟩

end Effects

section Execute

variable (core : CoreState) (d : BradInsn) (mem : Nat → Byte) (memSize : Nat) (insnPc : Word)

theorem execute_frame : SameFrame core (execute core d mem memSize insnPc).core := by
  have hsetReg : ∀ v, SameFrame core ((core.count d.opcode).setReg d.rd v) := by
    intro v
    obtain ⟨hmodel, hrunning, hpipeline, hcompressed⟩ :=
      SameFrame.setReg (core.count d.opcode) d.rd v
    exact ⟨hmodel, hrunning, hpipeline, hcompressed⟩
  unfold execute
  dsimp only
  cases hop : d.opcode with
  | add | sub | mul | and | or | xor | shl | shr =>
      rw [hop] at hsetReg
      dsimp only
      split
      · exact ⟨rfl, rfl, rfl, rfl⟩
      · exact hsetReg _
  | addi =>
      rw [hop] at hsetReg
      exact hsetReg _
  | ldw =>
      rw [hop] at hsetReg
      dsimp only
      split_ifs
      · exact ⟨rfl, rfl, rfl, rfl⟩
      · exact hsetReg _
  | stw | bz | bnz =>
      dsimp only
      split_ifs <;> exact ⟨rfl, rfl, rfl, rfl⟩
  | jmp | call | ret => exact ⟨rfl, rfl, rfl, rfl⟩

/-- An instruction that does not branch leaves the program counter where it is. -/
theorem execute_pc_of_not_taken (h : (execute core d mem memSize insnPc).taken = false) :
    (execute core d mem memSize insnPc).core.pc = core.pc := by
  revert h
  unfold execute
  dsimp only
  cases d.opcode with
  | add | sub | mul | and | or | xor | shl | shr | ldw =>
      dsimp only
      split
      · exact fun _ => rfl
      · exact fun _ => setReg_pc _ _ _
  | addi => exact fun _ => setReg_pc _ _ _
  | stw =>
      dsimp only
      split_ifs <;> exact fun _ => rfl
  | bz | bnz =>
      dsimp only
      split_ifs
      · exact nofun
      · exact fun _ => rfl
  | jmp | call | ret => exact nofun

theorem execute_ret_of_taken (h : (execute core d mem memSize insnPc).taken = true) :
    (execute core d mem memSize insnPc).ret = 0 := by
  revert h
  unfold execute
  dsimp only
  cases d.opcode with
  | add | sub | mul | and | or | xor | shl | shr | ldw | stw =>
      dsimp only
      split <;> exact nofun
  | addi => exact nofun
  | bz | bnz =>
      dsimp only
      split_ifs <;> exact fun _ => rfl
  | jmp | call | ret => exact fun _ => rfl

theorem execute_mem_of_ne_stw (h : d.opcode ≠ .stw) :
    (execute core d mem memSize insnPc).mem = mem := by
  unfold execute
  dsimp only
  cases hop : d.opcode with
  | add | sub | mul | and | or | xor | shl | shr | ldw =>
      dsimp only
      split <;> rfl
  | stw => exact absurd hop h
  | bz | bnz =>
      dsimp only
      split <;> rfl
  | addi | jmp | call | ret => rfl

/-- A store leaves the words alone that it does not overlap. -/
theorem wordAt_execute_mem {w : Nat}
    (h : ∀ a, d.opcode = .stw → (execute core d mem memSize insnPc).access = some a →
      a.toNat + 4 ≤ w ∨ w + 4 ≤ a.toNat) :
    wordAt (execute core d mem memSize insnPc).mem w = wordAt mem w := by
  by_cases hop : d.opcode = .stw
  · by_cases hfault : memSize < (dataAddr core d + 4).toNat
    · rw [execute_of_fault (.inr hop) hfault]
    · have hdisjoint := h _ hop (execute_of_passes (.inr hop) hfault)
      rw [execute_stw hop, if_neg hfault]
      refine wordAt_writeBytes_of_disjoint ?_
      rw [toLE_length]
      omega
  · rw [execute_mem_of_ne_stw core d mem memSize insnPc hop]

/-- What an instruction does depends on the registers, not on where the program counter is. -/
theorem execute_congr (core' : CoreState) (hmodel : core'.model = core.model)
    (hregs : core'.regs = core.regs) :
    SameEffect (execute core d mem memSize insnPc) (execute core' d mem memSize insnPc) := by
  have hmodel' : ∀ op, (core'.count op).model = (core.count op).model := fun _ => hmodel
  have hregs' : ∀ op, (core'.count op).regs = (core.count op).regs := fun _ => hregs
  have hval : ∀ op r, (core'.count op).regVal r = (core.count op).regVal r := by
    intro op r
    exact regVal_congr (hmodel' op) (hregs' op) r
  unfold execute
  dsimp only
  simp only [hval, hmodel']
  cases d.opcode with
  | add | sub | mul | and | or | xor | shl | shr =>
      dsimp only
      split
      · exact ⟨congrArg (Function.update · d.rd 0) hregs, rfl, rfl, rfl, nofun⟩
      · exact SameEffect.setReg (hmodel' _) (hregs' _) _ _ _ _ _
  | addi => exact SameEffect.setReg (hmodel' _) (hregs' _) _ _ _ _ _
  | ldw =>
      dsimp only
      split
      · exact ⟨hregs, rfl, rfl, rfl, nofun⟩
      · exact SameEffect.setReg (hmodel' _) (hregs' _) _ _ _ _ _
  | stw =>
      dsimp only
      split <;> exact ⟨hregs, rfl, rfl, rfl, nofun⟩
  | bz | bnz =>
      dsimp only
      split
      · exact SameEffect.jump (hregs' _) _ _
      · exact ⟨hregs, rfl, rfl, rfl, nofun⟩
  | jmp | ret => exact SameEffect.jump (hregs' _) _ _
  | call => exact SameEffect.jump (congrArg (Function.update · bradRegLr (insnPc + 4)) hregs) _ _

end Execute

/-! ### Runs -/

/-- An instruction that has been executed, and the registers and the memory after it. -/
structure Retired where
  pc : Word
  insn : BradInsn
  regs : BitVec 4 → Word
  mem : Nat → Byte

/-- The instruction that the next step executes, with its address. -/
def Emu.executing (s : Emu) : Option (Word × BradInsn) :=
  if s.core.running then (advancePipeline s.core.pipeline).executing else none

def Emu.retired (memSize : Nat) (s : Emu) : Option Retired :=
  s.executing.map fun (pc, d) =>
    ⟨pc, d, (coreEmuStep s memSize).core.regs, (coreEmuStep s memSize).mem⟩

/-- The address a store of the next step goes to. -/
def Emu.storing (memSize : Nat) (s : Emu) : Option Word :=
  s.executing.bind fun (pc, d) =>
    if d.opcode = .stw then (execute s.core d s.mem memSize pc).access else none

/-- The word that the step before has fetched: it is in the first stage. -/
def Emu.fetched (s : Emu) : Option Word :=
  if (s.core.pipeline.stages 0).valid then some (s.core.pipeline.stages 0).pc else none

/-- The state after `n` steps of the pipeline. -/
def Emu.run (memSize n : Nat) (s : Emu) : Emu := (coreEmuStep · memSize)^[n] s

/-- What the pipeline executes in `n` steps. -/
def Emu.trace (memSize n : Nat) (s : Emu) : List Retired :=
  events (coreEmuStep · memSize) (Emu.retired memSize) n s

/-- One instruction of the interpreter: the fetch at the program counter, then the execution. -/
def seqStep (memSize : Nat) (q : Emu) : Option (Retired × Emu) :=
  let f := fetch q.core q.mem memSize
  f.insn.map fun d =>
    let e := execute f.core d q.mem memSize q.core.pc
    (⟨q.core.pc, d, e.core.regs, e.mem⟩, ⟨e.core, e.mem⟩)

/-- The first `m` instructions of the interpreter. -/
def seqTrace (memSize m : Nat) (q : Emu) : List Retired := firstEvents (seqStep memSize) m q

/-- A core in uncompressed mode before its first step. -/
structure Initial (s : Emu) : Prop where
  running : s.core.running = true
  plain : s.core.compressed = false
  depth : s.core.pipeline.depth = s.core.model.depth
  execStage : s.core.pipeline.execStage = s.core.model.execStage
  filling : s.core.pipeline.drain = false
  empty : ∀ i < s.core.model.depth,
    (s.core.pipeline.stages i).insn = none ∧ (s.core.pipeline.stages i).valid = false

/-- No store of the first `n` steps goes to a word that one of them fetches. -/
def CodeUnchanged (memSize n : Nat) (s : Emu) : Prop :=
  ∀ i < n, ∀ j ≤ n, ∀ a w, (s.run memSize i).storing memSize = some a →
    (s.run memSize j).fetched = some w → a.toNat + 4 ≤ w.toNat ∨ w.toNat + 4 ≤ a.toNat

/-! ### The stages in front of execution -/

/-- The stages below `k` hold what the interpreter comes to from `pc` on, the oldest in the highest
of them, and go on at `nextPc`. All of it was fetched from a word of `code`. -/
def OnPath (code : Word → Prop) (memSize : Nat) (mem : Nat → Byte) (nextPc : Word)
    (stages : Nat → Stage) : Nat → Word → Prop
  | 0, pc => pc = nextPc
  | k + 1, pc =>
      if (stages k).valid then
        (stages k).pc = pc ∧ (stages k).insn = some (bradIsaDecode (wordAt mem pc.toNat)) ∧
          ¬ memSize < (pc + 4).toNat ∧ code pc ∧ OnPath code memSize mem nextPc stages k (pc + 4)
      else (stages k).insn = none ∧ OnPath code memSize mem nextPc stages k pc

section OnPath

variable {code : Word → Prop} {memSize : Nat} {mem mem' : Nat → Byte} {nextPc pc : Word}
  {stages stages' : Nat → Stage} {k : Nat}

theorem OnPath.congr (h : OnPath code memSize mem nextPc stages k pc)
    (hstages : ∀ i < k, stages' i = stages i)
    (hmem : ∀ w, code w → wordAt mem' w.toNat = wordAt mem w.toNat) :
    OnPath code memSize mem' nextPc stages' k pc := by
  induction k generalizing pc with
  | zero => exact h
  | succ k ih =>
      have hbelow : ∀ i < k, stages' i = stages i := fun i hi => hstages i (Nat.lt_succ_of_lt hi)
      unfold OnPath at h ⊢
      rw [hstages k k.lt_succ_self]
      split at h
      · obtain ⟨hpc, hinsn, hpasses, hcode, hrest⟩ := h
        rw [if_pos ‹_›, hmem pc hcode]
        exact ⟨hpc, hinsn, hpasses, hcode, ih hrest hbelow⟩
      · rw [if_neg ‹_›]
        exact ⟨h.1, ih h.2 hbelow⟩

/-- Each instruction moves on by a stage, and the first stage is free. -/
theorem OnPath.advance (h : OnPath code memSize mem nextPc stages k pc)
    (hempty : stages' 0 = .empty) (hshift : ∀ i < k, stages' (i + 1) = stages i) :
    OnPath code memSize mem nextPc stages' (k + 1) pc := by
  induction k generalizing pc with
  | zero =>
      unfold OnPath
      rw [hempty]
      exact ⟨rfl, h⟩
  | succ k ih =>
      have hbelow : ∀ i < k, stages' (i + 1) = stages i :=
        fun i hi => hshift i (Nat.lt_succ_of_lt hi)
      unfold OnPath at h ⊢
      rw [hshift k k.lt_succ_self]
      split at h
      · obtain ⟨hpc, hinsn, hpasses, hcode, hrest⟩ := h
        rw [if_pos ‹_›]
        exact ⟨hpc, hinsn, hpasses, hcode, ih hrest hbelow⟩
      · rw [if_neg ‹_›]
        exact ⟨h.1, ih h.2 hbelow⟩

/-- A fetch into the free first stage goes on along the path. -/
theorem OnPath.fetch (h : OnPath code memSize mem nextPc stages (k + 1) pc)
    (hempty : stages 0 = .empty) (hpasses : ¬ memSize < (nextPc + 4).toNat) (hcode : code nextPc) :
    OnPath code memSize mem (nextPc + 4)
      (Function.update stages 0 ⟨some (bradIsaDecode (wordAt mem nextPc.toNat)), nextPc, true⟩)
      (k + 1) pc := by
  induction k generalizing pc with
  | zero =>
      unfold OnPath at h
      rw [hempty] at h
      obtain rfl : pc = nextPc := h.2
      unfold OnPath
      rw [Function.update_self]
      exact ⟨rfl, rfl, hpasses, hcode, rfl⟩
  | succ k ih =>
      unfold OnPath at h ⊢
      rw [Function.update_of_ne k.succ_ne_zero]
      split at h
      · obtain ⟨hpc, hinsn, hwithin, hpcCode, hrest⟩ := h
        rw [if_pos ‹_›]
        exact ⟨hpc, hinsn, hwithin, hpcCode, ih hrest⟩
      · rw [if_neg ‹_›]
        exact ⟨h.1, ih h.2⟩

theorem OnPath.of_empty (h : ∀ i < k, (stages i).insn = none ∧ (stages i).valid = false) :
    OnPath code memSize mem nextPc stages k nextPc := by
  induction k with
  | zero => rfl
  | succ k ih =>
      unfold OnPath
      obtain ⟨hinsn, hvalid⟩ := h k k.lt_succ_self
      rw [hvalid]
      exact ⟨hinsn, ih fun i hi => h i (Nat.lt_succ_of_lt hi)⟩

/-- With no instruction on the way the interpreter is where the next fetch is. -/
theorem OnPath.pc_of_empty (h : OnPath code memSize mem nextPc stages k pc)
    (hempty : ∀ i < k, (stages i).valid = false) : pc = nextPc := by
  induction k with
  | zero => exact h
  | succ k ih =>
      unfold OnPath at h
      rw [hempty k k.lt_succ_self] at h
      exact ih h.2 fun i hi => hempty i (Nat.lt_succ_of_lt hi)

end OnPath

/-! ### The simulation -/

/-- The interpreter is at `q` when the pipeline is at `s`. -/
structure InFlight (code : Word → Prop) (memSize : Nat) (s q : Emu) : Prop where
  model : q.core.model = s.core.model
  regs : q.core.regs = s.core.regs
  mem : q.mem = s.mem
  plain : s.core.compressed = false
  plain_seq : q.core.compressed = false
  depth : s.core.pipeline.depth = s.core.model.depth
  execStage : s.core.pipeline.execStage = s.core.model.execStage
  path : OnPath code memSize s.mem s.core.pc s.core.pipeline.stages s.core.model.execStage q.core.pc
  drained : s.core.pipeline.drain = true → memSize < (s.core.pc + 4).toNat
  stopped : s.core.running = false → memSize < (q.core.pc + 4).toNat

theorem PipelineModel.execStage_pos (model : PipelineModel) : 0 < model.execStage := by
  cases model <;> decide

theorem PipelineModel.execStage_lt_depth (model : PipelineModel) :
    model.execStage < model.depth := by
  cases model <;> decide

theorem Initial.inFlight {s : Emu} (h : Initial s) (code : Word → Prop) (memSize : Nat) :
    InFlight code memSize s s where
  model := rfl
  regs := rfl
  mem := rfl
  plain := h.plain
  plain_seq := h.plain
  depth := h.depth
  execStage := h.execStage
  path := by
    apply OnPath.of_empty
    intro i hi
    exact h.empty i (hi.trans s.core.model.execStage_lt_depth)
  drained := by
    intro hdrain
    rw [h.filling] at hdrain
    cases hdrain
  stopped := by
    intro hstopped
    rw [h.running] at hstopped
    cases hstopped

section Fetch

variable {code : Word → Prop} {memSize : Nat} {s q : Emu}

theorem fetch_of_plain (core : CoreState) (mem : Nat → Byte) (h : core.compressed = false)
    (hpasses : ¬ memSize < (core.pc + 4).toNat) :
    fetch core mem memSize =
      ⟨some (bradIsaDecode (wordAt mem core.pc.toNat)), { core with pc := core.pc + 4 },
        some core.pc⟩ := by
  unfold fetch
  rw [h, if_neg Bool.false_ne_true, if_neg hpasses]

theorem seqStep_of_passes (h : q.core.compressed = false)
    (hpasses : ¬ memSize < (q.core.pc + 4).toNat) :
    seqStep memSize q =
      let d := bradIsaDecode (wordAt q.mem q.core.pc.toNat)
      let e := execute { q.core with pc := q.core.pc + 4 } d q.mem memSize q.core.pc
      some (⟨q.core.pc, d, e.core.regs, e.mem⟩, ⟨e.core, e.mem⟩) := by
  unfold seqStep
  rw [fetch_of_plain q.core q.mem h hpasses]
  rfl

theorem seqStep_of_fault (h : memSize < (q.core.pc + 4).toNat) : seqStep memSize q = none := by
  unfold seqStep
  rw [fetch_of_fault q.core q.mem memSize h]
  rfl

/-- The core after the fetch of `fetchStage`, before it counts and stops. -/
def fetchInto (s : Emu) (memSize : Nat) : CoreState :=
  let core := s.core
  if (core.pipeline.stages 0).insn = none ∧ core.running ∧ ¬ core.pipeline.drain then
    let f := fetch core s.mem memSize
    match f.insn with
    | some d =>
        { f.core with
          pipeline :=
            { f.core.pipeline with
              stages := Function.update f.core.pipeline.stages 0 ⟨some d, f.core.pc - 4, true⟩ } }
    | none => { core with pipeline := { core.pipeline with drain := true } }
  else core

/-- The end of `fetchStage`: the counters, and the stop of a drained core. -/
def CoreState.finish (core : CoreState) : CoreState :=
  let core := updateEnergy { core with cycles := core.cycles + 1 }
  if core.pipeline.drain ∧ core.pipeline.isEmpty then { core with running := false } else core

theorem fetchStage_eq (s : Emu) (memSize : Nat) :
    fetchStage s memSize = ⟨(fetchInto s memSize).finish, s.mem⟩ := rfl

theorem finish_pipeline (core : CoreState) : core.finish.pipeline = core.pipeline := by
  unfold CoreState.finish
  dsimp only
  split <;> rfl

theorem isEmpty_iff {p : Pipeline} :
    p.isEmpty = true ↔ ∀ i < p.depth, (p.stages i).valid = false := by
  unfold Pipeline.isEmpty
  simp [List.all_eq_true]

/-- A core that stops has no instruction on the way, and its next fetch faults. -/
theorem InFlight.finish {core : CoreState} {mem : Nat → Byte}
    (h : InFlight code memSize ⟨core, mem⟩ q) (hrunning : core.running = true) :
    InFlight code memSize ⟨core.finish, mem⟩ q := by
  unfold CoreState.finish
  dsimp only
  split
  · obtain ⟨hdrain, hempty⟩ := ‹_ ∧ _›
    refine ⟨h.model, h.regs, h.mem, h.plain, h.plain_seq, h.depth, h.execStage, h.path, h.drained,
      ?_⟩
    intro _
    have hpc : q.core.pc = core.pc := by
      apply h.path.pc_of_empty
      intro i hi
      refine isEmpty_iff.mp hempty i ?_
      change i < core.pipeline.depth
      rw [h.depth]
      exact hi.trans core.model.execStage_lt_depth
    rw [hpc]
    exact h.drained hdrain
  · refine ⟨h.model, h.regs, h.mem, h.plain, h.plain_seq, h.depth, h.execStage, h.path, h.drained,
      ?_⟩
    intro hstopped
    rw [show core.running = false from hstopped] at hrunning
    cases hrunning

/-- A fetch goes on where the interpreter will be, or drains the pipeline. -/
theorem InFlight.after_fetch (h : InFlight code memSize s q) (hrunning : s.core.running = true)
    (hfree : s.core.pipeline.stages 0 = .empty)
    (hcode : ∀ w, (fetchStage s memSize).fetched = some w → code w) :
    InFlight code memSize (fetchStage s memSize) q := by
  rw [fetchStage_eq] at hcode ⊢
  unfold Emu.fetched at hcode
  rw [finish_pipeline] at hcode
  have hinsn : (s.core.pipeline.stages 0).insn = none := by
    rw [hfree]
    rfl
  revert hcode
  unfold fetchInto
  dsimp only
  split
  · have hfilling := ‹_ ∧ _ ∧ _›.2.2
    by_cases hfault : memSize < (s.core.pc + 4).toNat
    · rw [fetch_of_fault s.core s.mem memSize hfault]
      intro _
      refine InFlight.finish ?_ hrunning
      exact ⟨h.model, h.regs, h.mem, h.plain, h.plain_seq, h.depth, h.execStage, h.path,
        fun _ => hfault, h.stopped⟩
    · rw [fetch_of_plain s.core s.mem h.plain hfault]
      dsimp only
      rw [BitVec.add_sub_cancel]
      intro hcode
      refine InFlight.finish ?_ hrunning
      refine ⟨h.model, h.regs, h.mem, h.plain, h.plain_seq, h.depth, h.execStage, ?_, ?_, ?_⟩
      · obtain ⟨k, hk⟩ := Nat.exists_eq_succ_of_ne_zero s.core.model.execStage_pos.ne'
        have hpath := h.path
        change OnPath code memSize s.mem (s.core.pc + 4) _ s.core.model.execStage q.core.pc
        rw [hk] at hpath ⊢
        exact hpath.fetch hfree hfault (hcode _ (by simp))
      · intro hdrain
        exact absurd hdrain hfilling
      · exact fun hstopped => h.stopped hstopped
  · intro _
    exact InFlight.finish h hrunning

end Fetch

section Step

variable {code : Word → Prop} {memSize : Nat} {s q : Emu}

/-- What reaches the execution stage, if anything, is the instruction that the interpreter comes
to. -/
theorem InFlight.advanced (h : InFlight code memSize s q) :
    (advancePipeline s.core.pipeline).executing = none ∧
        OnPath code memSize s.mem s.core.pc (advancePipeline s.core.pipeline).stages
          s.core.model.execStage q.core.pc ∨
      (advancePipeline s.core.pipeline).executing =
          some (q.core.pc, bradIsaDecode (wordAt s.mem q.core.pc.toNat)) ∧
        ¬ memSize < (q.core.pc + 4).toNat ∧
        OnPath code memSize s.mem s.core.pc (advancePipeline s.core.pipeline).stages
          s.core.model.execStage (q.core.pc + 4) := by
  have hpath : OnPath code memSize s.mem s.core.pc (advancePipeline s.core.pipeline).stages
      (s.core.model.execStage + 1) q.core.pc := by
    apply h.path.advance
    · rfl
    · intro i hi
      have hlt : i + 1 < s.core.pipeline.depth := by
        have := s.core.model.execStage_lt_depth
        rw [h.depth]
        omega
      unfold advancePipeline
      simp [hlt]
  have hstage : (advancePipeline s.core.pipeline).execStage = s.core.model.execStage := h.execStage
  unfold OnPath at hpath
  unfold Pipeline.executing
  rw [hstage]
  dsimp only
  split at hpath
  · obtain ⟨hpc, hinsn, hpasses, _, hrest⟩ := hpath
    rw [if_pos ‹_›, hinsn, hpc]
    exact .inr ⟨rfl, hpasses, hrest⟩
  · rw [if_neg ‹_›]
    exact .inl ⟨rfl, hpath.2⟩

theorem runPipeline_of_idle (retires : Bool) (flushes : Executed → Bool)
    (h : (advancePipeline s.core.pipeline).executing = none) :
    runPipeline retires flushes s memSize =
      fetchStage { s with core := { s.core with pipeline := advancePipeline s.core.pipeline } }
        memSize := by
  unfold runPipeline
  dsimp only
  rw [h]

/-- The core after its instruction has left the execution stage, if it leaves at once. -/
def CoreState.leave (retires : Bool) (core : CoreState) : CoreState :=
  if retires then { core with pipeline := core.pipeline.retire } else core

/-- The core after a branch has emptied the pipeline. -/
def CoreState.flush (core : CoreState) : CoreState :=
  { core with
    controlHazards := core.controlHazards + 1
    pipeline := { pipelineFlush core.pipeline with drain := false } }

section Executing

variable (retires : Bool) (flushes : Executed → Bool) {pc : Word} {d : BradInsn} {e : Executed}

theorem runPipeline_of_flush (h : (advancePipeline s.core.pipeline).executing = some (pc, d))
    (he :
      execute { s.core with pipeline := advancePipeline s.core.pipeline } d s.mem memSize pc = e)
    (hflush : flushes e = true) :
    runPipeline retires flushes s memSize = ⟨(e.core.leave retires).flush, e.mem⟩ := by
  unfold runPipeline
  dsimp only
  rw [h]
  dsimp only
  rw [he, hflush]
  rfl

theorem runPipeline_of_not_flush (h : (advancePipeline s.core.pipeline).executing = some (pc, d))
    (he :
      execute { s.core with pipeline := advancePipeline s.core.pipeline } d s.mem memSize pc = e)
    (hflush : flushes e = false) :
    runPipeline retires flushes s memSize = fetchStage ⟨e.core.leave retires, e.mem⟩ memSize := by
  unfold runPipeline
  dsimp only
  rw [h]
  dsimp only
  rw [he, hflush]
  rfl

end Executing

theorem InFlight.leave {core : CoreState} {mem : Nat → Byte}
    (h : InFlight code memSize ⟨core, mem⟩ q)
    (retires : Bool) : InFlight code memSize ⟨core.leave retires, mem⟩ q := by
  cases retires with
  | false => exact h
  | true =>
      refine ⟨h.model, h.regs, h.mem, h.plain, h.plain_seq, h.depth, h.execStage, ?_, h.drained,
        h.stopped⟩
      apply h.path.congr
      · intro i hi
        apply Function.update_of_ne
        rw [h.execStage]
        exact hi.ne
      · exact fun _ _ => rfl

theorem leave_first (core : CoreState) (retires : Bool) (h : core.pipeline.execStage ≠ 0) :
    (core.leave retires).pipeline.stages 0 = core.pipeline.stages 0 := by
  cases retires with
  | false => rfl
  | true => exact Function.update_of_ne h.symm _ _

/-- After a flush the interpreter is where the branch goes, and so is the next fetch. -/
theorem InFlight.of_flush {core : CoreState} {mem : Nat → Byte} (hmodel : q.core.model = core.model)
    (hregs : q.core.regs = core.regs) (hmem : q.mem = mem) (hplain : core.compressed = false)
    (hplainSeq : q.core.compressed = false) (hdepth : core.pipeline.depth = core.model.depth)
    (hexecStage : core.pipeline.execStage = core.model.execStage) (hpc : q.core.pc = core.pc)
    (hrunning : core.running = true) : InFlight code memSize ⟨core.flush, mem⟩ q where
  model := hmodel
  regs := hregs
  mem := hmem
  plain := hplain
  plain_seq := hplainSeq
  depth := hdepth
  execStage := hexecStage
  path := by
    rw [hpc]
    apply OnPath.of_empty
    intro i hi
    have hlt : i < core.pipeline.depth := by
      rw [hdepth]
      exact hi.trans core.model.execStage_lt_depth
    have hne : i ≠ core.pipeline.execStage := by
      rw [hexecStage]
      exact hi.ne
    simp [CoreState.flush, pipelineFlush, hlt, hne, Stage.empty]
  drained := nofun
  stopped := by
    intro hstopped
    rw [show core.running = false from hstopped] at hrunning
    cases hrunning

/-- The executions of the pipeline and of the interpreter, and what the pipeline's leaves of the
code. -/
structure Executes (code : Word → Prop) (s q : Emu) (e e' : Executed) : Prop where
  effect : SameEffect e e'
  frame : SameFrame { s.core with pipeline := advancePipeline s.core.pipeline } e.core
  frame_seq : SameFrame { q.core with pc := q.core.pc + 4 } e'.core
  next : e.taken = false → e.core.pc = s.core.pc ∧ e'.core.pc = q.core.pc + 4
  words : ∀ w, code w → wordAt e.mem w.toNat = wordAt s.mem w.toNat

theorem Executes.of_inFlight (h : InFlight code memSize s q) (d : BradInsn)
    (hstore : ∀ a w, d.opcode = .stw → (execute s.core d s.mem memSize q.core.pc).access = some a →
      code w → a.toNat + 4 ≤ w.toNat ∨ w.toNat + 4 ≤ a.toNat) :
    Executes code s q
      (execute { s.core with pipeline := advancePipeline s.core.pipeline } d s.mem
        memSize q.core.pc)
      (execute { q.core with pc := q.core.pc + 4 } d q.mem memSize q.core.pc) := by
  rw [h.mem]
  have heffect := execute_congr { s.core with pipeline := advancePipeline s.core.pipeline } d s.mem
    memSize q.core.pc { q.core with pc := q.core.pc + 4 } h.model h.regs
  refine ⟨heffect, execute_frame _ _ _ _ _, execute_frame _ _ _ _ _, ?_, ?_⟩
  · intro htaken
    exact ⟨execute_pc_of_not_taken _ _ _ _ _ htaken,
      execute_pc_of_not_taken _ _ _ _ _ (heffect.taken.trans htaken)⟩
  · intro w hw
    apply wordAt_execute_mem
    intro a hop ha
    have hsame := execute_congr s.core d s.mem memSize q.core.pc
      { s.core with pipeline := advancePipeline s.core.pipeline } rfl rfl
    exact hstore a w hop (hsame.access.symm.trans ha) hw

section Executes

variable {e e' : Executed} (h : InFlight code memSize s q) (he : Executes code s q e e')
include h he

theorem Executes.inFlight_of_not_taken (hrunning : s.core.running = true) (htaken : e.taken = false)
    (hpath : OnPath code memSize s.mem s.core.pc (advancePipeline s.core.pipeline).stages
      s.core.model.execStage (q.core.pc + 4)) :
    InFlight code memSize ⟨e.core, e.mem⟩ ⟨e'.core, e'.mem⟩ := by
  obtain ⟨hpc, hseqPc⟩ := he.next htaken
  have hmodel : e.core.model = s.core.model := he.frame.model
  have hpipeline : e.core.pipeline = advancePipeline s.core.pipeline := he.frame.pipeline
  refine ⟨?_, he.effect.regs, he.effect.mem, ?_, ?_, ?_, ?_, ?_, ?_, ?_⟩
  · exact he.frame_seq.model.trans (h.model.trans hmodel.symm)
  · exact he.frame.compressed.trans h.plain
  · exact he.frame_seq.compressed.trans h.plain_seq
  · rw [hpipeline, hmodel]
    exact h.depth
  · rw [hpipeline, hmodel]
    exact h.execStage
  · dsimp only
    rw [hpipeline, hmodel, hpc, hseqPc]
    exact hpath.congr (fun _ _ => rfl) he.words
  · dsimp only
    rw [hpipeline, hpc]
    exact h.drained
  · intro hstopped
    have hstill : e.core.running = true := he.frame.running.trans hrunning
    rw [show e.core.running = false from hstopped] at hstill
    cases hstill

theorem Executes.inFlight_of_taken (hrunning : s.core.running = true) (htaken : e.taken = true)
    (retires : Bool) :
    InFlight code memSize ⟨(e.core.leave retires).flush, e.mem⟩ ⟨e'.core, e'.mem⟩ := by
  have hmodel : e.core.model = s.core.model := he.frame.model
  have hpipeline : e.core.pipeline = advancePipeline s.core.pipeline := he.frame.pipeline
  have hdepth : e.core.pipeline.depth = e.core.model.depth := by
    rw [hpipeline, hmodel]
    exact h.depth
  have hexecStage : e.core.pipeline.execStage = e.core.model.execStage := by
    rw [hpipeline, hmodel]
    exact h.execStage
  have hstill : e.core.running = true := he.frame.running.trans hrunning
  have hplain : e.core.compressed = false := he.frame.compressed.trans h.plain
  cases retires <;>
    exact InFlight.of_flush (he.frame_seq.model.trans (h.model.trans hmodel.symm)) he.effect.regs
      he.effect.mem hplain (he.frame_seq.compressed.trans h.plain_seq) hdepth hexecStage
      (he.effect.target htaken) hstill

end Executes

/-- What the four models differ in: the instruction leaves its stage at once or not, and whatever a
branch flushes, it is a branch taken. -/
theorem coreEmuStep_eq (memSize : Nat) (s : Emu) (hrunning : s.core.running = true) :
    ∃ retires flushes, coreEmuStep s memSize = runPipeline retires flushes s memSize ∧
      ∀ core d mem insnPc, flushes (execute core d mem memSize insnPc) =
        (execute core d mem memSize insnPc).taken := by
  unfold coreEmuStep
  rw [hrunning, if_neg (by simp)]
  cases s.core.model with
  | phoenix =>
      refine ⟨false, fun e => e.ret = 0 && e.taken, rfl, ?_⟩
      intro core d mem insnPc
      cases htaken : (execute core d mem memSize insnPc).taken with
      | false => simp [htaken]
      | true => simp [htaken, execute_ret_of_taken core d mem memSize insnPc htaken]
  | falcon => exact ⟨true, fun e => e.taken, rfl, fun _ _ _ _ => rfl⟩
  | kestrel => exact ⟨false, fun e => e.taken, rfl, fun _ _ _ _ => rfl⟩
  | falconLite => exact ⟨true, fun e => e.taken, rfl, fun _ _ _ _ => rfl⟩

section Steps

variable (hfetched : ∀ w, (coreEmuStep s memSize).fetched = some w → code w)
  (hstored : ∀ a w, s.storing memSize = some a → code w →
    a.toNat + 4 ≤ w.toNat ∨ w.toNat + 4 ≤ a.toNat)
include hfetched

theorem InFlight.step_of_idle (h : InFlight code memSize s q) (hrunning : s.core.running = true)
    (hidle : (advancePipeline s.core.pipeline).executing = none)
    (hpath : OnPath code memSize s.mem s.core.pc (advancePipeline s.core.pipeline).stages
      s.core.model.execStage q.core.pc) : InFlight code memSize (coreEmuStep s memSize) q := by
  obtain ⟨retires, flushes, hstep, _⟩ := coreEmuStep_eq memSize s hrunning
  rw [hstep, runPipeline_of_idle retires flushes hidle] at hfetched ⊢
  refine InFlight.after_fetch ?_ hrunning rfl hfetched
  exact ⟨h.model, h.regs, h.mem, h.plain, h.plain_seq, h.depth, h.execStage, hpath, h.drained,
    h.stopped⟩

include hstored

theorem InFlight.step_of_executing (h : InFlight code memSize s q)
    (hrunning : s.core.running = true)
    {d : BradInsn} (hexecuting : (advancePipeline s.core.pipeline).executing = some (q.core.pc, d))
    (hpath : OnPath code memSize s.mem s.core.pc (advancePipeline s.core.pipeline).stages
      s.core.model.execStage (q.core.pc + 4)) :
    InFlight code memSize (coreEmuStep s memSize)
      ⟨(execute { q.core with pc := q.core.pc + 4 } d q.mem memSize q.core.pc).core,
        (execute { q.core with pc := q.core.pc + 4 } d q.mem memSize q.core.pc).mem⟩ := by
  obtain ⟨retires, flushes, hstep, hflushes⟩ := coreEmuStep_eq memSize s hrunning
  let e :=
    execute { s.core with pipeline := advancePipeline s.core.pipeline } d s.mem memSize q.core.pc
  let e' := execute { q.core with pc := q.core.pc + 4 } d q.mem memSize q.core.pc
  have hexecutes : Executes code s q e e' := by
    apply Executes.of_inFlight h d
    intro a w hop ha
    apply hstored a w
    unfold Emu.storing Emu.executing
    rw [if_pos hrunning, hexecuting]
    change (if d.opcode = .stw then _ else none) = _
    rw [if_pos hop, ha]
  rw [hstep] at hfetched ⊢
  by_cases htaken : e.taken = true
  · have hflush : flushes e = true := (hflushes _ _ _ _).trans htaken
    rw [runPipeline_of_flush retires flushes hexecuting rfl hflush]
    exact hexecutes.inFlight_of_taken h hrunning htaken retires
  · rw [Bool.not_eq_true] at htaken
    have hflush : flushes e = false := (hflushes _ _ _ _).trans htaken
    rw [runPipeline_of_not_flush retires flushes hexecuting rfl hflush] at hfetched ⊢
    have hbefore := hexecutes.inFlight_of_not_taken h hrunning htaken hpath
    refine (hbefore.leave retires).after_fetch ?_ ?_ hfetched
    · have hstill : e.core.running = true := hexecutes.frame.running.trans hrunning
      cases retires <;> exact hstill
    · have hpos : e.core.pipeline.execStage ≠ 0 := by
        rw [hbefore.execStage]
        exact e.core.model.execStage_pos.ne'
      dsimp only
      rw [leave_first e.core retires hpos, hexecutes.frame.pipeline]
      rfl

/-- One step executes nothing, or what the interpreter executes next. -/
theorem InFlight.step :
    StepSimulates (coreEmuStep · memSize) (Emu.retired memSize) (seqStep memSize)
      (InFlight code memSize) s := by
  intro q h
  by_cases hrunning : s.core.running = true
  · obtain ⟨hidle, hpath⟩ | ⟨hexecuting, hpasses, hpath⟩ := h.advanced
    · left
      constructor
      · unfold Emu.retired Emu.executing
        rw [if_pos hrunning, hidle]
        rfl
      · exact h.step_of_idle hfetched hrunning hidle hpath
    · rw [← h.mem] at hexecuting
      right
      have hnext := h.step_of_executing hfetched hstored hrunning hexecuting hpath
      refine ⟨_, _, ?_, seqStep_of_passes h.plain_seq hpasses, hnext⟩
      unfold Emu.retired Emu.executing
      rw [if_pos hrunning, hexecuting]
      simp only [Option.map_some, Option.some.injEq, Retired.mk.injEq, true_and]
      exact ⟨hnext.regs.symm, hnext.mem.symm⟩
  · have hstays : coreEmuStep s memSize = s := by
      unfold coreEmuStep
      rw [if_pos hrunning]
    left
    constructor
    · unfold Emu.retired Emu.executing
      rw [if_neg hrunning]
      rfl
    · dsimp only
      rw [hstays]
      exact h

end Steps

end Step

/-- **The pipelines execute sequentially.** What `n` steps of a pipeline execute is what the
interpreter executes first, and all it executes if the core has stopped. -/
theorem pipeline_executes_sequentially (memSize n : Nat) (s : Emu) (hinitial : Initial s)
    (hcode : CodeUnchanged memSize n s) :
    ∃ m, s.trace memSize n = seqTrace memSize m s ∧
      ((s.run memSize n).core.running = false →
        ∀ k, m ≤ k → seqTrace memSize k s = s.trace memSize n) := by
  let code : Word → Prop := fun w => ∃ j ≤ n, (s.run memSize j).fetched = some w
  have hsteps : ∀ i < n, StepSimulates (coreEmuStep · memSize) (Emu.retired memSize)
      (seqStep memSize) (InFlight code memSize) (s.run memSize i) := by
    intro i hi
    apply InFlight.step
    · intro w hw
      refine ⟨i + 1, hi, ?_⟩
      rw [Emu.run, Function.iterate_succ_apply']
      exact hw
    · intro a w ha hw
      obtain ⟨j, hj, hfetched⟩ := hw
      exact hcode i hi j hj a w ha hfetched
  obtain ⟨m, q, hq, hm⟩ := events_eq_firstEvents (hinitial.inFlight code memSize) hsteps
  refine ⟨m, ?_, ?_⟩
  · have hfirst := hm 0
    simp only [Nat.add_zero, firstEvents, List.append_nil] at hfirst
    exact hfirst.symm
  · intro hstopped k hk
    obtain ⟨k, rfl⟩ := Nat.exists_eq_add_of_le hk
    have hend : seqStep memSize q = none := seqStep_of_fault (hq.stopped hstopped)
    have hrest := hm k
    rw [firstEvents_of_none hend, List.append_nil] at hrest
    exact hrest

/-- `ADDI r1, r1, 1` and a jump back to it. -/
def countingLoop : Emu :=
  ⟨coreInit .falconLite 0 0,
    writeBytes (fun _ => 0) 0
      (toLE 4 (bradRI .addi 1 1 1).toNat ++ toLE 4 (bradJMP .jmp (-2)).toNat)⟩

theorem countingLoop_executes_sequentially :
    (countingLoop.trace 8 9).map Retired.pc = [0, 4, 0, 4, 0, 4] ∧
      ∃ m, countingLoop.trace 8 9 = seqTrace 8 m countingLoop ∧
        ((countingLoop.run 8 9).core.running = false →
          ∀ k, m ≤ k → seqTrace 8 k countingLoop = countingLoop.trace 8 9) := by
  have hinitial : Initial countingLoop :=
    ⟨rfl, by decide, rfl, rfl, rfl, fun _ _ => ⟨rfl, rfl⟩⟩
  have hstoring : ∀ i < 9, (countingLoop.run 8 i).storing 8 = none := by decide
  refine ⟨by decide, ?_⟩
  apply pipeline_executes_sequentially 8 9 countingLoop hinitial
  intro i hi _ _ a _ ha
  rw [hstoring i hi] at ha
  cases ha

end BradVector.CoreEmu
