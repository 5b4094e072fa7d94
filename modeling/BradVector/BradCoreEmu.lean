import BradVector.Bradisa
import BradVector.Library.Decimal
import BradVector.Library.Machine
import Mathlib.Logic.Function.Basic

/-!
# The BradCore emulator

`brad_core_emu.c`: the execution of an instruction, the fetch from memory, and the step functions of
the four pipeline models. Memory is what lies from `mem_base` on, and every function that touches it
says where.
-/

namespace BradVector.CoreEmu

open CSem

/-! ### Cores -/

/-- `enum brad_isa_pipeline_model`. -/
inductive PipelineModel where
  | phoenix | falcon | kestrel | falconLite
  deriving DecidableEq, Repr

def PipelineModel.depth : PipelineModel → Nat
  | phoenix => 10
  | falcon => 5
  | kestrel => 8
  | falconLite => 3

def PipelineModel.execStage : PipelineModel → Nat
  | phoenix => 6
  | falcon => 3
  | kestrel => 4
  | falconLite => 1

/-- `BRAD_NUM_REGS` or `BRAD_NUM_REGS_LITE`. -/
def PipelineModel.numRegs : PipelineModel → Nat
  | falconLite => 8
  | _ => 16

/-- A stage of the pipeline: its instruction, or a null pointer, its address and its valid bit. -/
structure Stage where
  insn : Option BradInsn
  pc : Word
  valid : Bool
  deriving DecidableEq, Repr

def Stage.empty : Stage := ⟨none, 0, false⟩

/-- `struct brad_core_pipeline`. -/
structure Pipeline where
  stages : Nat → Stage
  depth : Nat
  execStage : Nat
  drain : Bool

/-- `struct brad_core_state`, as far as the functions here read it. -/
structure CoreState where
  model : PipelineModel
  regs : BitVec 4 → Word
  pc : Word
  running : Bool
  cycles : BitVec 64
  insnRetired : BitVec 64
  branches : BitVec 64
  branchesTaken : BitVec 64
  controlHazards : Word
  pipeline : Pipeline
  msrStatus : Word
  msrVoltage : Word
  msrFreq : Word
  msrEnergy : BitVec 64
  compressMode : Bool

def bradRegSp : BitVec 4 := 13
def bradRegLr : BitVec 4 := 14

/-- `BRAD_STATUS_C`. -/
def bradStatusC : Word := 1 <<< 4

/-- `brad_core_emu_init`. -/
def coreInit (model : PipelineModel) (entryPc sp : Word) : CoreState where
  model
  regs := Function.update (fun _ => 0) bradRegSp sp
  pc := entryPc
  running := true
  cycles := 0
  insnRetired := 0
  branches := 0
  branchesTaken := 0
  controlHazards := 0
  pipeline := ⟨fun _ => .empty, model.depth, model.execStage, false⟩
  msrStatus := 0
  msrVoltage :=
    match model with
    | .phoenix => 1200
    | .falcon => 700
    | .kestrel => 900
    | .falconLite => 500
  msrFreq :=
    match model with
    | .phoenix => 3000
    | .falcon => 2400
    | .kestrel => 3500
    | .falconLite => 1200
  msrEnergy := 0
  compressMode := false

/-- A register as an operand: one the model does not have reads 0. -/
def CoreState.regVal (core : CoreState) (r : BitVec 4) : Word :=
  if r.toNat < core.model.numRegs then core.regs r else 0

/-- A result into a register, if the model has it. -/
def CoreState.setReg (core : CoreState) (r : BitVec 4) (v : Word) : CoreState :=
  if r.toNat < core.model.numRegs then { core with regs := Function.update core.regs r v } else core

/-! ### Execution -/

/-- `alu_exec`. -/
def aluExec (op : BradOp) (a b : Word) : Word :=
  match op with
  | .add => a + b
  | .sub => a - b
  | .mul => a * b
  | .and => a &&& b
  | .or => a ||| b
  | .xor => a ^^^ b
  | .shl => a <<< (b &&& 0x1F)
  | .shr => a >>> (b &&& 0x1F)
  | _ => 0

/-- What `execute` leaves: the core and the memory, its status, whether a branch is taken, and the
address of the four bytes it has touched, if any. -/
structure Executed where
  core : CoreState
  mem : Nat → Byte
  ret : Int
  taken : Bool
  access : Option Word

/-- A branch to `target`. -/
def Executed.jump (core : CoreState) (mem : Nat → Byte) (target : Word) : Executed :=
  ⟨{ core with pc := target, branchesTaken := core.branchesTaken + 1 }, mem, 0, true, none⟩

/-- An instruction is counted, and a branch other than `RET` once more. -/
def CoreState.count (core : CoreState) (op : BradOp) : CoreState :=
  { core with
    insnRetired := core.insnRetired + 1
    branches := if op.isBranch ∧ op ≠ .ret then core.branches + 1 else core.branches }

def execute (core : CoreState) (d : BradInsn) (mem : Nat → Byte) (memSize : Nat) (insnPc : Word) :
    Executed :=
  let core := core.count d.opcode
  match d.opcode with
  | .add | .sub | .mul | .and | .or | .xor | .shl | .shr =>
      let a := core.regVal d.rs1
      let b := core.regVal d.rs2
      if d.opcode = .mul ∧ core.model = .falconLite then
        ⟨{ core with regs := Function.update core.regs d.rd 0 }, mem, 0, false, none⟩
      else ⟨core.setReg d.rd (aluExec d.opcode a b), mem, 0, false, none⟩
  | .addi => ⟨core.setReg d.rd (core.regVal d.rs1 + d.imm), mem, 0, false, none⟩
  | .ldw =>
      let addr := core.regVal d.rs1 + d.imm
      if memSize < (addr + 4).toNat then ⟨core, mem, -efault, false, none⟩
      else ⟨core.setReg d.rd (wordAt mem addr.toNat), mem, 0, false, some addr⟩
  | .stw =>
      let addr := core.regVal d.rs1 + d.imm
      if memSize < (addr + 4).toNat then ⟨core, mem, -efault, false, none⟩
      else
        let val := core.regVal d.rs2
        ⟨core, writeBytes mem addr.toNat (toLE 4 val.toNat), 0, false, some addr⟩
  | .bz =>
      if core.regVal d.rs1 = 0 then .jump core mem (insnPc + 4 + d.imm)
      else ⟨core, mem, 0, false, none⟩
  | .bnz =>
      if core.regVal d.rs1 ≠ 0 then .jump core mem (insnPc + 4 + d.imm)
      else ⟨core, mem, 0, false, none⟩
  | .jmp => .jump core mem (insnPc + 4 + d.imm)
  | .call =>
      .jump { core with regs := Function.update core.regs bradRegLr (insnPc + 4) } mem
        (insnPc + 4 + d.imm)
  | .ret => .jump core mem (core.regVal d.rs1)

/-! ### Fetch -/

/-- Both flags of the compressed mode. -/
def CoreState.compressed (core : CoreState) : Bool :=
  core.msrStatus &&& bradStatusC ≠ 0 || core.compressMode

/-- What `fetch` leaves: the instruction, none on a fault, the core, and the address of the four
bytes it has read, if any. -/
structure Fetched where
  insn : Option BradInsn
  core : CoreState
  access : Option Word

/-- The instruction that the emulator takes a halfword for. -/
def expandCinsn (cd : BradCinsn) : BradInsn :=
  let imm4 := cd.raw &&& 0xF
  let off8 := (cd.raw.setWidth 8).signExtend 16
  { bradIsaDecode 0 with
    opcode := cd.cop.toOp
    rd := cd.rd
    rs1 := cd.rs1
    rs2 := cd.rs2
    immediate :=
      match cd.cop with
      | .addi | .ldw | .stw => imm4 <<< 2
      | .bz | .bnz | .jmp | .call => off8 * 4
      | .mv => cd.raw &&& 0xFF
      | _ => 0 }

def fetch (core : CoreState) (mem : Nat → Byte) (memSize : Nat) : Fetched :=
  if core.compressed then
    if memSize < (core.pc + 4).toNat then ⟨none, core, none⟩
    else
      let lo := (wordAt mem core.pc.toNat).setWidth 16
      ⟨some (expandCinsn (bradIsaCdecode lo)), { core with pc := (core.pc &&& ~~~3) + 4 },
        some core.pc⟩
  else if memSize < (core.pc + 4).toNat then ⟨none, core, none⟩
  else
    ⟨some (bradIsaDecode (wordAt mem core.pc.toNat)), { core with pc := core.pc + 4 },
      some core.pc⟩

/-! ### Pipelines -/

/-- A core and the memory it runs in. -/
structure Emu where
  core : CoreState
  mem : Nat → Byte

/-- `advance_pipeline`. -/
def advancePipeline (p : Pipeline) : Pipeline :=
  { p with
    stages := fun s =>
      if s = 0 then .empty else if s < p.depth then p.stages (s - 1) else p.stages s }

/-- `pipeline_flush`: the address in the execution stage stays. -/
def pipelineFlush (p : Pipeline) : Pipeline :=
  { p with
    stages := fun s =>
      if s = p.execStage then { Stage.empty with pc := (p.stages s).pc }
      else if s < p.depth then .empty
      else p.stages s }

/-- The execution stage after its instruction has been freed. -/
def Pipeline.retire (p : Pipeline) : Pipeline :=
  { p with
    stages :=
      Function.update p.stages p.execStage { Stage.empty with pc := (p.stages p.execStage).pc } }

/-- `update_energy`. -/
def updateEnergy (core : CoreState) : CoreState :=
  { core with
    msrEnergy :=
      core.msrEnergy + core.msrVoltage.setWidth 64 * core.msrFreq.setWidth 64 / 1000000 }

/-- No stage holds an instruction. -/
def Pipeline.isEmpty (p : Pipeline) : Bool := (List.range p.depth).all fun s => !(p.stages s).valid

/-- The instruction in the execution stage, with its address. -/
def Pipeline.executing (p : Pipeline) : Option (Word × BradInsn) :=
  let stage := p.stages p.execStage
  if stage.valid then stage.insn.map fun d => (stage.pc, d) else none

/-- The end of a step: the fetch into the first stage, the counters, and the stop of a drained
core. -/
def fetchStage (s : Emu) (memSize : Nat) : Emu :=
  let core := s.core
  let core :=
    if (core.pipeline.stages 0).insn = none ∧ core.running ∧ ¬ core.pipeline.drain then
      let f := fetch core s.mem memSize
      match f.insn with
      | some d =>
          { f.core with
            pipeline :=
              { f.core.pipeline with
                stages := Function.update f.core.pipeline.stages 0 ⟨some d, f.core.pc - 4, true⟩ } }
      | none => { core with pipeline := { core.pipeline with drain := true } }
    else core
  let core := updateEnergy { core with cycles := core.cycles + 1 }
  let core :=
    if core.pipeline.drain ∧ core.pipeline.isEmpty then { core with running := false } else core
  { s with core }

/-- The step the pipelines share. `retires` says whether the executed instruction leaves its stage
at once, `flushes` when a branch empties the pipeline. -/
def runPipeline (retires : Bool) (flushes : Executed → Bool) (s : Emu) (memSize : Nat) : Emu :=
  let core := { s.core with pipeline := advancePipeline s.core.pipeline }
  match core.pipeline.executing with
  | none => fetchStage { s with core } memSize
  | some (insnPc, d) =>
      let e := execute core d s.mem memSize insnPc
      let core :=
        if retires then { e.core with pipeline := e.core.pipeline.retire } else e.core
      if flushes e then
        { core :=
            { core with
              controlHazards := core.controlHazards + 1
              pipeline := { pipelineFlush core.pipeline with drain := false } }
          mem := e.mem }
      else fetchStage { core, mem := e.mem } memSize

def runPhoenixPipeline : Emu → Nat → Emu := runPipeline false fun e => e.ret = 0 && e.taken
def runFalconPipeline : Emu → Nat → Emu := runPipeline true fun e => e.taken
def runKestrelPipeline : Emu → Nat → Emu := runPipeline false fun e => e.taken
def runFalconLitePipeline : Emu → Nat → Emu := runPipeline true fun e => e.taken

/-- `brad_core_emu_step` for a core of the chip. -/
def coreEmuStep (s : Emu) (memSize : Nat) : Emu :=
  if ¬ s.core.running then s
  else
    match s.core.model with
    | .phoenix => runPhoenixPipeline s memSize
    | .falcon => runFalconPipeline s memSize
    | .kestrel => runKestrelPipeline s memSize
    | .falconLite => runFalconLitePipeline s memSize

/-- One round of the loop of `brad_core_emu_run`, which goes on or is left. -/
def coreEmuRunStep (memSize : Nat) (start maxCycles : BitVec 64) (s : Emu) : Except Emu Emu :=
  if ¬ s.core.running then .error s
  else
    let s := coreEmuStep s memSize
    if maxCycles ≤ s.core.cycles - start then .error s else .ok s

/-- `brad_core_emu_run`, with the number of rounds that it takes at most. -/
def coreEmuRun (s : Emu) (memSize : Nat) (maxCycles : BitVec 64) : Emu :=
  Machine.resultWithin (coreEmuRunStep memSize s.core.cycles maxCycles)
    (2 * maxCycles.toNat + 3) s s

/-! ### The chip -/

/-- `struct brad_soc_emu`; the count of every model is that of each cluster. `brad_soc_emu_init_ex`
accepts no more cores than the array has room for. -/
structure SocEmu where
  cores : Nat → Nat → CoreState
  memory : Nat → Byte
  memSize : Nat
  numClusters : Word
  phoenixPerCluster : Word
  falconPerCluster : Word
  kestrelPerCluster : Word
  falconLitePerCluster : Word
  totalCycles : BitVec 64
  clusters_le : numClusters ≤ 4
  cores_le : phoenixPerCluster + falconPerCluster + kestrelPerCluster + falconLitePerCluster ≤ 16

/-- The number of cores of a cluster. -/
def SocEmu.total (soc : SocEmu) : Word :=
  soc.phoenixPerCluster + soc.falconPerCluster + soc.kestrelPerCluster + soc.falconLitePerCluster

/-- `brad_core_emu_step` for a core that the chip has. -/
def SocEmu.step (soc : SocEmu) (cluster coreIdx : Nat) : SocEmu :=
  let s := coreEmuStep ⟨soc.cores cluster coreIdx, soc.memory⟩ soc.memSize
  { soc with
    cores := Function.update soc.cores cluster (Function.update (soc.cores cluster) coreIdx s.core)
    memory := s.mem }

/-- One iteration of the inner loop of `brad_core_emu_run_all`, with the flag `any_running`. -/
def runAllCore (cluster coreIdx : Nat) (p : Bool × SocEmu) : Bool × SocEmu :=
  if (p.2.cores cluster coreIdx).running then (true, p.2.step cluster coreIdx) else p

/-- One iteration of the outer loop. -/
def runAllRound (soc : SocEmu) : Bool × SocEmu :=
  let p := (List.range soc.numClusters.toNat).foldl
    (fun p c => (List.range soc.total.toNat).foldl (fun p i => runAllCore c i p) p) (false, soc)
  (p.1, { p.2 with totalCycles := p.2.totalCycles + 1 })

def runAllStep (start maxCycles : BitVec 64) (p : Bool × SocEmu) : Except SocEmu (Bool × SocEmu) :=
  if p.1 ∧ p.2.totalCycles - start < maxCycles then .ok (runAllRound p.2) else .error p.2

/-- `brad_core_emu_run_all`, with the number of rounds that it takes at most. -/
def coreEmuRunAll (soc : SocEmu) (maxCycles : BitVec 64) : SocEmu :=
  Machine.resultWithin (runAllStep soc.totalCycles maxCycles) (maxCycles.toNat + 1) (true, soc) soc

/-! ### Disassembly -/

/-- `r%u`. -/
def regText (r : BitVec 4) : List Byte := ch 'r' :: decimalDigits r.toNat

/-- The text `brad_core_emu_disasm` prints. Every opcode of four bits has a format, so that the one
for unknown words is never used. -/
def disasmText (d : BradInsn) : List Byte :=
  let op := cstr d.opcode.name
  match d.opcode with
  | .add | .sub | .mul | .and | .or | .xor | .shl | .shr =>
      op ++ cstr " " ++ regText d.rd ++ cstr ", " ++ regText d.rs1 ++ cstr ", " ++ regText d.rs2
  | .addi =>
      op ++ cstr " " ++ regText d.rd ++ cstr ", " ++ regText d.rs1 ++ cstr ", " ++
        decimal d.immediate.toInt
  | .ldw =>
      op ++ cstr " " ++ regText d.rd ++ cstr ", [" ++ regText d.rs1 ++ cstr " + " ++
        decimal d.immediate.toInt ++ cstr "]"
  | .stw =>
      op ++ cstr " " ++ regText d.rs2 ++ cstr ", [" ++ regText d.rs1 ++ cstr " + " ++
        decimal d.immediate.toInt ++ cstr "]"
  | .bz | .bnz => op ++ cstr " " ++ regText d.rs1 ++ cstr ", " ++ decimal d.immediate.toInt
  | .jmp | .call => op ++ cstr " " ++ decimal d.immediate.toInt
  | .ret => op

/-- `brad_core_emu_disasm` into a buffer of `bufSize` bytes: the string in it, or the error. -/
def coreEmuDisasm (insn : Word) (bufSize : Nat) : Except Int (List Byte) :=
  if bufSize < 32 then .error (-einval)
  else .ok ((disasmText (bradIsaDecode insn)).take (bufSize - 1))

end BradVector.CoreEmu
