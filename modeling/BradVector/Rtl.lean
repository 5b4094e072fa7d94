import BradVector.Bradisa
import BradVector.Library.Bytes

/-!
# The Verilog cores

`bradisa_defines.v`, `falcon_lite_core.v`, `brad_regfile.v` and `brad_core.v`: what a clock edge
makes of the registers of a core, and what its ports show in a cycle. Both memories answer in the
same cycle; a write to the data memory takes place at the edge.
-/

namespace BradVector.Rtl

open CSem

/-! ### `bradisa_defines.v` -/

def bradOpAdd : BitVec 4 := 0x0
def bradOpSub : BitVec 4 := 0x1
def bradOpMul : BitVec 4 := 0x2
def bradOpAnd : BitVec 4 := 0x3
def bradOpOr : BitVec 4 := 0x4
def bradOpXor : BitVec 4 := 0x5
def bradOpShl : BitVec 4 := 0x6
def bradOpShr : BitVec 4 := 0x7
def bradOpAddi : BitVec 4 := 0x8
def bradOpLdw : BitVec 4 := 0x9
def bradOpStw : BitVec 4 := 0xA
def bradOpBz : BitVec 4 := 0xB
def bradOpBnz : BitVec 4 := 0xC
def bradOpJmp : BitVec 4 := 0xD
def bradOpCall : BitVec 4 := 0xE
def bradOpRet : BitVec 4 := 0xF

def bradR0 : BitVec 4 := 0
def bradLr : BitVec 4 := 14

/-! ### Writes -/

/-- A write that takes place at the end of a cycle. -/
inductive Write where
  | reg (r : BitVec 4) (v : Word)
  | mem (addr v : Word)
  deriving DecidableEq, Repr

/-- A core with its data memory. -/
structure System (core : Type) where
  core : core
  dmem : Nat → Byte

/-! ### `falcon_lite_core.v` -/

def falconNumRegs : BitVec 4 := 8

/-- The registers of the core, but for `mul_exception`, which nothing reads. -/
structure FalconLite where
  regs : BitVec 4 → Word
  pc : Word
  fValid : Bool
  fPc : Word
  fInsn : Word
  dValid : Bool
  dPc : Word
  dOpcode : BitVec 4
  dRd : BitVec 4
  dRs1 : BitVec 4
  dRs2 : BitVec 4
  dRs1Val : Word
  dRs2Val : Word
  dImm : Word
  dRegWe : Bool
  dMemReq : Bool
  dMemWe : Bool
  eValid : Bool
  eRd : BitVec 4
  eResult : Word
  eAddr : Word
  eRegWe : Bool
  eMemReq : Bool
  eMemWe : Bool
  eStoreData : Word

namespace FalconLite

/-- The values the reset leaves. -/
def reset : FalconLite where
  regs := fun _ => 0
  pc := 0
  fValid := false
  fPc := 0
  fInsn := 0
  dValid := false
  dPc := 0
  dOpcode := 0
  dRd := 0
  dRs1 := 0
  dRs2 := 0
  dRs1Val := 0
  dRs2Val := 0
  dImm := 0
  dRegWe := false
  dMemReq := false
  dMemWe := false
  eValid := false
  eRd := 0
  eResult := 0
  eAddr := 0
  eRegWe := false
  eMemReq := false
  eMemWe := false
  eStoreData := 0

/-- A read port of the embedded registers. -/
def rfRdata (s : FalconLite) (r : BitVec 4) : Word :=
  if falconNumRegs ≤ r then 0 else if r = 0 then 0 else s.regs r

def aluResult (s : FalconLite) : Word :=
  let aluA := s.dRs1Val
  let aluB := if s.dOpcode = bradOpAddi then s.dImm else s.dRs2Val
  if s.dOpcode = bradOpAdd then aluA + aluB
  else if s.dOpcode = bradOpSub then aluA - aluB
  else if s.dOpcode = bradOpMul then 0
  else if s.dOpcode = bradOpAnd then aluA &&& aluB
  else if s.dOpcode = bradOpOr then aluA ||| aluB
  else if s.dOpcode = bradOpXor then aluA ^^^ aluB
  else if s.dOpcode = bradOpShl then aluA <<< aluB.extractLsb' 0 5
  else if s.dOpcode = bradOpShr then aluA >>> aluB.extractLsb' 0 5
  else if s.dOpcode = bradOpAddi then aluA + s.dImm
  else 0

def retTaken (s : FalconLite) : Bool := s.dValid && s.dOpcode == bradOpRet

def branchTaken (s : FalconLite) : Bool :=
  s.dValid && s.dOpcode == bradOpBz && s.dRs1Val == 0 ||
    s.dValid && s.dOpcode == bradOpBnz && s.dRs1Val != 0 ||
    s.dValid && s.dOpcode == bradOpJmp || s.dValid && s.dOpcode == bradOpCall || s.retTaken

def nextPc (s : FalconLite) : Word := if s.retTaken then s.dRs1Val else s.dPc + 4 + s.dImm

/-- The condition of the write to the registers, and what is written. -/
def rfWe (s : FalconLite) : Bool :=
  s.eValid && s.eRegWe && s.eRd != 0 && decide (s.eRd < falconNumRegs)

def rfWdata (s : FalconLite) (dmemRdata : Word) : Word :=
  if s.eMemReq && !s.eMemWe then dmemRdata else s.eResult

/-- The `always` blocks: what the edge makes of the registers of a stage in `t`, from their values
in `s` before it. -/
def clockFetch (s : FalconLite) (imemRdata : Word) (t : FalconLite) : FalconLite :=
  if s.branchTaken then { t with fValid := false, pc := s.nextPc }
  else { t with fValid := true, fPc := s.pc, fInsn := imemRdata, pc := s.pc + 4 }

def clockDecode (s t : FalconLite) : FalconLite :=
  let rawOp := s.fInsn.extractLsb' 28 4
  let rawRd := s.fInsn.extractLsb' 24 4
  let rawRs1 := s.fInsn.extractLsb' 20 4
  let rawRs2 := s.fInsn.extractLsb' 16 4
  if s.branchTaken then { t with dValid := false }
  else
    { t with
      dValid := s.fValid
      dPc := s.fPc
      dOpcode := rawOp
      dRd := rawRd
      dRs1 := rawRs1
      dRs2 := rawRs2
      dRs1Val := s.rfRdata rawRs1
      dRs2Val := s.rfRdata rawRs2
      dImm := (s.fInsn.extractLsb' 0 16).signExtend 32
      dRegWe := decide (rawOp ≤ bradOpAddi) && rawOp != bradOpMul || rawOp == bradOpLdw
      dMemReq := rawOp == bradOpLdw || rawOp == bradOpStw
      dMemWe := rawOp == bradOpStw }

def clockExecute (s t : FalconLite) : FalconLite :=
  let t :=
    { t with
      eValid := s.dValid && !s.branchTaken
      eRd := s.dRd
      eRegWe := s.dRegWe
      eResult := if s.dOpcode ≠ bradOpMul ∧ s.dOpcode ≤ bradOpAddi then s.aluResult else 0
      eAddr := s.dRs1Val + s.dImm
      eStoreData := s.dRs2Val
      eMemReq := s.dMemReq
      eMemWe := s.dMemWe }
  if s.dOpcode = bradOpCall then { t with eResult := s.dPc + 4, eRd := bradLr, eRegWe := true }
    else t

def clockRegs (s : FalconLite) (dmemRdata : Word) (t : FalconLite) : FalconLite :=
  if s.rfWe then { t with regs := Function.update s.regs s.eRd (s.rfWdata dmemRdata) } else t

/-- A clock edge, with what the memories answer to the addresses `pc` and `e_addr`. -/
def clock (s : FalconLite) (imemRdata dmemRdata : Word) : FalconLite :=
  clockRegs s dmemRdata (clockExecute s (clockDecode s (clockFetch s imemRdata s)))

/-- A cycle with single-cycle memories. -/
def cycle (imem : Word → Word) (s : System FalconLite) : System FalconLite where
  core := s.core.clock (imem s.core.pc) (wordAt s.dmem s.core.eAddr.toNat)
  dmem :=
    if s.core.eMemReq && s.core.eMemWe then
      writeBytes s.dmem s.core.eAddr.toNat (toLE 4 s.core.eStoreData.toNat)
    else s.dmem

/-- The writes of a cycle. -/
def writes (s : System FalconLite) : List Write :=
  (if s.core.rfWe then [.reg s.core.eRd (s.core.rfWdata (wordAt s.dmem s.core.eAddr.toNat))]
    else []) ++
    if s.core.eMemReq && s.core.eMemWe then [.mem s.core.eAddr s.core.eStoreData] else []

end FalconLite

/-! ### `brad_regfile.v` -/

/-- A read port. -/
def regfileRdata (regs : BitVec 4 → Word) (raddr : BitVec 4) : Word :=
  if raddr = bradR0 then 0 else regs raddr

/-- The write port at a clock edge. -/
def regfileClock (regs : BitVec 4 → Word) (we : Bool) (waddr : BitVec 4) (wdata : Word) :
    BitVec 4 → Word :=
  if we && waddr != bradR0 then Function.update regs waddr wdata else regs

/-! ### `brad_core.v` -/

/-- The registers of the core and of its register file. -/
structure BradCore where
  regs : BitVec 4 → Word
  pc : Word
  fValid : Bool
  fPc : Word
  fInsn : Word
  dValid : Bool
  dPc : Word
  dOpcode : BitVec 4
  dRd : BitVec 4
  dRs1 : BitVec 4
  dRs2 : BitVec 4
  dRs1Val : Word
  dRs2Val : Word
  dImm : Word
  dRegWe : Bool
  eValid : Bool
  eRd : BitVec 4
  eResult : Word
  eAddr : Word
  eRegWe : Bool
  eMemReq : Bool
  eMemWe : Bool
  eStoreData : Word

namespace BradCore

/-- The values the reset leaves. -/
def reset : BradCore where
  regs := fun _ => 0
  pc := 0
  fValid := false
  fPc := 0
  fInsn := 0
  dValid := false
  dPc := 0
  dOpcode := 0
  dRd := 0
  dRs1 := 0
  dRs2 := 0
  dRs1Val := 0
  dRs2Val := 0
  dImm := 0
  dRegWe := false
  eValid := false
  eRd := 0
  eResult := 0
  eAddr := 0
  eRegWe := false
  eMemReq := false
  eMemWe := false
  eStoreData := 0

/-- The addresses of the read ports, and what they read. -/
def rfRaddr1 (s : BradCore) : BitVec 4 := s.dRs1
def rfRaddr2 (s : BradCore) : BitVec 4 := if s.dOpcode = bradOpStw then s.dRs2 else 0
def rfRdata1 (s : BradCore) : Word := regfileRdata s.regs s.rfRaddr1
def rfRdata2 (s : BradCore) : Word := regfileRdata s.regs s.rfRaddr2

def rawHazard (s : BradCore) : Bool :=
  s.dValid && s.eValid && s.eRegWe && s.eRd != bradR0 &&
    (s.dRs1 == s.eRd || s.dOpcode == bradOpStw && s.dRs2 == s.eRd)

def stall (s : BradCore) : Bool := s.rawHazard

def aluResult (s : BradCore) : Word :=
  let aluA := s.dRs1Val
  let aluB := s.dRs2Val
  if s.dOpcode = bradOpAdd then aluA + aluB
  else if s.dOpcode = bradOpSub then aluA - aluB
  else if s.dOpcode = bradOpMul then aluA * aluB
  else if s.dOpcode = bradOpAnd then aluA &&& aluB
  else if s.dOpcode = bradOpOr then aluA ||| aluB
  else if s.dOpcode = bradOpXor then aluA ^^^ aluB
  else if s.dOpcode = bradOpShl then aluA <<< aluB.extractLsb' 0 5
  else if s.dOpcode = bradOpShr then aluA >>> aluB.extractLsb' 0 5
  else 0

def retTaken (s : BradCore) : Bool := s.dOpcode == bradOpRet

def branchTaken (s : BradCore) : Bool :=
  s.dValid &&
    (s.dOpcode == bradOpBz && s.dRs1Val == 0 || s.dOpcode == bradOpBnz && s.dRs1Val != 0 ||
      s.dOpcode == bradOpJmp || s.dOpcode == bradOpCall || s.retTaken)

def nextPc (s : BradCore) : Word := if s.retTaken then s.dRs1Val else s.dPc + 4 + s.dImm

def rfWe (s : BradCore) : Bool := s.eValid && s.eRegWe && s.eRd != bradR0

def rfWdata (s : BradCore) (dmemRdata : Word) : Word :=
  if s.eMemReq && !s.eMemWe then dmemRdata else s.eResult

def clockFetch (s : BradCore) (imemRdata : Word) (t : BradCore) : BradCore :=
  if s.branchTaken then { t with fValid := false, pc := s.nextPc }
  else if ¬ s.stall then { t with fValid := true, fPc := s.pc, fInsn := imemRdata, pc := s.pc + 4 }
  else t

def clockDecode (s t : BradCore) : BradCore :=
  let rawOp := s.fInsn.extractLsb' 28 4
  if s.branchTaken then { t with dValid := false }
  else if ¬ s.stall then
    { t with
      dValid := s.fValid
      dPc := s.fPc
      dOpcode := rawOp
      dRd := s.fInsn.extractLsb' 24 4
      dRs1 := s.fInsn.extractLsb' 20 4
      dRs2 := s.fInsn.extractLsb' 16 4
      dRs1Val := s.rfRdata1
      dRs2Val := s.rfRdata2
      dImm := (s.fInsn.extractLsb' 0 16).signExtend 32
      dRegWe := decide (rawOp ≤ bradOpAddi) || rawOp == bradOpLdw }
  else t

def clockExecute (s t : BradCore) : BradCore :=
  if ¬ s.stall then
    let t :=
      { t with
        eValid := s.dValid && !s.branchTaken
        eRd := s.dRd
        eRegWe := s.dRegWe
        eResult :=
          if s.dOpcode ≤ bradOpShr then s.aluResult
          else if s.dOpcode = bradOpAddi then s.dRs1Val + s.dImm
          else 0
        eAddr := s.dRs1Val + s.dImm
        eStoreData := s.dRs2Val
        eMemReq := s.dOpcode == bradOpLdw || s.dOpcode == bradOpStw
        eMemWe := s.dOpcode == bradOpStw }
    if s.dOpcode = bradOpCall then { t with eResult := s.dPc + 4, eRd := bradLr, eRegWe := true }
      else t
  else t

/-- A clock edge, with what the memories answer to the addresses `pc` and `e_addr`. -/
def clock (s : BradCore) (imemRdata dmemRdata : Word) : BradCore :=
  let t := clockExecute s (clockDecode s (clockFetch s imemRdata s))
  { t with regs := regfileClock s.regs s.rfWe s.eRd (s.rfWdata dmemRdata) }

/-- A cycle with single-cycle memories. -/
def cycle (imem : Word → Word) (s : System BradCore) : System BradCore where
  core := s.core.clock (imem s.core.pc) (wordAt s.dmem s.core.eAddr.toNat)
  dmem :=
    if s.core.eMemReq && s.core.eMemWe then
      writeBytes s.dmem s.core.eAddr.toNat (toLE 4 s.core.eStoreData.toNat)
    else s.dmem

/-- The writes of a cycle. -/
def writes (s : System BradCore) : List Write :=
  (if s.core.rfWe then [.reg s.core.eRd (s.core.rfWdata (wordAt s.dmem s.core.eAddr.toNat))]
    else []) ++
    if s.core.eMemReq && s.core.eMemWe then [.mem s.core.eAddr s.core.eStoreData] else []

end BradCore

end BradVector.Rtl
