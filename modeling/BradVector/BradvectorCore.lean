import BradVector.Isa

/-!
# The vector core

`bradvector_core.v`: the pipeline as far as it decides what the scoreboard holds. Program counters,
operands and results are left out; the packets that the fetch gets are inputs. The only assignment
to `warp_active` is that of the reset, and it is no port, so that no clock edge changes it.
-/

namespace BradVector.Rtl

open CSem

def numWarps : Nat := 4

def opGather : BitVec 6 := 0x30
def opLoad : BitVec 6 := 0x32

/-- The states of the fetch. -/
inductive FetchState where
  | idle
  | wait
  | ready
  deriving DecidableEq, Repr

/-- The two register files. -/
inductive RegClass where
  | vector
  | scalar
  deriving DecidableEq, Repr

/-- The registers of the core that lead to the scoreboard, which is `sb_vec_rdy` and
`sb_scalar_rdy`. -/
structure BradvectorCore where
  warpActive : BitVec 4 → BitVec 5
  fetchState : FetchState
  fetchWarpPtr : BitVec 4
  fetchSlotCnt : BitVec 2
  fValid : Bool
  fInsnPacket : BitVec 128
  fWarpId : BitVec 5
  fSlot : BitVec 2
  fCurWarp : BitVec 4
  dValid : Bool
  dOpcode : BitVec 6
  dDstReg : BitVec 5
  dSrc1Reg : BitVec 5
  dSrc2Reg : BitVec 5
  dIsVector : Bool
  dIsScalar : Bool
  dWarpId : BitVec 5
  dPredicateOn : Bool
  dPredReg : BitVec 5
  iValid : Bool
  iOpcode : BitVec 6
  iDstReg : BitVec 5
  iSrc1Reg : BitVec 5
  iIsVector : Bool
  iIsScalar : Bool
  iWarpId : BitVec 5
  iPredOk : Bool
  iStall : Bool
  rValid : Bool
  rDstReg : BitVec 5
  rIsVector : Bool
  rIsScalar : Bool
  rWarpId : BitVec 5
  rPredOk : Bool
  eValid : Bool
  eDstReg : BitVec 5
  eIsVector : Bool
  eIsScalar : Bool
  eWarpId : BitVec 5
  wValid : Bool
  wDstReg : BitVec 5
  wIsVector : Bool
  wIsScalar : Bool
  wWarpId : BitVec 5
  sbRdy : RegClass → BitVec 5 → BitVec 5 → BitVec 16

/-- What the core meets in a cycle. The last slot's fields reach past the packet, where a read shows
anything. Two processes write the scoreboard; when they write the same entry, one of them writes
last. -/
structure Cycle where
  enable : Bool
  ifetchData : BitVec 128
  ifetchValid : Bool
  beyond : BitVec 8
  scalarRf : BitVec 5 → BitVec 5 → Word
  markLast : Bool

namespace BradvectorCore

/-- The values the reset leaves. -/
def reset : BradvectorCore where
  warpActive := fun _ => 0
  fetchState := .idle
  fetchWarpPtr := 0
  fetchSlotCnt := 0
  fValid := false
  fInsnPacket := 0
  fWarpId := 0
  fSlot := 0
  fCurWarp := 0
  dValid := false
  dOpcode := 0
  dDstReg := 0
  dSrc1Reg := 0
  dSrc2Reg := 0
  dIsVector := false
  dIsScalar := false
  dWarpId := 0
  dPredicateOn := false
  dPredReg := 0
  iValid := false
  iOpcode := 0
  iDstReg := 0
  iSrc1Reg := 0
  iIsVector := false
  iIsScalar := false
  iWarpId := 0
  iPredOk := true
  iStall := false
  rValid := false
  rDstReg := 0
  rIsVector := false
  rIsScalar := false
  rWarpId := 0
  rPredOk := true
  eValid := false
  eDstReg := 0
  eIsVector := false
  eIsScalar := false
  eWarpId := 0
  wValid := false
  wDstReg := 0
  wIsVector := false
  wIsScalar := false
  wWarpId := 0
  sbRdy := fun _ _ _ => 0

variable (s t : BradvectorCore) (inp : Cycle)

def clockFetch : BradvectorCore :=
  if ¬ inp.enable then { t with fetchState := .idle, fValid := false }
  else
    let t := { t with fValid := false }
    match s.fetchState with
    | .idle =>
        { t with
          fetchWarpPtr := (s.fetchWarpPtr + 1) &&& 3
          fCurWarp := s.fetchWarpPtr
          fetchState := if s.warpActive s.fetchWarpPtr ≠ 0 then .wait else s.fetchState }
    | .wait =>
        if inp.ifetchValid then
          { t with
            fInsnPacket := inp.ifetchData
            fWarpId := s.fCurWarp.setWidth 5
            fSlot := 0
            fetchSlotCnt := 0
            fetchState := .ready }
        else t
    | .ready =>
        let t :=
          { t with
            fValid := true
            fWarpId := s.fCurWarp.setWidth 5
            fSlot := s.fetchSlotCnt
            fInsnPacket := inp.ifetchData }
        if s.fetchSlotCnt = 3 ∨ ¬ inp.ifetchValid then { t with fetchState := .idle }
        else { t with fetchSlotCnt := s.fetchSlotCnt + 1 }

/-- A field of the instruction in the slot, `{f_slot, 5'd5} + offset +: width`. -/
def rawField (offset width : Nat) : BitVec width :=
  (inp.beyond ++ s.fInsnPacket).extractLsb' (32 * s.fSlot.toNat + 5 + offset) width

def rawOp : BitVec 6 := s.rawField inp 0 6

def clockDecode : BradvectorCore :=
  let rawOp := s.rawOp inp
  { t with
    dValid := s.fValid
    dOpcode := rawOp
    dDstReg := s.rawField inp 6 5
    dSrc1Reg := s.rawField inp 11 5
    dSrc2Reg := s.rawField inp 16 5
    dPredicateOn := s.rawField inp 31 1 == 1
    dPredReg := s.rawField inp 26 5
    dWarpId := s.fWarpId
    dIsVector := rawOp.extractLsb' 4 2 == 0
    dIsScalar := rawOp.extractLsb' 4 2 == 1 && rawOp.extractLsb' 2 2 != 3 }

def sbVecRdy (warp reg : BitVec 5) : BitVec 16 := s.sbRdy .vector warp reg
def sbScalarRdy (warp reg : BitVec 5) : BitVec 16 := s.sbRdy .scalar warp reg

def clockIssue : BradvectorCore :=
  let t :=
    if s.dValid && !s.iStall then
      { t with
        iStall :=
          s.dIsVector && s.sbVecRdy s.dWarpId s.dSrc1Reg != 0 ||
            s.dIsScalar && s.sbScalarRdy s.dWarpId s.dSrc1Reg != 0 ||
            s.dIsScalar && s.dSrc2Reg != 0 && s.sbScalarRdy s.dWarpId s.dSrc2Reg != 0 }
    else if s.iStall then
      { t with
        iStall :=
          s.iIsVector && s.sbVecRdy s.iWarpId s.iSrc1Reg != 0 ||
            s.iIsScalar && s.sbScalarRdy s.iWarpId s.iSrc1Reg != 0 }
    else t
  if s.iStall then { t with iValid := false }
  else if s.dValid then
    { t with
      iValid := true
      iOpcode := s.dOpcode
      iDstReg := s.dDstReg
      iSrc1Reg := s.dSrc1Reg
      iIsVector := s.dIsVector
      iIsScalar := s.dIsScalar
      iWarpId := s.dWarpId
      iPredOk := !s.dPredicateOn || inp.scalarRf s.dWarpId s.dPredReg != 0 }
  else { t with iValid := false }

def clockRead : BradvectorCore :=
  if s.iValid && s.iPredOk then
    { t with
      rValid := true
      rDstReg := s.iDstReg
      rIsVector := s.iIsVector
      rIsScalar := s.iIsScalar
      rWarpId := s.iWarpId
      rPredOk := s.iPredOk }
  else { t with rValid := false }

def clockExecute : BradvectorCore :=
  { t with
    eValid := s.rValid && s.rPredOk
    eDstReg := s.rDstReg
    eWarpId := s.rWarpId
    eIsVector := s.rIsVector
    eIsScalar := s.rIsScalar }

def clockWriteback : BradvectorCore :=
  { t with
    wValid := s.eValid
    wDstReg := s.eDstReg
    wIsVector := s.eIsVector
    wIsScalar := s.eIsScalar
    wWarpId := s.eWarpId }

def iIs : RegClass → Bool
  | .vector => s.iIsVector
  | .scalar => s.iIsScalar

def wIs : RegClass → Bool
  | .vector => s.wIsVector
  | .scalar => s.wIsScalar

/-- The register read sets the entry to all ones. -/
def marked (c : RegClass) (warp reg : BitVec 5) : Bool :=
  s.iValid && s.iPredOk && s.iIs c && s.iDstReg != 0 && s.iWarpId == warp && s.iDstReg == reg

/-- The writeback shifts the entry. -/
def released (c : RegClass) (warp reg : BitVec 5) : Bool :=
  s.wValid && s.wIs c && s.wDstReg != 0 && s.wWarpId == warp && s.wDstReg == reg

def clockScoreboard : BradvectorCore :=
  { t with
    sbRdy := fun c warp reg =>
      if s.marked c warp reg && (!s.released c warp reg || inp.markLast) then BitVec.allOnes 16
      else if s.released c warp reg then s.sbRdy c warp reg >>> 1
      else s.sbRdy c warp reg }

/-- A clock edge. Each process reads the registers as they were before it. -/
def clock : BradvectorCore :=
  let t := s.clockScoreboard (s.clockWriteback (s.clockExecute (s.clockRead s))) inp
  s.clockFetch (s.clockDecode (s.clockIssue t inp) inp) inp

end BradvectorCore

end BradVector.Rtl
