import BradVector.Bradisa
import Mathlib.Logic.Function.Basic

/-!
# The branch predictor

`brad_bp.v`: a direct-mapped table of branch targets beside a table of two-bit counters, which are
found by the address of the branch and the outcomes of the last branches.
-/

namespace BradVector.Bp

/-- The parameters of `brad_bp`, with `$clog2(BTB_SIZE)` for `BTB_SIZE`. The bounds are those of its
part selects. -/
structure BpParams where
  bpType : Nat
  btbIndexBits : Nat
  ghistBits : Nat
  index_pos : 1 ≤ btbIndexBits
  index_lt : btbIndexBits < 30
  ghist_ge : 8 ≤ ghistBits

/-- `BTB_TAG_BITS`. -/
def BpParams.btbTagBits (c : BpParams) : Nat := 32 - c.btbIndexBits - 2

/-- The registers of the predictor. -/
structure BradBp (c : BpParams) where
  btbTagArr : BitVec c.btbIndexBits → BitVec c.btbTagBits
  btbTarget : BitVec c.btbIndexBits → Word
  btbValid : BitVec c.btbIndexBits → Bool
  cntrTable : Fin 256 → BitVec 2
  ghist : BitVec c.ghistBits

/-- The inputs of the predictor at a clock edge. -/
structure BpInputs where
  updateValid : Bool
  updatePc : Word
  updateTaken : Bool
  updateTarget : Word
  flush : Bool

section

variable {c : BpParams}

def btbIdx (c : BpParams) (pc : Word) : BitVec c.btbIndexBits := pc.extractLsb' 2 c.btbIndexBits

def btbTag (c : BpParams) (pc : Word) : BitVec c.btbTagBits :=
  pc.extractLsb' (c.btbIndexBits + 2) c.btbTagBits

namespace BradBp

/-- The values the reset leaves. -/
def reset (c : BpParams) : BradBp c where
  btbTagArr _ := 0
  btbTarget _ := 0
  btbValid _ := false
  cntrTable _ := 1
  ghist := 0

def btbHit (s : BradBp c) (pc : Word) : Bool :=
  s.btbValid (btbIdx c pc) && s.btbTagArr (btbIdx c pc) == btbTag c pc

def btbTarg (s : BradBp c) (pc : Word) : Word := s.btbTarget (btbIdx c pc)

/-- `pred_pc[9:2] ^ ghist[7:0]`, which is also the index of the counter an update is for. -/
def gshareIdx (s : BradBp c) (pc : Word) : Fin 256 :=
  (pc.extractLsb' 2 8 ^^^ s.ghist.extractLsb' 0 8).toFin

/-- `pred_taken` and `pred_target`. Only type 2 reads the counters. -/
def predict (s : BradBp c) (predPc : Word) : Bool × Word :=
  match c.bpType with
  | 1 =>
      if s.btbHit predPc then ((s.btbTarg predPc - predPc).slt 0, s.btbTarg predPc) else (false, 0)
  | 2 =>
      (if s.btbHit predPc then (s.cntrTable (s.gshareIdx predPc)).msb else false,
        if s.btbHit predPc then s.btbTarg predPc else 0)
  | _ => (false, 0)

end BradBp

/-- The next value of a counter. -/
def nextCntr (v : BitVec 2) (taken : Bool) : BitVec 2 :=
  match v with
  | 0 => if taken then 1 else 0
  | 1 => if taken then 2 else 0
  | 2 => if taken then 3 else 1
  | 3 => if taken then 3 else 2

namespace BradBp

/-- The registers after a clock edge. -/
def clock (s : BradBp c) (i : BpInputs) : BradBp c :=
  if i.flush then { s with ghist := 0 }
  else if i.updateValid then
    let s' :=
      { s with
        btbTagArr := Function.update s.btbTagArr (btbIdx c i.updatePc) (btbTag c i.updatePc)
        btbTarget := Function.update s.btbTarget (btbIdx c i.updatePc) i.updateTarget
        btbValid := Function.update s.btbValid (btbIdx c i.updatePc) true }
    if c.bpType = 2 then
      let updCntrIdx := s.gshareIdx i.updatePc
      { s' with
        cntrTable :=
          Function.update s.cntrTable updCntrIdx (nextCntr (s.cntrTable updCntrIdx) i.updateTaken)
        ghist := s.ghist <<< 1 ||| (BitVec.ofBool i.updateTaken).setWidth c.ghistBits }
    else s'
  else s

end BradBp

end

end BradVector.Bp
