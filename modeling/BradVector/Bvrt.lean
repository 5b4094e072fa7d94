import BradVector.Bvbc

/-!
# BVRT, the reference interpreter

The warp and the device of `bvrt.h` and the interpreter of `bvrt.c`. Float arithmetic is the host's,
and enters as a parameter. An index outside a register file, or an offset outside device memory, is
undefined behaviour naming the access; the C code makes no such access where `Outcome.ok` or
`Outcome.stop` comes out.
-/

namespace BradVector

open CSem

def bvrtMaxMem : Nat := 64 * 1024 * 1024
def bvrtMaxRet : Nat := 16

/-- The host's `float` operations, on the bit patterns the registers hold, and its `rand()`. -/
structure HostMath where
  add : Word → Word → Word
  sub : Word → Word → Word
  mul : Word → Word → Word
  div : Word → Word → Word
  /-- `a * b + c`, fused or not as the compiler chooses. -/
  mad : Word → Word → Word → Word
  sqrt : Word → Word
  sin : Word → Word
  cos : Word → Word
  exp2 : Word → Word
  log2 : Word → Word
  abs : Word → Word
  neg : Word → Word
  lt : Word → Word → Bool
  /-- `x == 0.0f`. -/
  isZero : Word → Bool
  /-- The value of the `n`-th call of `rand()`. -/
  rand : Nat → Word

/-- Integer arithmetic in the place of the host's, to evaluate programs with. -/
def HostMath.integer : HostMath where
  add := (· + ·)
  sub := (· - ·)
  mul := (· * ·)
  div := (· / ·)
  mad a b c := a * b + c
  sqrt := id
  sin := id
  cos := id
  exp2 := id
  log2 := id
  abs := id
  neg := (- ·)
  lt a b := a < b
  isZero := (· = 0)
  rand := BitVec.ofNat 32

/-- `1.0f`. -/
def floatOne : Word := 0x3F800000

/-- `(float)imm` for a signed byte, which is exact. -/
def floatOfImm (imm : BitVec 8) : Word :=
  let m := imm.toInt.natAbs
  if m = 0 then 0
  else
    let e := Nat.log2 m
    BitVec.ofNat 32 ((if imm.msb then 2 ^ 31 else 0) + (127 + e) * 2 ^ 23 +
      (m * 2 ^ (23 - e) - 2 ^ 23))

/-! ### State -/

/-- An access of the interpreter: a vector register, a predicate register, or `len` bytes of device
memory. -/
inductive Access where
  | vreg (index : Nat)
  | preg (index : Nat)
  | mem (off len : Nat)
  deriving DecidableEq, Repr

/-- One lane's part of `struct bvrt_warp`. -/
@[ext]
structure Lane where
  s : BitVec 8 → Word
  v : Fin vecRegs → Fin vecLanes → Word
  p : Fin predRegs → Word
  ret : Fin bvrtMaxRet → Word
  retsp : Fin (bvrtMaxRet + 1)

def Lane.zero : Lane where
  s := fun _ => 0
  v := fun _ _ => 0
  p := fun _ => 0
  ret := fun _ => 0
  retsp := 0

structure Warp where
  pc : Word
  active : Word
  lanes : Fin warpSize → Lane
  cycles : Word

/-- Flat device memory; `bvrt_create` keeps its size between 1 and `BVRT_MAX_MEM`. -/
@[ext]
structure DevMem where
  bytes : Nat → Byte
  size : Nat
  size_pos : 0 < size
  size_le : size ≤ bvrtMaxMem

/-- `struct bvrt_device`; `rands` counts the process's calls of `rand()`. -/
structure Device where
  img : BvbcImage
  warp : Warp
  mem : DevMem
  insns : Nat
  status : BvStatus
  rands : Nat

/-- What one lane can touch while it executes a data instruction. -/
@[ext]
structure Local where
  lane : Lane
  mem : DevMem
  rands : Nat

abbrev LaneOutcome (α : Type) := Outcome Access Unit α

/-- `stop` is a return of `BV_TRAP`, with the device as the trap leaves it. -/
abbrev Exec := Outcome Access Device Device

def Device.lane (d : Device) (l : Fin warpSize) : Lane := d.warp.lanes l

def Device.laneActive (d : Device) (l : Fin warpSize) : Bool := d.warp.active.getLsbD l

def Device.local (d : Device) (l : Fin warpSize) : Local := ⟨d.lane l, d.mem, d.rands⟩

def Device.setLocal (d : Device) (l : Fin warpSize) (c : Local) : Device :=
  { d with
    warp := { d.warp with lanes := Function.update d.warp.lanes l c.lane }
    mem := c.mem
    rands := c.rands }

/-! ### Register files -/

/-- `wr_s`: writes to `S0` are discarded. -/
def Lane.wrS (r : Lane) (reg : BitVec 8) (v : Word) : Lane :=
  if reg = sZero then r else { r with s := Function.update r.s reg v }

def Lane.readV (r : Lane) (reg : BitVec 8) : LaneOutcome (Fin vecLanes → Word) :=
  if h : reg.toNat < vecRegs then .ok (r.v ⟨reg.toNat, h⟩) else .undefined (.vreg reg.toNat)

def Lane.writeV (r : Lane) (reg : BitVec 8) (x : Fin vecLanes → Word) : LaneOutcome Lane :=
  if h : reg.toNat < vecRegs then .ok { r with v := Function.update r.v ⟨reg.toNat, h⟩ x }
  else .undefined (.vreg reg.toNat)

def Lane.readP {ε : Type} (r : Lane) (index : Nat) : Outcome Access ε Word :=
  if h : index < predRegs then .ok (r.p ⟨index, h⟩) else .undefined (.preg index)

def Lane.writeP (r : Lane) (index : Nat) (x : Word) : LaneOutcome Lane :=
  if h : index < predRegs then .ok { r with p := Function.update r.p ⟨index, h⟩ x }
  else .undefined (.preg index)

/-- `pred_ok`: field 0 is unpredicated, field `k + 1` selects `Pk`. -/
def Lane.predOk {ε : Type} (r : Lane) (pred : BitVec 8) : Outcome Access ε Bool :=
  if pred = 0 then .ok true
  else do
    let x ← r.readP (pred.toNat - 1)
    return x ≠ 0

/-! ### Device memory -/

def DevMem.read32 (m : DevMem) (off : Nat) : LaneOutcome Word :=
  if off + 4 ≤ m.size then .ok (BitVec.ofNat 32 (ofLE (readBytes m.bytes off 4)))
  else .undefined (.mem off 4)

def DevMem.write32 (m : DevMem) (off : Nat) (w : Word) : LaneOutcome DevMem :=
  if off + 4 ≤ m.size then .ok { m with bytes := writeBytes m.bytes off (toLE 4 w.toNat) }
  else .undefined (.mem off 4)

/-- `(size_t)(int32_t)s[src1] + imm`. -/
def Lane.memAddr (r : Lane) (i : BvInsn) : BitVec 64 :=
  (r.s i.src1).signExtend 64 + i.imm.signExtend 64

/-- `addr + len > mem_size`, the test every memory instruction makes. -/
def DevMem.outOfBounds (m : DevMem) (addr : BitVec 64) (len : Nat) : Bool :=
  m.size < (addr + BitVec.ofNat 64 len).toNat

/-! ### Data instructions, one lane at a time -/

section Data

variable (F : HostMath) (i : BvInsn)

def scalar (f : (BitVec 8 → Word) → Word) (c : Local) : LaneOutcome Local :=
  .ok { c with lane := c.lane.wrS i.dst (f c.lane.s) }

def scalar1 (f : Word → Word) : Local → LaneOutcome Local := scalar i fun s => f (s i.src1)

def scalar2 (f : Word → Word → Word) : Local → LaneOutcome Local :=
  scalar i fun s => f (s i.src1) (s i.src2)

/-- `dst = f(src1, src2, dst)`. -/
def scalar3 (f : Word → Word → Word → Word) : Local → LaneOutcome Local :=
  scalar i fun s => f (s i.src1) (s i.src2) (s i.dst)

def popcount (v : Word) : Word := BitVec.ofNat 32 ((List.range 32).countP v.getLsbD)

/-- `while (c < 32 && !(v & (1u << 31))) { v <<= 1; c++; }`, with `fuel` iterations left. -/
def clzLoop : Nat → Word → Nat → Nat
  | 0, _, c => c
  | fuel + 1, v, c => if v.msb then c else clzLoop fuel (v <<< 1) (c + 1)

def countLeadingZeros (v : Word) : Word := BitVec.ofNat 32 (clzLoop 32 v 0)

/-- The highest set bit, or -1. -/
def bitFind (v : Word) : Word :=
  (List.range 32).foldl (fun idx bit => if v.getLsbD bit then BitVec.ofNat 32 bit else idx) (-1)

def compare (flags : BitVec 8) (a b : Word) : Bool :=
  if flags = ccEq then a = b
  else if flags = ccNe then a ≠ b
  else if flags = ccLt then a < b
  else if flags = ccGt then b < a
  else if flags = ccLe then a ≤ b
  else b ≤ a

def cmp (c : Local) : LaneOutcome Local := do
  let r := compare i.flags (c.lane.s i.src1) (c.lane.s i.src2)
  let lane ← c.lane.writeP i.dst.toNat (if r then 1 else 0)
  return { c with lane }

def sel (c : Local) : LaneOutcome Local := do
  let taken ← if i.pred = 0 then .ok false else c.lane.predOk i.pred
  return { c with
    lane := c.lane.wrS i.dst (if taken then c.lane.s i.src1 else c.lane.s i.src2) }

/-- An elementwise vector instruction. -/
def vector2 (f : Word → Word → Word) (c : Local) : LaneOutcome Local := do
  let a ← c.lane.readV i.src1
  let b ← c.lane.readV i.src2
  let lane ← c.lane.writeV i.dst fun k => f (a k) (b k)
  return { c with lane }

def vmad (c : Local) : LaneOutcome Local := do
  let a ← c.lane.readV i.src1
  let b ← c.lane.readV i.src2
  let x ← c.lane.readV i.dst
  let lane ← c.lane.writeV i.dst fun k => F.mad (a k) (b k) (x k)
  return { c with lane }

def vdot (c : Local) : LaneOutcome Local := do
  let a ← c.lane.readV i.src1
  let b ← c.lane.readV i.src2
  let acc := (List.finRange vecLanes).foldl (fun acc k => F.mad (a k) (b k) acc) 0
  let lane ← c.lane.writeV i.dst fun k => if k.val = 0 then acc else 0
  return { c with lane }

def vbroadcast (c : Local) : LaneOutcome Local := do
  let lane ← c.lane.writeV i.dst fun _ => c.lane.s i.src1
  return { c with lane }

/-- The value `VREDUCE` leaves in element 0. -/
def reduce (flags : BitVec 8) (x : Fin vecLanes → Word) : Word :=
  if flags = redMax then
    ((List.finRange vecLanes).drop 1).foldl (fun m k => if m < x k then x k else m) 0
  else if flags = redMin then
    (List.finRange vecLanes).foldl (fun m k => if x k < m then x k else m) 0xFFFFFFFF
  else (List.finRange vecLanes).foldl (fun acc k => F.add acc (x k)) 0

def vreduce (c : Local) : LaneOutcome Local := do
  let x ← c.lane.readV i.dst
  let lane ← c.lane.writeV i.dst fun k => if k.val = 0 then reduce F i.flags x else x k
  return { c with lane }

def load (c : Local) : LaneOutcome Local :=
  let addr := c.lane.memAddr i
  if c.mem.outOfBounds addr 4 then .stop ()
  else do
    let v ← c.mem.read32 addr.toNat
    return { c with lane := c.lane.wrS i.dst v }

/-- The sixteen words go to the scalar registers `dst * 16 + li`, modulo 256. -/
def loadv (c : Local) : LaneOutcome Local :=
  let addr := c.lane.memAddr i
  if c.mem.outOfBounds addr (vecLanes * 4) then .stop ()
  else Outcome.forRange vecLanes (fun li c => do
    let v ← c.mem.read32 (addr + BitVec.ofNat 64 (li * 4)).toNat
    return { c with lane := c.lane.wrS (i.dst * 16 + BitVec.ofNat 8 li) v }) c

def store (c : Local) : LaneOutcome Local :=
  let addr := c.lane.memAddr i
  if c.mem.outOfBounds addr 4 then .stop ()
  else do
    let mem ← c.mem.write32 addr.toNat (c.lane.s i.dst)
    return { c with mem }

def storev (c : Local) : LaneOutcome Local :=
  let addr := c.lane.memAddr i
  if c.mem.outOfBounds addr (vecLanes * 4) then .stop ()
  else Outcome.forRange vecLanes (fun li c => do
    let x ← c.lane.readV i.dst
    let mem ← c.mem.write32 (addr + BitVec.ofNat 64 (li * 4)).toNat (x li)
    return { c with mem }) c

def atomicAdd (c : Local) : LaneOutcome Local :=
  let addr := c.lane.memAddr i
  if c.mem.outOfBounds addr 4 then .stop ()
  else do
    let old ← c.mem.read32 addr.toNat
    let mem ← c.mem.write32 addr.toNat (old + c.lane.s i.src2)
    return { c with lane := c.lane.wrS i.dst old, mem }

def rand (pc : Word) (c : Local) : LaneOutcome Local :=
  .ok { c with
    lane := c.lane.wrS i.dst (F.rand c.rands ^^^ (pc * 2654435761))
    rands := c.rands + 1 }

/-- `ret[retsp++] = pc + 1`. -/
def pushRet (pc : Word) (c : Local) : LaneOutcome Local :=
  if h : c.lane.retsp.val < bvrtMaxRet then
    .ok { c with lane := { c.lane with
      ret := Function.update c.lane.ret ⟨c.lane.retsp, h⟩ (pc + 1)
      retsp := ⟨c.lane.retsp + 1, by omega⟩ } }
  else .stop ()

end Data

/-! ### The opcode switch -/

/-- What the `switch` of `execute_insn` does with an opcode. -/
inductive Effect where
  /-- A data instruction: `body` for every lane that is active and whose predicate holds. -/
  | lanes (body : Fin warpSize → Local → LaneOutcome Local)
  | branch
  | call
  | ret
  | barrier
  | exit
  | trap

def effect (F : HostMath) (pc cycles : Word) (i : BvInsn) : Effect :=
  match Opcode.ofByte i.op with
  | some .add => .lanes fun _ => scalar2 i F.add
  | some .addi => .lanes fun _ => scalar1 i fun a => F.add a (floatOfImm i.imm)
  | some .sub => .lanes fun _ => scalar2 i F.sub
  | some .mul => .lanes fun _ => scalar2 i F.mul
  | some .mad => .lanes fun _ => scalar3 i F.mad
  | some .div => .lanes fun _ => scalar2 i fun a b => if F.isZero b then 0xFFFFFFFF else F.div a b
  | some .sqrt => .lanes fun _ => scalar1 i F.sqrt
  | some .rsqrt => .lanes fun _ => scalar1 i fun a => F.div floatOne (F.sqrt a)
  | some .rcp => .lanes fun _ => scalar1 i (F.div floatOne)
  | some .sin => .lanes fun _ => scalar1 i F.sin
  | some .cos => .lanes fun _ => scalar1 i F.cos
  | some .exp2 => .lanes fun _ => scalar1 i F.exp2
  | some .log2 => .lanes fun _ => scalar1 i F.log2
  | some .min => .lanes fun _ => scalar2 i fun a b => if F.lt a b then a else b
  | some .max => .lanes fun _ => scalar2 i fun a b => if F.lt b a then a else b
  | some .abs => .lanes fun _ => scalar1 i F.abs
  | some .neg => .lanes fun _ => scalar1 i F.neg
  | some .sel => .lanes fun _ => sel i
  | some .cmp => .lanes fun _ => cmp i
  | some .iadd => .lanes fun _ => scalar2 i fun a b => a + b
  | some .isub => .lanes fun _ => scalar2 i fun a b => a - b
  | some .imul => .lanes fun _ => scalar2 i fun a b => a * b
  | some .idiv => .lanes fun _ => scalar2 i fun a b => if b = 0 then 0xFFFFFFFF else a / b
  | some .imad => .lanes fun _ => scalar3 i fun a b x => a * b + x
  | some .popc => .lanes fun _ => scalar1 i popcount
  | some .clz => .lanes fun _ => scalar1 i countLeadingZeros
  | some .bfind => .lanes fun _ => scalar1 i bitFind
  | some .shl => .lanes fun _ => scalar2 i fun a b => a <<< (b &&& 31).toNat
  | some .shr => .lanes fun _ => scalar2 i fun a b => a >>> (b &&& 31).toNat
  | some .and => .lanes fun _ => scalar2 i fun a b => a &&& b
  | some .or => .lanes fun _ => scalar2 i fun a b => a ||| b
  | some .xor => .lanes fun _ => scalar2 i fun a b => a ^^^ b
  | some .not => .lanes fun _ => scalar1 i fun a => ~~~a
  | some .vadd => .lanes fun _ => vector2 i F.add
  | some .vmul => .lanes fun _ => vector2 i F.mul
  | some .vmad => .lanes fun _ => vmad F i
  | some .vdot => .lanes fun _ => vdot F i
  | some .vbroadcast => .lanes fun _ => vbroadcast i
  | some .vreduce => .lanes fun _ => vreduce F i
  | some .vcross | some .mmul | some .mmulB | some .vshuffle => .trap
  | some .load => .lanes fun _ => load i
  | some .loadv => .lanes fun _ => loadv i
  | some .store => .lanes fun _ => store i
  | some .storev => .lanes fun _ => storev i
  | some .atomicAdd => .lanes fun _ => atomicAdd i
  | some .br | some .brCond => .branch
  | some .call => .call
  | some .ret => .ret
  | some .bar | some .barCluster => .barrier
  | some .exit => .exit
  | some .trap => .trap
  | some .laneId => .lanes fun l => scalar i fun _ => BitVec.ofNat 32 l
  | some .warpSz => .lanes fun _ => scalar i fun _ => BitVec.ofNat 32 warpSize
  | some .clock => .lanes fun _ => scalar i fun _ => cycles
  | some .rand => .lanes fun _ => rand F i pc
  -- the classes the interpreter does not implement, and bytes that are no opcode
  | _ => .trap

/-! ### Executing one instruction -/

def bvrtTrap (d : Device) : Exec := .stop { d with status := .trap }

/-- `lane_active(w, l) && pred_ok(dev, l, pred)`; the second test is only made when the first one
passes. -/
def Device.enabled (d : Device) (pred : BitVec 8) (l : Fin warpSize) : Outcome Access Device Bool :=
  if d.laneActive l then (d.lane l).predOk pred else .ok false

/-- One iteration of the lane loop of a data instruction. -/
def laneStep (pred : BitVec 8) (body : Fin warpSize → Local → LaneOutcome Local)
    (l : Fin warpSize) (d : Device) : Exec := do
  if ← d.enabled pred l then
    match body l (d.local l) with
    | .ok c => .ok (d.setLocal l c)
    | .stop () => bvrtTrap d
    | .undefined a => .undefined a
  else .ok d

def forLanes (pred : BitVec 8) (body : Fin warpSize → Local → LaneOutcome Local) :
    Device → Exec :=
  Outcome.forRange warpSize (laneStep pred body)

/-- Whether the loop of a branch finds a lane to take it for. -/
def anyEnabled (d : Device) (pred : BitVec 8) : List (Fin warpSize) → Outcome Access Device Bool
  | [] => .ok false
  | l :: ls => do
      if ← d.enabled pred l then .ok true else anyEnabled d pred ls

/-- One iteration of the loop of `RET`, which does not look at the predicate. -/
def retStep (l : Fin warpSize) (d : Device) : Exec :=
  if d.laneActive l then
    let r := d.lane l
    if h : r.retsp.val = 0 then bvrtTrap d
    else
      let sp : Fin bvrtMaxRet := ⟨r.retsp - 1, by omega⟩
      .ok { d with warp := { d.warp with
        pc := r.ret sp
        lanes := Function.update d.warp.lanes l { r with retsp := sp.castSucc } } }
  else .ok d

def Device.setPc (d : Device) (pc : Word) : Device := { d with warp := { d.warp with pc } }

def Device.setActive (d : Device) (active : Word) : Device :=
  { d with warp := { d.warp with active } }

/-- The end of `execute_insn` for an instruction that did not branch. -/
def Device.advance (d : Device) : Device :=
  { d with warp := { d.warp with pc := d.warp.pc + 1, cycles := d.warp.cycles + 1 } }

/-- `pc + 1 + imm`. -/
def Device.branchTarget (d : Device) (i : BvInsn) : Word :=
  d.warp.pc + 1 + i.imm.signExtend 32

def executeInsn (F : HostMath) (d : Device) (i : BvInsn) : Exec :=
  match effect F d.warp.pc d.warp.cycles i with
  | .lanes body => do
      let d ← forLanes i.pred body d
      return d.advance
  | .branch => do
      if ← anyEnabled d i.pred (List.finRange warpSize) then .ok (d.setPc (d.branchTarget i))
      else .ok d.advance
  | .call => do
      let target := d.branchTarget i
      let d ← forLanes i.pred (fun _ => pushRet d.warp.pc) d
      return d.setPc target
  | .ret => Outcome.forRange warpSize retStep d
  | .barrier => .ok d.advance
  | .exit => .ok (d.setActive 0).advance
  | .trap => bvrtTrap d

/-! ### Steps and runs -/

/-- A status and the device it comes with, unless the step is undefined. -/
abbrev StepResult := Except Access (BvStatus × Device)

def Exec.result : Exec → StepResult
  | .ok d => .ok (.ok, d)
  | .stop d => .ok (.trap, d)
  | .undefined a => .error a

/-- The instruction the warp's pc names. -/
def Device.fetch (d : Device) : BvInsn := bvDecode (d.img.insn d.warp.pc.toNat)

def bvrtStep (F : HostMath) (d : Device) : StepResult :=
  if d.warp.active = 0 then .ok (.halt, d)
  else if d.warp.pc.toInt < 0 then Exec.result (bvrtTrap d)
  else if d.img.ninsn ≤ d.warp.pc.toNat then Exec.result (bvrtTrap d)
  else Exec.result (executeInsn F { d with insns := d.insns + 1 } d.fetch)

/-- The loop of `bvrt_run`, with `fuel` iterations left. -/
def bvrtRunLoop (F : HostMath) (maxInsns : Nat) : Nat → Device → StepResult
  | fuel + 1, d =>
      if d.warp.active ≠ 0 ∧ d.insns < maxInsns then
        match bvrtStep F d with
        | .ok (.ok, d) => bvrtRunLoop F maxInsns fuel d
        | r => r
      else if d.warp.active = 0 then .ok (.halt, d) else .ok (.timeout, d)
  | 0, d => if d.warp.active = 0 then .ok (.halt, d) else .ok (.timeout, d)

/-- `bvrt_run`. Every iteration counts one instruction, so the budget bounds their number. -/
def bvrtRun (F : HostMath) (d : Device) (maxInsns : Nat) : StepResult :=
  bvrtRunLoop F maxInsns (maxInsns - d.insns) d

/-! ### Device management -/

/-- `bvrt_create`; `init` is what the allocated memory happens to hold. -/
def bvrtCreate (memBytes : Nat) (init : Nat → Byte) : Device where
  img := { BvbcImage.zero with version := BitVec.ofNat 32 bvbcVersion }
  warp := { pc := 0, active := 0, lanes := fun _ => Lane.zero, cycles := 0 }
  mem := {
    bytes := init
    size := min (max memBytes 1) bvrtMaxMem
    size_pos := by
      simp only [bvrtMaxMem]
      omega
    size_le := Nat.min_le_right _ _ }
  insns := 0
  status := .ok
  rands := 0

def bvrtLoad (d : Device) (img : BvbcImage) : Device := { d with img }

def bvrtReset (d : Device) : Device :=
  { d with
    warp := { pc := 0, active := 0, lanes := fun _ => Lane.zero, cycles := 0 }
    insns := 0
    status := .ok }

/-- The scalar registers of lane `l` at launch: the arguments from `S16` on, the lane in `S1`. -/
def launchRegs (args : List Word) (l : Fin warpSize) (reg : BitVec 8) : Word :=
  if reg = sThreadId then BitVec.ofNat 32 l
  else if sArgBase ≤ reg.toNat ∧ reg.toNat < sArgBase + min args.length sNumArgs then
    args.getD (reg.toNat - sArgBase) 0
  else 0

def bvrtLaunch (d : Device) (kernel : List Byte) (args : List Word) : Option Device :=
  match bvbcFindKernel d.img kernel with
  | none => none
  | some ki =>
      let d := bvrtReset d
      some { d with warp := {
        pc := (d.img.kernels.getD ki ⟨[], 0, 0⟩).entry
        active := 0xFFFFFFFF
        lanes := fun l => { Lane.zero with s := launchRegs args l }
        cycles := 0 } }

/-- The states of the run that starts in `d`. -/
inductive Device.RunsTo (F : HostMath) (d : Device) : Device → Prop where
  | start : d.RunsTo F d
  | step {d₁ d₂ : Device} {st : BvStatus} (hd : d.RunsTo F d₁)
      (h : bvrtStep F d₁ = .ok (st, d₂)) : d.RunsTo F d₂

/-- The states a loaded image is brought to: a launch of one of its kernels, on any memory contents
and with any arguments, followed by any number of steps. -/
def Reachable (F : HostMath) (d : Device) : Prop :=
  ∃ d₀ kernel args d₁, bvrtLaunch d₀ kernel args = some d₁ ∧ d₁.RunsTo F d

end BradVector
