import BradVector.Library.Bytes

/-!
# The BradVector instruction set

The reference definitions of `bradvector.h`: the data model, the 64-bit instruction word, the
opcodes and the statuses a run ends with.
-/

namespace BradVector

open CSem

abbrev Word := BitVec 32

/-- `size_t` and `uint64_t`. -/
abbrev Size := BitVec 64

/-- `sizeof(float)`. -/
def sizeofFloat : Size := 4

/-! ### Error numbers -/

def eperm : Int := 1
def enoent : Int := 2
def enomem : Int := 12
def efault : Int := 14
def eexist : Int := 17
def enodev : Int := 19
def einval : Int := 22
def enospc : Int := 28
def eaddrinuse : Int := 98

/-! ### Data model -/

def warpSize : Nat := 32
def scalarRegs : Nat := 256
def predRegs : Nat := 16
def vecRegs : Nat := 64
def vecLanes : Nat := 16

/-- Bytes of one instruction in the stream. -/
def insnSize : Nat := 8

/-- `S0`: reads 0, writes discarded. -/
def sZero : BitVec 8 := 0
def sThreadId : BitVec 8 := 1
def sArgBase : Nat := 16
def sNumArgs : Nat := 16

/-- The C string literal `s`, as the bytes of its encoding. -/
def cstr (s : String) : List Byte := s.toByteArray.data.toList.map UInt8.toBitVec

/-! ### Opcodes -/

inductive Opcode where
  | add | addi | sub | mul | mad | div | sqrt | rsqrt | min | max | abs | neg | cmp | sel
  | iadd | isub | imul | idiv | imad | popc | clz | bfind | shl | shr | and | or | xor | not
  | vadd | vmul | vdot | vcross | vmad | mmul | mmulB | vshuffle | vbroadcast | vreduce
  | load | load2 | loadv | loadDs | store | store2 | storev | prefetch
  | atomicAdd | atomicCas | atomicExch | texSample | texSample3d | texGather
  | br | brCond | call | ret | bar | barCluster | exit | trap
  | rtTrace | rtIntersect | rtBvhWalk | rtAnyHit | rtClosestHit | rtMiss | rtNearfEval |
    rtNearfTrain
  | nsConv2d | nsConv2d5 | nsRelu | nsGelu | nsSilu | nsMaxpool | nsUpsample | nsAttention
  | nsExpertSelect | nsMoeFuse
  | rcp | sin | cos | exp2 | log2 | rand | laneId | warpSz | clock
  deriving DecidableEq, Repr

/-- `enum bv_opcode`. -/
def Opcode.toByte : Opcode → BitVec 8
  | add => 0x00 | addi => 0x01 | sub => 0x02 | mul => 0x03 | mad => 0x04 | div => 0x05
  | sqrt => 0x06 | rsqrt => 0x07 | min => 0x08 | max => 0x09 | abs => 0x0A | neg => 0x0B
  | cmp => 0x0C | sel => 0x0D
  | iadd => 0x10 | isub => 0x11 | imul => 0x12 | idiv => 0x13 | imad => 0x14 | popc => 0x15
  | clz => 0x16 | bfind => 0x17 | shl => 0x18 | shr => 0x19 | and => 0x1A | or => 0x1B
  | xor => 0x1C | not => 0x1D
  | vadd => 0x20 | vmul => 0x21 | vdot => 0x22 | vcross => 0x23 | vmad => 0x24 | mmul => 0x25
  | mmulB => 0x26 | vshuffle => 0x27 | vbroadcast => 0x28 | vreduce => 0x29
  | load => 0x30 | load2 => 0x31 | loadv => 0x32 | loadDs => 0x33 | store => 0x34
  | store2 => 0x35 | storev => 0x36 | prefetch => 0x37 | atomicAdd => 0x38 | atomicCas => 0x39
  | atomicExch => 0x3A | texSample => 0x3B | texSample3d => 0x3C | texGather => 0x3D
  | br => 0x40 | brCond => 0x41 | call => 0x42 | ret => 0x43 | bar => 0x44 | barCluster => 0x45
  | exit => 0x46 | trap => 0x47
  | rtTrace => 0x50 | rtIntersect => 0x51 | rtBvhWalk => 0x52 | rtAnyHit => 0x53
  | rtClosestHit => 0x54 | rtMiss => 0x55 | rtNearfEval => 0x56 | rtNearfTrain => 0x57
  | nsConv2d => 0x60 | nsConv2d5 => 0x61 | nsRelu => 0x62 | nsGelu => 0x63 | nsSilu => 0x64
  | nsMaxpool => 0x65 | nsUpsample => 0x66 | nsAttention => 0x67 | nsExpertSelect => 0x68
  | nsMoeFuse => 0x69
  | rcp => 0xF0 | sin => 0xF1 | cos => 0xF2 | exp2 => 0xF3 | log2 => 0xF4 | rand => 0xF5
  | laneId => 0xF6 | warpSz => 0xF7 | clock => 0xF8

/-- The opcode an encoded byte stands for, if any. -/
def Opcode.ofByte (b : BitVec 8) : Option Opcode :=
  match b.toNat with
  | 0x00 => some add | 0x01 => some addi | 0x02 => some sub | 0x03 => some mul | 0x04 => some mad
  | 0x05 => some div | 0x06 => some sqrt | 0x07 => some rsqrt | 0x08 => some min
  | 0x09 => some max | 0x0A => some abs | 0x0B => some neg | 0x0C => some cmp | 0x0D => some sel
  | 0x10 => some iadd | 0x11 => some isub | 0x12 => some imul | 0x13 => some idiv
  | 0x14 => some imad | 0x15 => some popc | 0x16 => some clz | 0x17 => some bfind
  | 0x18 => some shl | 0x19 => some shr | 0x1A => some and | 0x1B => some or | 0x1C => some xor
  | 0x1D => some not
  | 0x20 => some vadd | 0x21 => some vmul | 0x22 => some vdot | 0x23 => some vcross
  | 0x24 => some vmad | 0x25 => some mmul | 0x26 => some mmulB | 0x27 => some vshuffle
  | 0x28 => some vbroadcast | 0x29 => some vreduce
  | 0x30 => some load | 0x31 => some load2 | 0x32 => some loadv | 0x33 => some loadDs
  | 0x34 => some store | 0x35 => some store2 | 0x36 => some storev | 0x37 => some prefetch
  | 0x38 => some atomicAdd | 0x39 => some atomicCas | 0x3A => some atomicExch
  | 0x3B => some texSample | 0x3C => some texSample3d | 0x3D => some texGather
  | 0x40 => some br | 0x41 => some brCond | 0x42 => some call | 0x43 => some ret
  | 0x44 => some bar | 0x45 => some barCluster | 0x46 => some exit | 0x47 => some trap
  | 0x50 => some rtTrace | 0x51 => some rtIntersect | 0x52 => some rtBvhWalk
  | 0x53 => some rtAnyHit | 0x54 => some rtClosestHit | 0x55 => some rtMiss
  | 0x56 => some rtNearfEval | 0x57 => some rtNearfTrain
  | 0x60 => some nsConv2d | 0x61 => some nsConv2d5 | 0x62 => some nsRelu | 0x63 => some nsGelu
  | 0x64 => some nsSilu | 0x65 => some nsMaxpool | 0x66 => some nsUpsample
  | 0x67 => some nsAttention | 0x68 => some nsExpertSelect | 0x69 => some nsMoeFuse
  | 0xF0 => some rcp | 0xF1 => some sin | 0xF2 => some cos | 0xF3 => some exp2
  | 0xF4 => some log2 | 0xF5 => some rand | 0xF6 => some laneId | 0xF7 => some warpSz
  | 0xF8 => some clock
  | _ => none

@[simp]
theorem Opcode.ofByte_toByte (op : Opcode) : Opcode.ofByte op.toByte = some op := by
  cases op <;> rfl

/-! ### `CMP` and `VREDUCE` modifiers carried in FLAGS -/

def ccEq : BitVec 8 := 0
def ccNe : BitVec 8 := 1
def ccLt : BitVec 8 := 2
def ccGt : BitVec 8 := 3
def ccLe : BitVec 8 := 4
def ccGe : BitVec 8 := 5

def redSum : BitVec 8 := 0
def redMax : BitVec 8 := 1
def redMin : BitVec 8 := 2

/-! ### The instruction word -/

/-- One field of the instruction word, at bit `shift`. -/
def insnField (shift : Nat) (raw : BitVec 64) : BitVec 8 := (raw >>> shift).setWidth 8

/-- `BVEN`: the eight byte-wide fields put together. -/
def bven (op pred dst src1 src2 imm flags mod : BitVec 8) : BitVec 64 :=
  (op.setWidth 64 <<< 56) ||| (pred.setWidth 64 <<< 48) ||| (dst.setWidth 64 <<< 40) |||
    (src1.setWidth 64 <<< 32) ||| (src2.setWidth 64 <<< 24) ||| (imm.setWidth 64 <<< 16) |||
    (flags.setWidth 64 <<< 8) ||| mod.setWidth 64

/-- `struct bv_insn`. -/
structure BvInsn where
  raw : BitVec 64
  op : BitVec 8
  pred : BitVec 8
  dst : BitVec 8
  src1 : BitVec 8
  src2 : BitVec 8
  /-- Read as a signed byte. -/
  imm : BitVec 8
  flags : BitVec 8
  mod : BitVec 8
  deriving DecidableEq, Repr

def bvDecode (raw : BitVec 64) : BvInsn where
  raw := raw
  op := insnField 56 raw
  pred := insnField 48 raw
  dst := insnField 40 raw
  src1 := insnField 32 raw
  src2 := insnField 24 raw
  imm := insnField 16 raw
  flags := insnField 8 raw
  mod := insnField 0 raw

section Fields

variable (op pred dst src1 src2 imm flags mod : BitVec 8)

@[simp]
theorem insnField_op_bven : insnField 56 (bven op pred dst src1 src2 imm flags mod) = op := by
  ext i hi
  simp [insnField, bven, hi]
  grind

@[simp]
theorem insnField_pred_bven : insnField 48 (bven op pred dst src1 src2 imm flags mod) = pred := by
  ext i hi
  simp [insnField, bven, hi]
  grind

@[simp]
theorem insnField_dst_bven : insnField 40 (bven op pred dst src1 src2 imm flags mod) = dst := by
  ext i hi
  simp [insnField, bven, hi]
  grind

@[simp]
theorem insnField_src1_bven : insnField 32 (bven op pred dst src1 src2 imm flags mod) = src1 := by
  ext i hi
  simp [insnField, bven, hi]
  grind

@[simp]
theorem insnField_src2_bven : insnField 24 (bven op pred dst src1 src2 imm flags mod) = src2 := by
  ext i hi
  simp [insnField, bven, hi]
  grind

@[simp]
theorem insnField_imm_bven : insnField 16 (bven op pred dst src1 src2 imm flags mod) = imm := by
  ext i hi
  simp [insnField, bven, hi]
  grind

@[simp]
theorem insnField_flags_bven : insnField 8 (bven op pred dst src1 src2 imm flags mod) = flags := by
  ext i hi
  simp [insnField, bven, hi]
  grind

@[simp]
theorem insnField_mod_bven : insnField 0 (bven op pred dst src1 src2 imm flags mod) = mod := by
  ext i hi
  simp [insnField, bven]

/-- Decoding an encoded instruction gives its fields back. -/
theorem bvDecode_bven :
    bvDecode (bven op pred dst src1 src2 imm flags mod) =
      { raw := bven op pred dst src1 src2 imm flags mod
        op, pred, dst, src1, src2, imm, flags, mod } := by
  simp [bvDecode]

end Fields

/-! ### Result of a step or a run -/

/-- `enum bv_status`. -/
inductive BvStatus where
  | ok
  | trap
  | timeout
  | halt
  | oob
  deriving DecidableEq, Repr

end BradVector
