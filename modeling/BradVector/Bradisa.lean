import BradVector.Isa

/-!
# The BradISA encodings

`bradisa.h`: the opcodes of the 32-bit and of the compressed 16-bit instructions, the macros that
put an instruction together, and the decoded instructions.
-/

namespace BradVector

abbrev Hword := BitVec 16

/-- `enum brad_isa_opcode`. -/
inductive BradOp where
  | add | sub | mul | and | or | xor | shl | shr | addi | ldw | stw | bz | bnz | jmp | call | ret
  deriving DecidableEq, Repr

def BradOp.toWord : BradOp → Word
  | add => 0x0
  | sub => 0x1
  | mul => 0x2
  | and => 0x3
  | or => 0x4
  | xor => 0x5
  | shl => 0x6
  | shr => 0x7
  | addi => 0x8
  | ldw => 0x9
  | stw => 0xA
  | bz => 0xB
  | bnz => 0xC
  | jmp => 0xD
  | call => 0xE
  | ret => 0xF

/-- The opcode with the given number: every one of four bits has one. -/
def BradOp.ofNibble (n : BitVec 4) : BradOp :=
  match n.toNat with
  | 0x0 => .add
  | 0x1 => .sub
  | 0x2 => .mul
  | 0x3 => .and
  | 0x4 => .or
  | 0x5 => .xor
  | 0x6 => .shl
  | 0x7 => .shr
  | 0x8 => .addi
  | 0x9 => .ldw
  | 0xA => .stw
  | 0xB => .bz
  | 0xC => .bnz
  | 0xD => .jmp
  | 0xE => .call
  | _ => .ret

/-- `brad_isa_opcode_name`. -/
def BradOp.name : BradOp → String
  | add => "ADD"
  | sub => "SUB"
  | mul => "MUL"
  | and => "AND"
  | or => "OR"
  | xor => "XOR"
  | shl => "SHL"
  | shr => "SHR"
  | addi => "ADDI"
  | ldw => "LDW"
  | stw => "STW"
  | bz => "BZ"
  | bnz => "BNZ"
  | jmp => "JMP"
  | call => "CALL"
  | ret => "RET"

/-- `BRAD_IS_BRANCH`. -/
def BradOp.isBranch : BradOp → Bool
  | bz | bnz | jmp | call | ret => true
  | _ => false

/-- `enum brad_isa_cop`. -/
inductive BradCop where
  | add | sub | and | or | xor | shl | shr | addi | ldw | stw | bz | bnz | mv | nop | jmp | call
  deriving DecidableEq, Repr

def BradCop.toWord : BradCop → Word
  | add => 0x0
  | sub => 0x1
  | and => 0x2
  | or => 0x3
  | xor => 0x4
  | shl => 0x5
  | shr => 0x6
  | addi => 0x7
  | ldw => 0x8
  | stw => 0x9
  | bz => 0xA
  | bnz => 0xB
  | mv => 0xC
  | nop => 0xD
  | jmp => 0xE
  | call => 0xF

def BradCop.ofNibble (n : BitVec 4) : BradCop :=
  match n.toNat with
  | 0x0 => .add
  | 0x1 => .sub
  | 0x2 => .and
  | 0x3 => .or
  | 0x4 => .xor
  | 0x5 => .shl
  | 0x6 => .shr
  | 0x7 => .addi
  | 0x8 => .ldw
  | 0x9 => .stw
  | 0xA => .bz
  | 0xB => .bnz
  | 0xC => .mv
  | 0xD => .nop
  | 0xE => .jmp
  | _ => .call

/-- `brad_isa_cop_to_op`. -/
def BradCop.toOp : BradCop → BradOp
  | add => .add
  | sub => .sub
  | and => .and
  | or => .or
  | xor => .xor
  | shl => .shl
  | shr => .shr
  | addi => .addi
  | ldw => .ldw
  | stw => .stw
  | bz => .bz
  | bnz => .bnz
  | mv => .addi
  | nop => .add
  | jmp => .jmp
  | call => .call

/-! ### 32-bit formats -/

def bradRRR (op : BradOp) (rd rs1 rs2 : Word) : Word :=
  op.toWord <<< 28 ||| rd <<< 24 ||| rs1 <<< 20 ||| rs2 <<< 16

def bradRI (op : BradOp) (rd rs1 imm : Word) : Word :=
  op.toWord <<< 28 ||| rd <<< 24 ||| rs1 <<< 20 ||| imm &&& 0xFFFF

/-- The word of a store, which the assembler puts together itself: its source is in the `rs2`
field. -/
def bradStore (rs2 rs1 imm : Word) : Word :=
  BradOp.stw.toWord <<< 28 ||| rs1 <<< 20 ||| rs2 <<< 16 ||| imm &&& 0xFFFF

def bradBR (op : BradOp) (rs1 imm : Word) : Word :=
  op.toWord <<< 28 ||| rs1 <<< 20 ||| imm * 4 &&& 0xFFFF

def bradJMP (op : BradOp) (imm : Word) : Word :=
  op.toWord <<< 28 ||| imm * 4 &&& 0xFFFF

def bradRetRaw : Word := 0xF0000000

/-! ### Compressed formats -/

def bradCRRR (cop : BradCop) (rd rs1 rs2 : Word) : Hword :=
  (cop.toWord <<< 12 ||| rd <<< 8 ||| rs1 <<< 4 ||| rs2).setWidth 16

def bradCRI (cop : BradCop) (rd rs1 imm4 : Word) : Hword :=
  (cop.toWord <<< 12 ||| rd <<< 8 ||| rs1 <<< 4 ||| imm4 &&& 0xF).setWidth 16

def bradCBR (cop : BradCop) (rs1 off8 : Word) : Hword :=
  (cop.toWord <<< 12 ||| rs1 <<< 8 ||| off8 &&& 0xFF).setWidth 16

def bradCMV (rd imm8 : Word) : Hword :=
  (BradCop.mv.toWord <<< 12 ||| rd <<< 8 ||| imm8 &&& 0xFF).setWidth 16

def bradCNOP : Hword := 0xD000

/-! ### Decoded instructions -/

/-- `struct brad_isa_insn`. -/
structure BradInsn where
  raw : Word
  opcode : BradOp
  rd : BitVec 4
  rs1 : BitVec 4
  rs2 : BitVec 4
  immediate : Hword
  deriving DecidableEq, Repr

/-- `brad_isa_decode`. -/
def bradIsaDecode (raw : Word) : BradInsn :=
  { raw
    opcode := .ofNibble (raw.extractLsb' 28 4)
    rd := raw.extractLsb' 24 4
    rs1 := raw.extractLsb' 20 4
    rs2 := raw.extractLsb' 16 4
    immediate := raw.extractLsb' 0 16 }

/-- The immediate as the emulator adds it: an `int16_t` in 32-bit arithmetic. -/
def BradInsn.imm (d : BradInsn) : Word := d.immediate.signExtend 32

/-- `struct brad_isa_cinsn`, without the immediate, which its decoder leaves 0. -/
structure BradCinsn where
  raw : Hword
  cop : BradCop
  rd : BitVec 4
  rs1 : BitVec 4
  rs2 : BitVec 4
  deriving DecidableEq, Repr

/-- `brad_isa_cdecode`. -/
def bradIsaCdecode (raw : Hword) : BradCinsn :=
  { raw
    cop := .ofNibble (raw.extractLsb' 12 4)
    rd := raw.extractLsb' 8 4
    rs1 := raw.extractLsb' 4 4
    rs2 := raw.extractLsb' 0 4 }

end BradVector
