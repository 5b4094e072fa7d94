import BradVector.Rtl
import BradVector.Proof.Pipelines

/-!
# Sequential execution and its writes

The execution of a program one instruction after the other, by the emulator's `execute`, with the
writes each instruction makes. For what the cores are compared on, an instruction is the register it
loads, with a value or a word of memory, the word it stores, and where it goes on.
-/

namespace BradVector.Rtl

open CSem CoreEmu

/-! ### Instructions -/

/-- The fields of an instruction. -/
structure Fields where
  opcode : BradOp
  rd : BitVec 4
  rs1 : BitVec 4
  rs2 : BitVec 4
  imm : Word

def fieldsOf (w : Word) : Fields :=
  let d := bradIsaDecode w
  ⟨d.opcode, d.rd, d.rs1, d.rs2, d.imm⟩

/-- The operations with a result in `rd`. -/
def WritesRd (op : BradOp) : Prop :=
  match op with
  | .add | .sub | .mul | .and | .or | .xor | .shl | .shr | .addi | .ldw => True
  | _ => False

/-- The operations that read the register `rs1`, and those that read `rs2`. -/
def UsesRs1 (op : BradOp) : Prop := op ≠ .jmp ∧ op ≠ .call

def UsesRs2 (op : BradOp) : Prop :=
  match op with
  | .add | .sub | .mul | .and | .or | .xor | .shl | .shr | .stw => True
  | _ => False

/-- What a register is loaded with: a value, or the word at an address. -/
inductive Source where
  | value (v : Word)
  | load (addr : Word)

def Source.get (mem : Nat → Byte) : Source → Word
  | .value v => v
  | .load addr => wordAt mem addr.toNat

/-- The register that an instruction loads, from its operands. -/
def Fields.loads (d : Fields) (a b : Word) : Option (BitVec 4 × Source) :=
  match d.opcode with
  | .add | .sub | .mul | .and | .or | .xor | .shl | .shr =>
    some (d.rd, .value (aluExec d.opcode a b))
  | .addi => some (d.rd, .value (a + d.imm))
  | .ldw => some (d.rd, .load (a + d.imm))
  | _ => none

/-- The word that an instruction stores, behind its address. -/
def Fields.stores (d : Fields) (a b : Word) : Option (Word × Word) :=
  match d.opcode with
  | .stw => some (a + d.imm, b)
  | _ => none

/-- The instruction branches. `CALL` and `RET` are left out. -/
def Fields.takes (d : Fields) (a : Word) : Bool :=
  match d.opcode with
  | .bz => a == 0
  | .bnz => a != 0
  | .jmp => true
  | _ => false

section Operands

variable {d : Fields} {a a' b b' : Word}

theorem Fields.loads_congr (ha : UsesRs1 d.opcode → a = a') (hb : UsesRs2 d.opcode → b = b') :
    d.loads a b = d.loads a' b' := by
  unfold Fields.loads
  unfold UsesRs1 at ha
  unfold UsesRs2 at hb
  cases hop : d.opcode with
  | add | sub | mul | and | or | xor | shl | shr =>
      rw [hop] at ha hb
      rw [ha (by decide), hb trivial]
  | addi | ldw =>
      rw [hop] at ha
      rw [ha (by decide)]
  | stw | bz | bnz | jmp | call | ret => rfl

theorem Fields.stores_congr (ha : UsesRs1 d.opcode → a = a') (hb : UsesRs2 d.opcode → b = b') :
    d.stores a b = d.stores a' b' := by
  unfold Fields.stores
  split
  · rename_i hop
    unfold UsesRs1 at ha
    unfold UsesRs2 at hb
    rw [hop] at ha hb
    rw [ha (by decide), hb trivial]
  · rfl

theorem Fields.takes_congr (ha : UsesRs1 d.opcode → a = a') : d.takes a = d.takes a' := by
  unfold Fields.takes
  unfold UsesRs1 at ha
  split
  · rename_i hop
    rw [hop] at ha
    rw [ha (by decide)]
  · rename_i hop
    rw [hop] at ha
    rw [ha (by decide)]
  · rfl
  · rfl

theorem Fields.stores_of_ne (h : d.opcode ≠ .stw) : d.stores a b = none := by
  unfold Fields.stores
  split
  · contradiction
  · rfl

theorem Fields.not_writes_of_takes (h : d.takes a = true) : d.loads a' b' = none ∧
    d.stores a' b' = none := by
  unfold Fields.takes at h
  unfold Fields.loads Fields.stores
  cases hop : d.opcode with
  | bz | bnz | jmp => exact ⟨rfl, rfl⟩
  | add | sub | mul | and | or | xor | shl | shr | addi | ldw | stw | call | ret =>
      rw [hop] at h
      cases h

end Operands

/-! ### Commitment -/

def commitRegs (regs : BitVec 4 → Word) (mem : Nat → Byte) :
    Option (BitVec 4 × Source) → BitVec 4 → Word
  | some (r, v) => Function.update regs r (v.get mem)
  | none => regs

def commitMem (mem : Nat → Byte) : Option (Word × Word) → Nat → Byte
  | some (addr, v) => writeBytes mem addr.toNat (toLE 4 v.toNat)
  | none => mem

/-- The writes of an instruction. -/
def commitWrites (mem : Nat → Byte) (wb : Option (BitVec 4 × Source)) (st : Option (Word × Word)) :
    List Write :=
  (wb.map fun w => Write.reg w.1 (w.2.get mem)).toList ++ (st.map fun w => Write.mem w.1 w.2).toList

/-! ### Sequential execution -/

/-- The core and the data memory between two instructions. -/
structure Isa where
  core : CoreState
  mem : Nat → Byte

namespace Isa

variable (imem : Word → Word)

def start (model : PipelineModel) (mem : Nat → Byte) : Isa := ⟨coreInit model 0 0, mem⟩

/-- The instruction at the program counter, executed in a data memory of the full address space. -/
def done (q : Isa) : Executed :=
  execute { q.core with pc := q.core.pc + 4 } (bradIsaDecode (imem q.core.pc)) q.mem
    (2 ^ 32) q.core.pc

def next (q : Isa) : Isa := ⟨(q.done imem).core, (q.done imem).mem⟩

/-- The registers and the memory that the instruction writes. -/
def writes (q : Isa) : List Write :=
  let d := bradIsaDecode (imem q.core.pc)
  match d.opcode with
  | .add | .sub | .mul | .and | .or | .xor | .shl | .shr | .addi | .ldw =>
      [.reg d.rd ((q.done imem).core.regs d.rd)]
  | .stw => [.mem (q.core.regVal d.rs1 + d.imm) (q.core.regVal d.rs2)]
  | .call => [.reg bradRegLr ((q.done imem).core.regs bradRegLr)]
  | .bz | .bnz | .jmp | .ret => []

/-- The instruction at the program counter. -/
def fields (q : Isa) : Fields := fieldsOf (imem q.core.pc)

/-- Its operands. -/
def a (q : Isa) : Word := q.core.regVal (q.fields imem).rs1
def b (q : Isa) : Word := q.core.regVal (q.fields imem).rs2

def taken (q : Isa) : Bool := (q.fields imem).takes (q.a imem)

end Isa

/-- An instruction the core with this model has: no `CALL` and no `RET`, no `MUL` on a Falcon-Lite,
and a result goes to a register it has, and not to `r0`. -/
structure Plain (model : PipelineModel) (d : Fields) : Prop where
  ne_call : d.opcode ≠ .call
  ne_ret : d.opcode ≠ .ret
  ne_mul : model = .falconLite → d.opcode ≠ .mul
  ne_r0 : WritesRd d.opcode → d.rd ≠ 0
  has : WritesRd d.opcode → d.rd.toNat < model.numRegs

/-- What a plain instruction does, from its operands. -/
structure Isa.Does (imem : Word → Word) (q : Isa) : Prop where
  writes : q.writes imem = commitWrites q.mem ((q.fields imem).loads (q.a imem) (q.b imem))
    ((q.fields imem).stores (q.a imem) (q.b imem))
  regs : (q.next imem).core.regVal =
    commitRegs q.core.regVal q.mem ((q.fields imem).loads (q.a imem) (q.b imem))
  mem : (q.next imem).mem = commitMem q.mem ((q.fields imem).stores (q.a imem) (q.b imem))
  pc : (q.next imem).core.pc =
    if q.taken imem then q.core.pc + 4 + (q.fields imem).imm else q.core.pc + 4
  model : (q.next imem).core.model = q.core.model

theorem regVal_setReg {core : CoreState} {r : BitVec 4} (h : r.toNat < core.model.numRegs)
    (v : Word) :
    (core.setReg r v).regVal = Function.update core.regVal r v := by
  have hset : core.setReg r v = { core with regs := Function.update core.regs r v } := if_pos h
  rw [hset]
  funext r'
  unfold CoreState.regVal
  by_cases heq : r' = r
  · subst heq
    dsimp only
    rw [if_pos h, Function.update_self, Function.update_self]
  · rw [Function.update_of_ne heq]
    dsimp only
    rw [Function.update_of_ne heq]

section Does

variable {imem : Word → Word} {q : Isa}

/-- The core as `execute` begins with it: the program counter is behind the instruction, and it is
counted. -/
def Isa.counted (imem : Word → Word) (q : Isa) : CoreState :=
  { q.core with pc := q.core.pc + 4 }.count (q.fields imem).opcode

/-- An instruction with a result in `rd` does nothing else. -/
theorem Isa.only_loads (h : WritesRd (q.fields imem).opcode) :
    (q.fields imem).stores (q.a imem) (q.b imem) = none ∧ q.taken imem = false ∧
      q.writes imem = [.reg (q.fields imem).rd ((q.done imem).core.regs (q.fields imem).rd)] := by
  unfold Isa.taken Fields.stores Fields.takes Isa.writes
  cases hop : (q.fields imem).opcode with
  | add | sub | mul | and | or | xor | shl | shr | addi | ldw =>
      have hd : (bradIsaDecode (imem q.core.pc)).opcode = _ := hop
      simp only [hd, true_and]
      rfl
  | stw | bz | bnz | jmp | call | ret =>
      rw [hop] at h
      exact h.elim

theorem Isa.does_of_load {v : Source} {ret : Int} {taken : Bool} {access : Option Word}
    (hplain : Plain q.core.model (q.fields imem)) (hop : WritesRd (q.fields imem).opcode)
    (hloads : (q.fields imem).loads (q.a imem) (q.b imem) = some ((q.fields imem).rd, v))
    (hdone : q.done imem =
      ⟨(q.counted imem).setReg (q.fields imem).rd (v.get q.mem), q.mem, ret, taken, access⟩) :
    q.Does imem := by
  have hhas : (q.fields imem).rd.toNat < (q.counted imem).model.numRegs := hplain.has hop
  obtain ⟨hstores, htaken, hwrites⟩ := Isa.only_loads hop
  have hset : (q.counted imem).setReg (q.fields imem).rd (v.get q.mem) =
      { q.counted imem with
        regs :=
          Function.update (q.counted imem).regs (q.fields imem).rd (v.get q.mem) } := if_pos hhas
  constructor
  · rw [hwrites, hloads, hstores, hdone, hset]
    dsimp only
    rw [Function.update_self]
    rfl
  · rw [hloads, Isa.next, hdone]
    exact regVal_setReg hhas (v.get q.mem)
  · rw [hstores, Isa.next, hdone]
    rfl
  · rw [htaken, Isa.next, hdone, hset]
    rfl
  · rw [Isa.next, hdone, hset]
    rfl

/-- An instruction that changes no register leaves the core but for the program counter. -/
theorem Isa.does_of_keep (hloads : (q.fields imem).loads (q.a imem) (q.b imem) = none)
    (hwrites : q.writes imem = commitWrites q.mem none ((q.fields imem).stores (q.a imem)
      (q.b imem)))
    (hregs : (q.done imem).core.regs = q.core.regs)
    (hmodel : (q.done imem).core.model = q.core.model)
    (hmem : (q.done imem).mem = commitMem q.mem ((q.fields imem).stores (q.a imem) (q.b imem)))
    (hpc : (q.done imem).core.pc =
      if q.taken imem then q.core.pc + 4 + (q.fields imem).imm else q.core.pc + 4) :
        q.Does imem := by
  constructor
  · rw [hwrites, hloads]
  · rw [hloads]
    funext r
    exact regVal_congr hmodel hregs r
  · exact hmem
  · exact hpc
  · exact hmodel

theorem Isa.does_of_branch
    (hop : (q.fields imem).opcode = .bz ∨ (q.fields imem).opcode = .bnz ∨
      (q.fields imem).opcode = .jmp)
    (hdone : q.done imem =
      if q.taken imem then .jump (q.counted imem) q.mem (q.core.pc + 4 + (q.fields imem).imm)
      else ⟨q.counted imem, q.mem, 0, false, none⟩) : q.Does imem := by
  have hnone : (q.fields imem).loads (q.a imem) (q.b imem) = none ∧
      (q.fields imem).stores (q.a imem) (q.b imem) = none ∧ q.writes imem = [] := by
    unfold Fields.loads Fields.stores Isa.writes
    have hd : (bradIsaDecode (imem q.core.pc)).opcode = (q.fields imem).opcode := rfl
    obtain hop | hop | hop := hop <;> simp [hd, hop]
  obtain ⟨hloads, hstores, hwrites⟩ := hnone
  apply Isa.does_of_keep hloads
  · rw [hwrites, hstores]
    rfl
  · rw [hdone]
    split_ifs <;> rfl
  · rw [hdone]
    split_ifs <;> rfl
  · rw [hdone, hstores]
    split_ifs <;> rfl
  · rw [hdone]
    split_ifs <;> rfl

/-- In a memory of the full address space no access faults. -/
theorem not_fault (addr : Word) : ¬ 2 ^ 32 < (addr + 4).toNat := Nat.not_lt.mpr (addr + 4).isLt.le

/-- What `execute` does with a plain instruction is what its fields say. -/
theorem Isa.does (hplain : Plain q.core.model (q.fields imem)) : q.Does imem := by
  cases hop : (q.fields imem).opcode with
  | call => exact absurd hop hplain.ne_call
  | ret => exact absurd hop hplain.ne_ret
  | add | sub | mul | and | or | xor | shl | shr =>
      have hd : (bradIsaDecode (imem q.core.pc)).opcode = _ := hop
      have hlite : ¬ ((bradIsaDecode (imem q.core.pc)).opcode = .mul ∧
          q.core.model = .falconLite) := by
        rintro ⟨hmulop, hmodel⟩
        exact hplain.ne_mul hmodel hmulop
      apply Isa.does_of_load (v := .value (aluExec (q.fields imem).opcode (q.a imem) (q.b imem)))
        hplain
      · rw [hop]
        trivial
      · unfold Fields.loads
        simp only [hop]
      · unfold Isa.done execute
        dsimp only
        simp only [hd] at hlite ⊢
        refine (if_neg hlite).trans ?_
        unfold Isa.counted
        rw [hop]
        rfl
  | addi =>
      have hd : (bradIsaDecode (imem q.core.pc)).opcode = .addi := hop
      apply Isa.does_of_load (v := .value (q.a imem + (q.fields imem).imm)) hplain
      · rw [hop]
        trivial
      · unfold Fields.loads
        simp only [hop]
      · unfold Isa.done execute
        simp only [hd]
        unfold Isa.counted
        rw [hop]
        rfl
  | ldw =>
      have hd : (bradIsaDecode (imem q.core.pc)).opcode = .ldw := hop
      apply Isa.does_of_load (v := .load (q.a imem + (q.fields imem).imm)) hplain
      · rw [hop]
        trivial
      · unfold Fields.loads
        simp only [hop]
      · unfold Isa.done execute
        simp only [hd]
        refine (if_neg (not_fault _)).trans ?_
        unfold Isa.counted
        rw [hop]
        rfl
  | stw =>
      have hd : (bradIsaDecode (imem q.core.pc)).opcode = .stw := hop
      have hdone : q.done imem =
          ⟨q.counted imem, commitMem q.mem (some (q.a imem + (q.fields imem).imm, q.b imem)), 0,
            false, some (q.a imem + (q.fields imem).imm)⟩ := by
        unfold Isa.done execute
        simp only [hd]
        refine (if_neg (not_fault _)).trans ?_
        unfold Isa.counted
        rw [hop]
        rfl
      have hstores : (q.fields imem).stores (q.a imem) (q.b imem) =
          some (q.a imem + (q.fields imem).imm, q.b imem) := by
        unfold Fields.stores
        simp only [hop]
      apply Isa.does_of_keep
      · unfold Fields.loads
        simp only [hop]
      · rw [hstores]
        unfold Isa.writes
        simp only [hd]
        rfl
      · rw [hdone]
        rfl
      · rw [hdone]
        rfl
      · rw [hdone, hstores]
      · rw [hdone]
        unfold Isa.taken Fields.takes
        simp only [hop]
        rfl
  | bz =>
      have hd : (bradIsaDecode (imem q.core.pc)).opcode = .bz := hop
      apply Isa.does_of_branch (.inl hop)
      unfold Isa.done execute Isa.taken Fields.takes
      simp only [hd, hop]
      unfold Isa.counted
      rw [hop]
      by_cases hzero : q.a imem = 0
      · rw [hzero]
        exact if_pos hzero
      · rw [beq_eq_false_iff_ne.mpr hzero]
        exact if_neg hzero
  | bnz =>
      have hd : (bradIsaDecode (imem q.core.pc)).opcode = .bnz := hop
      apply Isa.does_of_branch (.inr (.inl hop))
      unfold Isa.done execute Isa.taken Fields.takes
      simp only [hd, hop]
      unfold Isa.counted
      rw [hop]
      by_cases hzero : q.a imem = 0
      · rw [hzero]
        exact if_neg (not_not.mpr hzero)
      · rw [bne_iff_ne.mpr hzero]
        exact if_pos hzero
  | jmp =>
      have hd : (bradIsaDecode (imem q.core.pc)).opcode = .jmp := hop
      apply Isa.does_of_branch (.inr (.inr hop))
      unfold Isa.done execute Isa.taken Fields.takes
      simp only [hd, hop]
      unfold Isa.counted
      rw [hop]
      rfl

end Does

end BradVector.Rtl
