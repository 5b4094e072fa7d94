import BradVector.Bradasm
import BradVector.BradCoreEmu
import Mathlib.Data.BitVec

/-!
# Branches of the 32-bit encoding

What the macros put into the fields of a branch, the decoder takes out of them. The offset is a
distance in bytes of sixteen bits, so it comes back only if the distance fits.
-/

namespace BradVector

open CSem

/-- The four bits of an opcode. -/
def BradOp.nibble (op : BradOp) : BitVec 4 := op.toWord.setWidth 4

theorem BradOp.toWord_eq (op : BradOp) : op.toWord = op.nibble.setWidth 32 := by
  cases op <;> rfl

theorem BradOp.ofNibble_nibble (op : BradOp) : BradOp.ofNibble op.nibble = op := by
  cases op <;> rfl

/-- The four bits of a compressed opcode. -/
def BradCop.nibble (cop : BradCop) : BitVec 4 := cop.toWord.setWidth 4

theorem BradCop.toWord_eq (cop : BradCop) : cop.toWord = cop.nibble.setWidth 32 := by
  cases cop <;> rfl

theorem BradCop.toOp_ne_ret (cop : BradCop) : cop.toOp ≠ .ret := by
  cases cop <;> decide

/-- The word of an instruction with the given fields. -/
def encodedWord (n rd rs1 rs2 : BitVec 4) (imm : Hword) : Word :=
  n.setWidth 32 <<< 28 ||| rd.setWidth 32 <<< 24 ||| rs1.setWidth 32 <<< 20 ||| rs2.setWidth 32 <<<
    16 ||| imm.setWidth 32

theorem bradIsaDecode_encodedWord (op : BradOp) (rd rs1 rs2 : BitVec 4) (imm : Hword) :
    bradIsaDecode (encodedWord op.nibble rd rs1 rs2 imm) =
      ⟨encodedWord op.nibble rd rs1 rs2 imm, op, rd, rs1, rs2, imm⟩ := by
  have hfields : ∀ n : BitVec 4, (encodedWord n rd rs1 rs2 imm).extractLsb' 28 4 = n ∧
      (encodedWord n rd rs1 rs2 imm).extractLsb' 24 4 = rd ∧
      (encodedWord n rd rs1 rs2 imm).extractLsb' 20 4 = rs1 ∧
      (encodedWord n rd rs1 rs2 imm).extractLsb' 16 4 = rs2 ∧
      (encodedWord n rd rs1 rs2 imm).extractLsb' 0 16 = imm := by
    intro n
    refine ⟨?_, ?_, ?_, ?_, ?_⟩ <;> ext i hi <;>
      simp (disch := omega) [encodedWord, BitVec.getLsbD_eq_getElem, decide_eq_false,
        decide_eq_true]
  obtain ⟨hop, hrd, hrs1, hrs2, himm⟩ := hfields op.nibble
  unfold bradIsaDecode
  rw [hop, hrd, hrs1, hrs2, himm, BradOp.ofNibble_nibble]

theorem setWidth_of_lt {r : Word} (h : r < 16) : (r.setWidth 4).setWidth 32 = r := by
  apply BitVec.eq_of_toNat_eq
  rw [BitVec.toNat_setWidth, BitVec.toNat_setWidth]
  have hlt : r.toNat < 16 := h
  omega

/-- The mask of a field cuts a word down to the field's width. -/
theorem and_mask {n : Nat} (hn : n ≤ 32) (w : Word) :
    w &&& BitVec.ofNat 32 (2 ^ n - 1) = (w.setWidth n).setWidth 32 := by
  have hpow : 2 ^ n ≤ 2 ^ 32 := Nat.pow_le_pow_right (by decide) hn
  have hpos : 0 < 2 ^ n := Nat.two_pow_pos n
  have hlt := Nat.mod_lt w.toNat hpos
  apply BitVec.eq_of_toNat_eq
  rw [BitVec.toNat_and, BitVec.toNat_ofNat, Nat.mod_eq_of_lt (by omega),
    Nat.and_two_pow_sub_one_eq_mod, BitVec.toNat_setWidth, BitVec.toNat_setWidth,
    Nat.mod_eq_of_lt (hlt.trans_le hpow)]

theorem bradBR_eq (op : BradOp) {rs1 : Word} (imm : Word) (h : rs1 < 16) :
    bradBR op rs1 imm = encodedWord op.nibble 0 (rs1.setWidth 4) 0 ((imm * 4).setWidth 16) := by
  unfold bradBR encodedWord
  rw [show imm * 4 &&& 0xFFFF = _ from and_mask (by decide : 16 ≤ 32) _, setWidth_of_lt h,
    BradOp.toWord_eq]
  simp

theorem bradJMP_eq (op : BradOp) (imm : Word) :
    bradJMP op imm = encodedWord op.nibble 0 0 0 ((imm * 4).setWidth 16) := by
  unfold bradJMP encodedWord
  rw [show imm * 4 &&& 0xFFFF = _ from and_mask (by decide : 16 ≤ 32) _, BradOp.toWord_eq]
  simp

/-- A distance fits the offset field: a multiple of 4 of sixteen bits with sign. -/
def FitsOffset (distance : Word) : Prop :=
  -32768 ≤ distance.toInt ∧ distance.toInt ≤ 32767 ∧ distance.toInt % 4 = 0

theorem signExtend_toInt (x : Hword) : (x.signExtend 32).toInt = x.toInt :=
  BitVec.toInt_signExtend_of_le (by decide)

/-- A distance that is a multiple of the unit is divided by it. -/
theorem branchOffset_toInt {size : Word} (hsize : size = 2 ∨ size = 4) (target pc : Word)
    (h : (target - (pc + size)).toInt % size.toInt = 0) :
    (Bradasm.branchOffset size target pc).toInt = (target - (pc + size)).toInt / size.toInt := by
  have hdvd := Int.dvd_of_emod_eq_zero h
  have hoff : Bradasm.branchOffset size target pc = (target - (pc + size)).sdiv size := by
    unfold Bradasm.branchOffset
    dsimp only
    rw [if_neg]
    rw [not_not]
    apply BitVec.eq_of_toInt_eq
    rw [BitVec.toInt_srem]
    exact Int.tmod_eq_zero_of_dvd hdvd
  rw [hoff, BitVec.toInt_sdiv, Int.tdiv_eq_ediv_of_dvd hdvd]
  have hlow := BitVec.le_toInt (target - (pc + size))
  have hhigh := BitVec.toInt_lt (x := target - (pc + size))
  have htwo : (2 : Word).toInt = 2 := by decide
  have hfour : (4 : Word).toInt = 4 := by decide
  unfold Int.bmod
  dsimp only
  obtain rfl | rfl := hsize
  · rw [htwo]
    split_ifs <;> omega
  · rw [hfour]
    split_ifs <;> omega

/-- The offset that comes back out of the field is the distance exactly if it fits. -/
theorem offset_returns_iff (target pc : Word) :
    ((Bradasm.branchOffset 4 target pc * 4).setWidth 16).signExtend 32 = target - (pc + 4) ↔
      FitsOffset (target - (pc + 4)) := by
  have hfield : ∀ off : Word, (((off * 4).setWidth 16).signExtend 32).toInt =
      ((off.toNat * 4 % 2 ^ 32 : Nat) : Int).bmod 65536 := by
    intro off
    rw [signExtend_toInt, BitVec.toInt_setWidth, BitVec.toNat_mul]
    rfl
  unfold FitsOffset
  constructor
  · intro hreturns
    rw [← hreturns, hfield]
    unfold Int.bmod
    dsimp only
    split_ifs <;> omega
  · rintro ⟨hlow, hhigh, hmod⟩
    have hdiv := branchOffset_toInt (.inr rfl) target pc hmod
    have hfour : (4 : Word).toInt = 4 := by decide
    rw [BitVec.toInt_eq_toNat_bmod, hfour] at hdiv
    apply BitVec.eq_of_toInt_eq
    rw [hfield]
    generalize (Bradasm.branchOffset 4 target pc).toNat = m at hdiv ⊢
    generalize (target - (pc + 4)).toInt = distance at hlow hhigh hmod hdiv ⊢
    unfold Int.bmod at hdiv ⊢
    dsimp only at hdiv ⊢
    split_ifs at hdiv ⊢ <;> omega

end BradVector
