import BradVector.Proof.Lockstep

/-!
# Counting loops

The instructions of the kernels by name, and the loop most of the kernels are: a body that counts a
register down, and a test for zero behind it. The loop rule is about runs that halt, in which every
access the thread makes is inside the memory.
-/

namespace BradVector

open CSem Machine

/-! ### Instructions -/

/-- An instruction of the kernels without predicate and immediate. -/
def plain (op : Opcode) (dst src1 src2 : BitVec 8) : BvInsn :=
  bvDecode (bven op.toByte 0 dst src1 src2 0 0 0)

/-- `ADDi`. -/
def addImm (dst src imm : BitVec 8) : BvInsn :=
  bvDecode (bven Opcode.addi.toByte 0 dst src 0 imm 0 0)

/-- `MOV`, for which the assembler emits `ADDi` with a zero. -/
def mov (dst src : BitVec 8) : BvInsn := addImm dst src 0

/-- `BR_COND@P0`. -/
def branchP0 (imm : BitVec 8) : BvInsn := bvDecode (bven Opcode.brCond.toByte 1 0 0 0 imm 0 0)

def branch (imm : BitVec 8) : BvInsn := bvDecode (bven Opcode.br.toByte 0 0 0 0 imm 0 0)

/-- The end of a counting loop: out of it if `ctr` is zero, and back otherwise. -/
def countdown (ctr back : BitVec 8) : List BvInsn :=
  [plain .cmp 0 ctr 0, branchP0 1, branch back]

section Fields

variable (op : Opcode) (dst src src1 src2 imm : BitVec 8)

theorem plain_eq : plain op dst src1 src2 =
    { raw := bven op.toByte 0 dst src1 src2 0 0 0
      op := op.toByte, pred := 0, dst, src1, src2, imm := 0, flags := 0, mod := 0 } :=
  bvDecode_bven ..

theorem addImm_eq : addImm dst src imm =
    { raw := bven Opcode.addi.toByte 0 dst src 0 imm 0 0
      op := Opcode.addi.toByte, pred := 0, dst, src1 := src, src2 := 0, imm, flags := 0
      mod := 0 } :=
  bvDecode_bven ..

theorem branchP0_eq : branchP0 imm =
    { raw := bven Opcode.brCond.toByte 1 0 0 0 imm 0 0
      op := Opcode.brCond.toByte, pred := 1, dst := 0, src1 := 0, src2 := 0, imm, flags := 0
      mod := 0 } :=
  bvDecode_bven ..

theorem branch_eq : branch imm =
    { raw := bven Opcode.br.toByte 0 0 0 0 imm 0 0
      op := Opcode.br.toByte, pred := 0, dst := 0, src1 := 0, src2 := 0, imm, flags := 0
      mod := 0 } :=
  bvDecode_bven ..

end Fields

/-! ### The loop -/

@[simp]
theorem Thread.set_s (t : Thread) (dst r : BitVec 8) (v : Option Word) :
    (t.set dst v).s r = if dst = 0 then t.s r else if r = dst then v else t.s r := by
  unfold Thread.set
  rw [show sZero = 0 from rfl]
  split
  · rfl
  · simp [Function.update_apply]

section Loop

variable {F : HostMath} {d : Device} {img : BvbcImage} {t : Thread} {body : List BvInsn}
  {head : Nat} {ctr back : BitVec 8}

theorem BvbcImage.Holds.append {pc : Nat} {a b : List BvInsn} (h : img.Holds pc (a ++ b)) :
    img.Holds pc a ∧ img.Holds (pc + a.length) b := by
  refine ⟨fun k hk => ?_, fun k hk => ?_⟩
  · have hf := h k (by rw [List.length_append]; omega)
    rwa [List.getElem_append_left hk] at hf
  · have hf := h (a.length + k) (by rw [List.length_append]; omega)
    rw [List.getElem_append_right (Nat.le_add_right _ _)] at hf
    simpa [Nat.add_assoc] using hf


/-- The thread after `CMP` of `w` with zero. -/
def Thread.test (t : Thread) (w : Word) : Thread := { t with p0 := some (if w = 0 then 1 else 0) }

theorem Device.At.test_steps {pc target : Nat} {ctr imm : BitVec 8} {w : Word} (h : d.At img pc t)
    (hc : img.Holds pc [plain .cmp 0 ctr 0, branchP0 imm])
    (htarget : BitVec.ofNat 32 (pc + 1) + 1 + imm.signExtend 32 = BitVec.ofNat 32 target)
    (hzero : t.s 0 = some 0) (hctr : t.s ctr = some w) :
    ∃ e, d.Steps F 2 e ∧ e.At img (if w = 0 then target else pc + 2) (t.test w) := by
  have hexec : t.exec F (plain .cmp 0 ctr 0) = t.test w := by
    simp [Thread.exec, Thread.test, plain_eq, compare, ccEq, hctr, show t.s 0#8 = some 0 from hzero]
  have hb : decide (w = 0) = decide ((if w = 0 then 1 else 0 : Word) ≠ 0) := by
    by_cases hw : w = 0 <;> simp [hw]
  obtain ⟨d₁, hd₁, h₁⟩ := h.exec_next (F := F) hc.head (by simp [Thread.Knows, plain_eq])
    (by simp [Thread.Fits, plain_eq])
  rw [hexec] at h₁
  obtain ⟨d₂, hd₂, h₂⟩ := h₁.branch_next (F := F) (b := decide (w = 0)) hc.tail.head
    (.inr (by simp [branchP0_eq])) (by simpa [branchP0_eq] using htarget)
    (.inr ⟨by simp [branchP0_eq], _, rfl, hb⟩)
  refine ⟨d₂, ?_, by simpa using h₂⟩
  exact (after_succ_of_ok hd₁).trans (after_one.trans hd₂)

theorem Device.At.countdown_steps {pc head : Nat} {ctr back : BitVec 8} {w : Word}
    (h : d.At img pc t) (hc : img.Holds pc (countdown ctr back))
    (hback : BitVec.ofNat 32 (pc + 2) + 1 + back.signExtend 32 = BitVec.ofNat 32 head)
    (hzero : t.s 0 = some 0) (hctr : t.s ctr = some w) :
    ∃ e, d.Steps F (if w = 0 then 2 else 3) e ∧
      e.At img (if w = 0 then pc + 3 else head) (t.test w) := by
  have hout : BitVec.ofNat 32 (pc + 1) + 1 + (1 : BitVec 8).signExtend 32 =
      BitVec.ofNat 32 (pc + 3) := by
    rw [show (1 : BitVec 8).signExtend 32 = 1 from rfl]
    apply BitVec.eq_of_toNat_eq
    simp only [BitVec.ofNat_eq_ofNat, BitVec.toNat_add, BitVec.toNat_ofNat]
    omega
  obtain ⟨d₁, hd₁, h₁⟩ := h.test_steps (F := F) (BvbcImage.Holds.append (a := [_, _]) hc).1 hout
    hzero hctr
  by_cases hw : w = 0
  · simp only [if_pos hw] at h₁ ⊢
    exact ⟨d₁, hd₁, h₁⟩
  · simp only [if_neg hw] at h₁ ⊢
    obtain ⟨d₂, hd₂, h₂⟩ := h₁.branch_next (F := F) (b := true) hc.tail.tail.head
      (.inl (by simp [branch_eq])) (by simpa [branch_eq] using hback)
      (.inl ⟨by simp [branch_eq], rfl⟩)
    exact ⟨d₂, (after_add_of_ok hd₁).trans (after_one.trans hd₂), h₂⟩

theorem Device.At.countdown_halts {pc head : Nat} {ctr back : BitVec 8} {w : Word}
    {block : List BvInsn} (h : d.At img pc t) (hd : d.Halts F)
    (hc : img.Holds pc (block ++ countdown ctr back)) (hk : t.KnowsAll F block)
    (hback : BitVec.ofNat 32 (pc + block.length + 2) + 1 + back.signExtend 32 =
      BitVec.ofNat 32 head)
    (hzero : (t.run F block).s 0 = some 0) (hctr : (t.run F block).s ctr = some w) :
    t.FitsAll F block ∧ ∃ e : Device, e.Halts F ∧
      e.At img (if w = 0 then pc + block.length + 3 else head) ((t.run F block).test w) := by
  obtain ⟨hfits, d₁, hd₁, h₁⟩ := h.run_halts hd hc.append.1 hk
  obtain ⟨e, hsteps, he⟩ := h₁.countdown_steps (F := F) hc.append.2 hback hzero hctr
  exact ⟨hfits, e, hd₁.of_steps hsteps, he⟩

/-- **Counting loops.** A loop that counts `ctr` down from `n`, and whose body takes the registers
from `I j` to `I (j + 1)`, passes through all of these, if the run halts. In every iteration the
accesses of the body are inside the memory. -/
theorem Device.At.loop_halts {I : Nat → (BitVec 8 → Option Word) → Prop} {n pc : Nat}
    {ctr back : BitVec 8} (hn : 0 < n) (hn32 : n ≤ 2 ^ 32) (h : d.At img pc t) (hd : d.Halts F)
    (hI : I 0 t.s) (hc : img.Holds pc (body ++ countdown ctr back))
    (hback : BitVec.ofNat 32 (pc + body.length + 2) + 1 + back.signExtend 32 = BitVec.ofNat 32 pc)
    (hctr : ∀ j s, I j s → s 0 = some 0 ∧ s ctr = some (BitVec.ofNat 32 (n - j)))
    (hbody : ∀ j < n, ∀ t : Thread, I j t.s → t.KnowsAll F body ∧ I (j + 1) (t.run F body).s) :
    (∀ j < n, ∃ t' : Thread, I j t'.s ∧ t'.mem.size = t.mem.size ∧ t'.FitsAll F body) ∧
      ∃ (e : Device) (t' : Thread), e.Halts F ∧ e.At img (pc + body.length + 3) t' ∧ I n t'.s ∧
        t'.mem.size = t.mem.size := by
  -- the iterations up to `j` are done, and the loop goes on
  have hiter (j : Nat) (hj : j < n) : ∃ (e : Device) (t' : Thread), e.Halts F ∧ e.At img pc t' ∧
      I j t'.s ∧ t'.mem.size = t.mem.size := by
    induction j with
    | zero => exact ⟨d, t, hd, h, hI, rfl⟩
    | succ j ih =>
        obtain ⟨e, t', he, hat, hIj, hsize⟩ := ih (by omega)
        obtain ⟨hk, hnext⟩ := hbody j (by omega) t' hIj
        obtain ⟨hzero, hcount⟩ := hctr _ _ hnext
        obtain ⟨-, e', he', hat'⟩ := hat.countdown_halts he hc hk hback hzero hcount
        rw [if_neg] at hat'
        · exact ⟨e', _, he', hat', hnext, (t'.run_memSize body).trans hsize⟩
        · intro h0
          have hnat := congrArg BitVec.toNat h0
          rw [BitVec.toNat_ofNat, Nat.mod_eq_of_lt (by omega)] at hnat
          exact absurd hnat (Nat.sub_ne_zero_of_lt hj)
  constructor
  · intro j hj
    obtain ⟨e, t', he, hat, hIj, hsize⟩ := hiter j hj
    exact ⟨t', hIj, hsize, hat.fitsAll_of_halts he hc.append.1 (hbody j hj t' hIj).1⟩
  · obtain ⟨m, rfl⟩ : ∃ m, n = m + 1 := ⟨n - 1, by omega⟩
    obtain ⟨e, t', he, hat, hIm, hsize⟩ := hiter m (by omega)
    obtain ⟨hk, hnext⟩ := hbody m (by omega) t' hIm
    obtain ⟨hzero, hcount⟩ := hctr _ _ hnext
    obtain ⟨-, e', he', hat'⟩ := hat.countdown_halts he hc hk hback hzero hcount
    rw [if_pos (by rw [Nat.sub_self]; rfl)] at hat'
    exact ⟨e', _, he', hat', hnext, (t'.run_memSize body).trans hsize⟩

/-- **The length of a counting loop.** Where every access of the body is inside the memory, the loop
takes its body, a test and a branch back for every iteration, without the last branch. -/
theorem Device.At.loop_steps {I : Nat → Thread → Prop} {n pc : Nat} {ctr back : BitVec 8}
    (hn : 0 < n)
    (hn32 : n ≤ 2 ^ 32) (h : d.At img pc t) (hI : I 0 t)
    (hc : img.Holds pc (body ++ countdown ctr back))
    (hback : BitVec.ofNat 32 (pc + body.length + 2) + 1 + back.signExtend 32 = BitVec.ofNat 32 pc)
    (hctr : ∀ j t, I j t → t.s 0 = some 0 ∧ t.s ctr = some (BitVec.ofNat 32 (n - j)))
    (hbody : ∀ j < n, ∀ t, I j t → t.KnowsAll F body ∧ t.FitsAll F body ∧ I (j + 1) (t.run F body))
    (htest : ∀ j t w, I j t → I j (t.test w)) :
    ∃ e t', d.Steps F (n * (body.length + 3) - 1) e ∧ e.At img (pc + body.length + 3) t' ∧
      I n t' := by
  -- one iteration, up to the instruction behind its test
  have hnext (j : Nat) (hj : j < n) {d : Device} {t : Thread} (h : d.At img pc t) (hI : I j t) :
      ∃ e t', d.Steps F (body.length + if j + 1 = n then 2 else 3) e ∧
        e.At img (if j + 1 = n then pc + body.length + 3 else pc) t' ∧ I (j + 1) t' := by
    obtain ⟨hk, hfits, hI'⟩ := hbody j hj t hI
    obtain ⟨hzero, hcount⟩ := hctr _ _ hI'
    obtain ⟨d₁, hd₁, h₁⟩ := h.run_steps hc.append.1 hk hfits
    obtain ⟨d₂, hd₂, h₂⟩ := h₁.countdown_steps (F := F) hc.append.2 hback hzero hcount
    have hlast : BitVec.ofNat 32 (n - (j + 1)) = 0 ↔ j + 1 = n := by
      rw [← BitVec.toNat_inj, BitVec.toNat_ofNat, Nat.mod_eq_of_lt (by omega),
        show (0 : Word).toNat = 0 from rfl]
      omega
    simp only [hlast] at hd₂ h₂
    exact ⟨d₂, _, hd₁.trans hd₂, h₂, htest _ _ _ hI'⟩
  have hiter (j : Nat) (hj : j < n) : ∃ e t', d.Steps F (j * (body.length + 3)) e ∧
      e.At img pc t' ∧ I j t' := by
    induction j with
    | zero =>
        rw [Nat.zero_mul]
        exact ⟨d, t, rfl, h, hI⟩
    | succ j ih =>
        obtain ⟨e, t', he, hat, hIj⟩ := ih (by omega)
        obtain ⟨e', t'', he', hat', hI'⟩ := hnext j (by omega) hat hIj
        rw [if_neg (by omega)] at he' hat'
        rw [Nat.succ_mul]
        exact ⟨e', t'', he.trans he', hat', hI'⟩
  obtain ⟨m, rfl⟩ : ∃ m, n = m + 1 := ⟨n - 1, by omega⟩
  obtain ⟨e, t', he, hat, hIm⟩ := hiter m (by omega)
  obtain ⟨e', t'', he', hat', hI'⟩ := hnext m (by omega) hat hIm
  rw [if_pos rfl] at he' hat'
  refine ⟨e', t'', ?_, hat', hI'⟩
  rw [show (m + 1) * (body.length + 3) - 1 = m * (body.length + 3) + (body.length + 2) by
    rw [Nat.succ_mul]; omega]
  exact he.trans he'

end Loop

end BradVector
