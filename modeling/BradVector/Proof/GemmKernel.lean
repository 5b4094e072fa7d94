import BradVector.Proof.VectorKernels

/-!
# The kernel of `bvml_gemm`

One launch computes one element of the result: it walks a row of `A` and a column of `B`, counts `K`
down to zero, and adds the old element in. The run is followed exactly, to the number of its
instructions, since the budget of `launch1` has to last for it.
-/

namespace BradVector

open CSem Machine

/-- What a launch is given: the addresses of a row of `A`, of a column of `B` and of an element of
`C`, the bytes from one row of `B` to the next, the length of the sum, and the two factors. -/
structure GemmLaunch where
  row : Nat
  col : Nat
  out : Nat
  stride : Nat
  count : Nat
  alpha : Word
  beta : Word

namespace GemmLaunch

variable (p : GemmLaunch) (F : HostMath)

def args : List Word :=
  [BitVec.ofNat 32 p.row, BitVec.ofNat 32 p.col, BitVec.ofNat 32 p.out, BitVec.ofNat 32 p.count, 4,
    BitVec.ofNat 32 p.stride, 1, p.alpha, p.beta]

/-- The sum over the first `k` elements of the row and the column. -/
def sum (bytes : Nat → Byte) : Nat → Word
  | 0 => 0
  | k + 1 => F.mad (wordAt bytes (p.row + 4 * k)) (wordAt bytes (p.col + p.stride * k))
    (sum bytes k)

/-- What the launch stores. -/
def result (bytes : Nat → Byte) : Word :=
  F.add (F.mul (p.sum F bytes p.count) p.alpha) (F.mul p.beta (wordAt bytes p.out))

/-- All accesses are inside a memory of `size` bytes, and the budget lasts. -/
structure Fits (size : Nat) : Prop where
  row : ∀ k < p.count, p.row + 4 * k + 4 ≤ size
  col : ∀ k < p.count, p.col + p.stride * k + 4 ≤ size
  out : p.out + 4 ≤ size
  count : 8 * p.count ≤ 2 ^ 26

/-- The host's addition of zero leaves the words alone that the kernel moves. -/
structure AddsZero : Prop where
  zero : F.add 0 0 = 0
  row : F.add (BitVec.ofNat 32 p.row) 0 = BitVec.ofNat 32 p.row
  col : F.add (BitVec.ofNat 32 p.col) 0 = BitVec.ofNat 32 p.col
  count : F.add (BitVec.ofNat 32 p.count) 0 = BitVec.ofNat 32 p.count

/-- The registers before iteration `k`. -/
def Regs (bytes : Nat → Byte) (k : Nat) (s : BitVec 8 → Option Word) : Prop :=
  s 0 = some 0 ∧ s 1 = some (p.sum F bytes k) ∧ s 2 = some (BitVec.ofNat 32 (p.row + 4 * k)) ∧
    s 3 = some (BitVec.ofNat 32 (p.col + p.stride * k)) ∧
    s 4 = some (BitVec.ofNat 32 (p.count - k)) ∧ s 18 = some (BitVec.ofNat 32 p.out) ∧
    s 20 = some 4 ∧ s 21 = some (BitVec.ofNat 32 p.stride) ∧ s 22 = some 1 ∧ s 23 = some p.alpha ∧
    s 24 = some p.beta

end GemmLaunch

section Kernel

variable {F : HostMath} {p : GemmLaunch} {d : Device} {img : BvbcImage} {t : Thread} {k : Nat}

attribute [local simp] plain_eq addImm_eq mov Thread.KnowsAll Thread.FitsAll Thread.run Thread.Knows
  Thread.Fits Thread.exec Thread.addr Thread.launch launchRegs sThreadId sArgBase sNumArgs

theorem signExtend_ofNat_toNat {m : Nat} (h : m < 2 ^ 31) :
    ((BitVec.ofNat 32 m).signExtend 64).toNat = m := by
  have hm : (BitVec.ofNat 32 m).toNat = m := by
    rw [BitVec.toNat_ofNat, Nat.mod_eq_of_lt (by omega)]
  rw [signExtend_toNat (by omega), hm]

theorem gemmPrologue_spec (hF : p.AddsZero F) (mem : DevMem) :
    (Thread.launch p.args mem).KnowsAll F gemmPrologue ∧
      (Thread.launch p.args mem).FitsAll F gemmPrologue ∧
      p.Regs F mem.bytes 0 ((Thread.launch p.args mem).run F gemmPrologue).s ∧
      ((Thread.launch p.args mem).run F gemmPrologue).mem = mem := by
  have hzero : F.add 0#32 0#32 = 0#32 := hF.zero
  have hrow : F.add (BitVec.ofNat 32 p.row) 0#32 = _ := hF.row
  have hcol : F.add (BitVec.ofNat 32 p.col) 0#32 = _ := hF.col
  have hcount : F.add (BitVec.ofNat 32 p.count) 0#32 = _ := hF.count
  simp [gemmPrologue, GemmLaunch.args, GemmLaunch.Regs, GemmLaunch.sum, *]

theorem gemmLoop_spec (hk : k < p.count) (hfits : p.Fits t.mem.size)
    (h : p.Regs F t.mem.bytes k t.s) :
    t.KnowsAll F gemmLoop ∧ t.FitsAll F gemmLoop ∧
      p.Regs F t.mem.bytes (k + 1) (t.run F gemmLoop).s ∧ (t.run F gemmLoop).mem = t.mem := by
  have hsize : t.mem.size ≤ 2 ^ 26 := t.mem.size_le
  have hrow := hfits.row k hk
  have hcol := hfits.col k hk
  have hrow' := signExtend_ofNat_toNat (show p.row + 4 * k < 2 ^ 31 by omega)
  have hcol' := signExtend_ofNat_toNat (show p.col + p.stride * k < 2 ^ 31 by omega)
  have hnext : BitVec.ofNat 32 (p.row + 4 * (k + 1)) = BitVec.ofNat 32 (p.row + 4 * k) + 4#32 := by
    rw [Nat.mul_succ, ← Nat.add_assoc, BitVec.ofNat_add]
  have hnext' : BitVec.ofNat 32 (p.col + p.stride * (k + 1)) =
      BitVec.ofNat 32 (p.col + p.stride * k) + BitVec.ofNat 32 p.stride := by
    rw [Nat.mul_succ, ← Nat.add_assoc, BitVec.ofNat_add]
  simp [GemmLaunch.Regs] at h
  obtain ⟨h0, h1, h2, h3, h4, h18, h20, h21, h22, h23, h24⟩ := h
  simp [GemmLaunch.Regs, GemmLaunch.sum, gemmLoop, countdown_succ hk, *]

theorem gemmEpilogue_spec (hfits : p.Fits t.mem.size) (h : p.Regs F t.mem.bytes p.count t.s) :
    t.KnowsAll F gemmEpilogue ∧ t.FitsAll F gemmEpilogue ∧
      (t.run F gemmEpilogue).mem = t.mem.poke32 p.out (p.result F t.mem.bytes) := by
  have hsize : t.mem.size ≤ 2 ^ 26 := t.mem.size_le
  have hout := hfits.out
  have hout' := signExtend_ofNat_toNat (show p.out < 2 ^ 31 by omega)
  simp [GemmLaunch.Regs] at h
  obtain ⟨h0, h1, h2, h3, h4, h18, h20, h21, h22, h23, h24⟩ := h
  simp [GemmLaunch.result, gemmEpilogue, *]

/-! ### The run -/

theorem gemmLoop_steps (himg : img.summary = bvmlSummary) (hk : k < p.count)
    (hfits : p.Fits t.mem.size) (hregs : p.Regs F t.mem.bytes k t.s) (h : d.At img 36 t) :
    ∃ e t', d.Steps F 9 e ∧ e.At img 36 t' ∧ p.Regs F t.mem.bytes (k + 1) t'.s ∧
      t'.mem = t.mem := by
  have htest : img.Holds 36 [plain .cmp 0 4 0, branchP0 7] := holds_of_summary himg (by decide) rfl
  have hbody : img.Holds 38 gemmLoop := holds_of_summary himg (by decide) rfl
  have hback : img.Holds 44 [branch 0xF7] := holds_of_summary himg (by decide) rfl
  have hcount := hfits.count
  have hne : BitVec.ofNat 32 (p.count - k) ≠ 0 := by
    intro h0
    have hnat := congrArg BitVec.toNat h0
    rw [BitVec.toNat_ofNat, Nat.mod_eq_of_lt (by omega)] at hnat
    exact absurd hnat (Nat.sub_ne_zero_of_lt hk)
  obtain ⟨d₁, hd₁, h₁⟩ := h.test_steps (F := F) htest (by decide : _ = BitVec.ofNat 32 45)
    hregs.1 hregs.2.2.2.2.1
  rw [if_neg hne] at h₁
  obtain ⟨hknows, hin, hregs', hmem⟩ := gemmLoop_spec (t := t.test _) hk hfits hregs
  obtain ⟨d₂, hd₂, h₂⟩ := h₁.run_steps hbody hknows hin
  obtain ⟨d₃, hd₃, h₃⟩ :=
    h₂.branch_next (F := F) (b := true) hback.head (.inl (by simp [branch_eq]))
    (by decide : _ = BitVec.ofNat 32 36) (.inl ⟨by simp [branch_eq], rfl⟩)
  exact ⟨d₃, _, (hd₁.trans hd₂).trans (steps_one hd₃), h₃, hregs', hmem⟩

theorem gemmLoop_run (himg : img.summary = bvmlSummary) (hfits : p.Fits t.mem.size) {j : Nat}
    (hj : k + j = p.count) (hregs : p.Regs F t.mem.bytes k t.s) (h : d.At img 36 t) :
    ∃ e t', d.Steps F (9 * j + 2) e ∧ e.At img 45 t' ∧ p.Regs F t.mem.bytes p.count t'.s ∧
      t'.mem = t.mem := by
  induction j generalizing d t k with
  | zero =>
      obtain rfl : k = p.count := hj
      have htest : img.Holds 36 [plain .cmp 0 4 0, branchP0 7] :=
        holds_of_summary himg (by decide) rfl
      obtain ⟨d₁, hd₁, h₁⟩ := h.test_steps (F := F) htest (by decide : _ = BitVec.ofNat 32 45)
        hregs.1 hregs.2.2.2.2.1
      rw [if_pos (by rw [Nat.sub_self]; rfl)] at h₁
      exact ⟨d₁, _, hd₁, h₁, hregs, rfl⟩
  | succ j ih =>
      obtain ⟨e, t', he, hat, hregs', hmem⟩ := gemmLoop_steps himg (by omega) hfits hregs h
      rw [← hmem] at hfits hregs'
      obtain ⟨e', t'', he', hat', hregs'', hmem'⟩ := ih hfits (by omega) hregs' hat
      refine ⟨e', t'', ?_, hat', by rwa [← hmem], hmem'.trans hmem⟩
      rw [show 9 * (j + 1) + 2 = 9 + (9 * j + 2) by omega]
      exact he.trans he'

/-- **The kernel.** It stores its result and nothing else, in `9 * count + 12` instructions. -/
theorem gemm_steps (himg : img.summary = bvmlSummary) {mem : DevMem} (hF : p.AddsZero F)
    (hfits : p.Fits mem.size) (h : d.At img 32 (Thread.launch p.args mem)) :
    ∃ e, d.Steps F (9 * p.count + 12) e ∧ e.warp.active = 0 ∧
      e.mem = mem.poke32 p.out (p.result F mem.bytes) ∧ e.img = img := by
  have hpro : img.Holds 32 gemmPrologue := holds_of_summary himg (by decide) rfl
  have hepi : img.Holds 45 gemmEpilogue := holds_of_summary himg (by decide) rfl
  have hexit : img.Holds 50 [exitInsn] := holds_of_summary himg (by decide) rfl
  obtain ⟨hk, hin, hregs, hmem⟩ := gemmPrologue_spec hF mem
  obtain ⟨d₁, hd₁, h₁⟩ := h.run_steps hpro hk hin
  rw [← hmem] at hfits hregs
  obtain ⟨d₂, t', hd₂, h₂, hregs', hmem'⟩ := gemmLoop_run himg hfits (Nat.zero_add _) hregs h₁
  rw [← hmem'] at hfits hregs'
  obtain ⟨hk', hin', hres⟩ := gemmEpilogue_spec hfits hregs'
  obtain ⟨d₃, hd₃, h₃⟩ := h₂.run_steps hepi hk' hin'
  obtain ⟨d₄, hd₄, hactive, hmem₄, himg₄⟩ := h₃.exit_next (F := F) hexit.head
    (by simp [exitInsn, plain_eq])
  refine ⟨d₄, ?_, hactive, ?_, himg₄⟩
  · rw [show 9 * p.count + 12 = 4 + (9 * p.count + 2) + 5 + 1 by omega]
    exact ((hd₁.trans hd₂).trans hd₃).trans (steps_one hd₄)
  · rw [hmem₄, hres, hmem', hmem]

end Kernel

end BradVector
