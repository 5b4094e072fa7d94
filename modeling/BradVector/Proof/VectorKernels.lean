import BradVector.Proof.Kernels

/-!
# Where the vector kernels store

A kernel that maps vectors to a vector stores every element of its result, so a run that halts has
had room for all of them. The base address of a vector is moved into a working register by a
floating-point addition of zero, which is all that is asked of the host's arithmetic.
-/

namespace BradVector

open CSem

/-- `x + 0.0f` is `x`, for the bit patterns of small floats. Addresses and counts are among them. -/
def HostMath.AddsZero (F : HostMath) : Prop := ∀ w : Word, w.toNat < 2 ^ 28 → F.add w 0 = w

section AddsZero

variable {F : HostMath} (hF : F.AddsZero)
include hF

theorem HostMath.AddsZero.zero : F.add 0#32 0#32 = 0#32 := hF 0 (by decide)

theorem HostMath.AddsZero.addr {x : Word} (hx : x.toNat ≤ 2 ^ 26) : F.add x 0#32 = x :=
  hF x (by omega)

theorem HostMath.AddsZero.count {n : Nat} (hn : 4 * n ≤ 2 ^ 26) :
    F.add (BitVec.ofNat 32 n) 0#32 = BitVec.ofNat 32 n := by
  refine hF _ ?_
  rw [BitVec.toNat_ofNat, Nat.mod_eq_of_lt (by omega)]
  omega

end AddsZero

/-! ### Addresses and counts -/

@[simp]
theorem floatOfImm_zero : floatOfImm 0#8 = 0#32 := rfl

/-- Element `j` of a vector of floats at `x`. -/
def elemAddr (x : Word) (j : Nat) : Word := x + BitVec.ofNat 32 (4 * j)

theorem elemAddr_zero (x : Word) : elemAddr x 0 = x := by simp [elemAddr]

theorem elemAddr_succ (x : Word) (j : Nat) : elemAddr x (j + 1) = elemAddr x j + 4 := by
  unfold elemAddr
  rw [Nat.mul_succ, BitVec.ofNat_add, ← BitVec.add_assoc]
  rfl

theorem countdown_succ {n j : Nat} (h : j < n) :
    BitVec.ofNat 32 (n - (j + 1)) = BitVec.ofNat 32 (n - j) - 1 := by
  rw [show n - j = n - (j + 1) + 1 by omega, BitVec.ofNat_add]
  exact (BitVec.add_sub_cancel _ _).symm

theorem signExtend_toNat {x : Word} (hx : x.toNat < 2 ^ 31) :
    (x.signExtend 64).toNat = x.toNat := by
  rw [BitVec.signExtend_eq_setWidth_of_msb_false
    (by rw [BitVec.msb_eq_false_iff_two_mul_lt]; omega)]
  rw [BitVec.toNat_setWidth]
  omega

theorem elemAddr_last {x : Word} {n : Nat} (hx : x.toNat ≤ 2 ^ 26) (hn : 4 * n ≤ 2 ^ 26)
    (hpos : 0 < n) :
    ((elemAddr x (n - 1)).signExtend 64).toNat + 4 = x.toNat + 4 * n := by
  have hto : (elemAddr x (n - 1)).toNat = x.toNat + 4 * (n - 1) := by
    rw [elemAddr, BitVec.toNat_add, BitVec.toNat_ofNat]
    omega
  rw [signExtend_toNat (by omega), hto]
  omega

/-! ### The kernels -/

section Kernels

variable {F : HostMath} {d : Device} {img : BvbcImage} {mem : DevMem} {n : Nat} {x y o : Word}

attribute [local simp] plain_eq addImm_eq mov Thread.KnowsAll Thread.FitsAll Thread.run Thread.Knows
  Thread.Fits Thread.exec Thread.addr Thread.launch launchRegs sThreadId sArgBase sNumArgs

/-- What a vector kernel's loop does in iteration `j`: its registers go from `I j` to `I (j + 1)`,
and it stores element `j` of the result at `o`. -/
structure StoreLoop (F : HostMath) (body : List BvInsn) (ctr : BitVec 8) (o : Word) (n : Nat)
    (I : Nat → (BitVec 8 → Option Word) → Prop) : Prop where
  counts : ∀ j s, I j s → s 0 = some 0 ∧ s ctr = some (BitVec.ofNat 32 (n - j))
  knows : ∀ j < n, ∀ t : Thread, I j t.s → t.KnowsAll F body
  next : ∀ j < n, ∀ t : Thread, I j t.s → I (j + 1) (t.run F body).s
  stores : ∀ j < n, ∀ t : Thread, I j t.s → t.FitsAll F body →
    ((elemAddr o j).signExtend 64).toNat + 4 ≤ t.mem.size

variable {I : Nat → (BitVec 8 → Option Word) → Prop} {t : Thread} {pc : Nat} {ctr back : BitVec 8}
  {prologue body : List BvInsn}

theorem StoreLoop.inside (hloop : StoreLoop F body ctr o n I) (hn : 0 < n) (hlen : 4 * n ≤ 2 ^ 26)
    (ho : o.toNat ≤ 2 ^ 26) (h : d.At img pc t) (hd : d.Halts F) (hI : I 0 t.s)
    (hc : img.Holds pc (body ++ countdown ctr back))
    (hback : BitVec.ofNat 32 (pc + body.length + 2) + 1 + back.signExtend 32 =
      BitVec.ofNat 32 pc) : o.toNat + 4 * n ≤ t.mem.size := by
  obtain ⟨hiter, -⟩ := h.loop_halts hn (by omega) hd hI hc hback hloop.counts
    fun j hj t ht => ⟨hloop.knows j hj t ht, hloop.next j hj t ht⟩
  obtain ⟨t', ht', hsize, hfits⟩ := hiter (n - 1) (by omega)
  have hlast := hloop.stores (n - 1) (by omega) t' ht' hfits
  rwa [elemAddr_last ho hlen hn, hsize] at hlast

theorem StoreLoop.inside_of_prologue (hloop : StoreLoop F body ctr o n I) (hn : 0 < n)
    (hlen : 4 * n ≤ 2 ^ 26) (ho : o.toNat ≤ 2 ^ 26) (h : d.At img pc t) (hd : d.Halts F)
    (hstart : t.KnowsAll F prologue ∧ I 0 (t.run F prologue).s)
    (hc : img.Holds pc (prologue ++ (body ++ countdown ctr back)))
    (hback : BitVec.ofNat 32 (pc + prologue.length + body.length + 2) + 1 + back.signExtend 32 =
      BitVec.ofNat 32 (pc + prologue.length)) : o.toNat + 4 * n ≤ t.mem.size := by
  obtain ⟨-, e, he, hat⟩ := h.run_halts hd hc.append.1 hstart.1
  have hin := hloop.inside hn hlen ho hat he hstart.2 hc.append.2 hback
  rwa [Thread.run_memSize] at hin

/-- The kernel of BVN at `pc` stores all elements of a result at `o` in a run that halts. -/
def StoresResult (F : HostMath) (pc : Nat) (args : (o n : Word) → List Word) : Prop :=
  ∀ (d : Device) (img : BvbcImage) (mem : DevMem) (n : Nat) (o : Word), img.summary = bvnSummary →
    0 < n → 4 * n ≤ 2 ^ 26 → o.toNat ≤ 2 ^ 26 → d.Halts F →
      d.At img pc (Thread.launch (args o (BitVec.ofNat 32 n)) mem) → o.toNat + 4 * n ≤ mem.size

/-! #### `relu` -/

def ReluRegs (o : Word) (n j : Nat) (s : BitVec 8 → Option Word) : Prop :=
  (s 0 = some 0 ∧ s 23 = some (BitVec.ofNat 32 (n - j))) ∧ s 21 = some (elemAddr 0 j) ∧
    s 22 = some (elemAddr o j) ∧ s 19 = some 4 ∧ s 20 = some 1 ∧ ∃ z, s 24 = some z

theorem reluLoop_stores : StoreLoop F reluLoop 23 o n (ReluRegs o n) := by
  constructor
  · exact fun j s h => h.1
  all_goals
    intro j hj t h
    simp [ReluRegs] at h
    obtain ⟨⟨h0, h23⟩, h21, h22, h19, h20, z, h24⟩ := h
    simp [ReluRegs, elemAddr_succ, countdown_succ hj, reluLoop, *]

theorem relu_stores (hF : F.AddsZero) : StoresResult F 0 fun o n => [0, o, n, 4, 1] := by
  intro d img mem n o himg hn hlen ho hd h
  have hcode : img.Holds 0 (reluPrologue ++ (reluLoop ++ countdown 23 0xF7)) :=
    holds_of_summary himg (by decide) rfl
  refine reluLoop_stores.inside_of_prologue hn hlen ho h hd ?_ hcode (by decide)
  simp [reluPrologue, ReluRegs, elemAddr_zero, hF.zero, hF.addr ho, hF.count hlen]

/-! #### `affine` -/

def AffineRegs (o scale bias : Word) (n j : Nat) (s : BitVec 8 → Option Word) : Prop :=
  (s 0 = some 0 ∧ s 25 = some (BitVec.ofNat 32 (n - j))) ∧ s 23 = some (elemAddr 0 j) ∧
    s 24 = some (elemAddr o j) ∧ s 18 = some scale ∧ s 19 = some bias ∧ s 21 = some 4 ∧
      s 22 = some 1

theorem affineLoop_stores (scale bias : Word) :
    StoreLoop F affineLoop 25 o n (AffineRegs o scale bias n) := by
  constructor
  · exact fun j s h => h.1
  all_goals
    intro j hj t h
    simp [AffineRegs] at h
    obtain ⟨⟨h0, h25⟩, h23, h24, h18, h19, h21, h22⟩ := h
    simp [AffineRegs, elemAddr_succ, countdown_succ hj, affineLoop, *]

theorem affine_stores (hF : F.AddsZero) (scale bias : Word) :
    StoresResult F 14 fun o n => [0, o, scale, bias, n, 4, 1] := by
  intro d img mem n o himg hn hlen ho hd h
  have hcode : img.Holds 14 (affinePrologue ++ (affineLoop ++ countdown 25 0xF6)) :=
    holds_of_summary himg (by decide) rfl
  refine (affineLoop_stores scale bias).inside_of_prologue hn hlen ho h hd ?_ hcode (by decide)
  simp [affinePrologue, AffineRegs, elemAddr_zero, hF.zero, hF.addr ho, hF.count hlen]

/-! #### `sigmul` -/

def SigmulRegs (o c : Word) (n j : Nat) (s : BitVec 8 → Option Word) : Prop :=
  (s 0 = some 0 ∧ s 24 = some (BitVec.ofNat 32 (n - j))) ∧ s 22 = some (elemAddr 0 j) ∧
    s 23 = some (elemAddr o j) ∧ s 19 = some 4 ∧ s 20 = some 1 ∧ s 21 = some c

theorem sigmulLoop_stores (c : Word) : StoreLoop F sigmulLoop 24 o n (SigmulRegs o c n) := by
  constructor
  · exact fun j s h => h.1
  all_goals
    intro j hj t h
    simp [SigmulRegs] at h
    obtain ⟨⟨h0, h24⟩, h22, h23, h19, h20, h21⟩ := h
    simp [SigmulRegs, elemAddr_succ, countdown_succ hj, sigmulLoop, *]

theorem sigmul_stores (hF : F.AddsZero) (c : Word) :
    StoresResult F 68 fun o n => [0, o, n, 4, 1, c] := by
  intro d img mem n o himg hn hlen ho hd h
  have hcode : img.Holds 68 (sigmulPrologue ++ (sigmulLoop ++ countdown 24 0xF3)) :=
    holds_of_summary himg (by decide) rfl
  refine (sigmulLoop_stores c).inside_of_prologue hn hlen ho h hd ?_ hcode (by decide)
  simp [sigmulPrologue, SigmulRegs, elemAddr_zero, hF.zero, hF.addr ho, hF.count hlen]

/-! #### `saxpy` -/

def SaxpyRegs (y o a : Word) (n j : Nat) (s : BitVec 8 → Option Word) : Prop :=
  (s 0 = some 0 ∧ s 26 = some (BitVec.ofNat 32 (n - j))) ∧ s 23 = some (elemAddr 0 j) ∧
    s 24 = some (elemAddr y j) ∧ s 25 = some (elemAddr o j) ∧ s 19 = some a ∧ s 21 = some 4 ∧
      s 22 = some 1

theorem saxpyLoop_stores (y a : Word) : StoreLoop F saxpyLoop 26 o n (SaxpyRegs y o a n) := by
  constructor
  · exact fun j s h => h.1
  all_goals
    intro j hj t h
    simp [SaxpyRegs] at h
    obtain ⟨⟨h0, h26⟩, h23, h24, h25, h19, h21, h22⟩ := h
    simp [SaxpyRegs, elemAddr_succ, countdown_succ hj, saxpyLoop, *]

theorem saxpy_inside {a : Word} (hF : F.AddsZero) (himg : img.summary = bvmlSummary) (hn : 0 < n)
    (hlen : 4 * n ≤ 2 ^ 26) (hy : y.toNat ≤ 2 ^ 26) (ho : o.toNat ≤ 2 ^ 26) (hd : d.Halts F)
    (h : d.At img 0 (Thread.launch [0, y, o, a, BitVec.ofNat 32 n, 4, 1] mem)) :
    o.toNat + 4 * n ≤ mem.size := by
  have hcode : img.Holds 0 (saxpyPrologue ++ (saxpyLoop ++ countdown 26 0xF4)) :=
    holds_of_summary himg (by decide) rfl
  refine (saxpyLoop_stores y a).inside_of_prologue hn hlen ho h hd ?_ hcode (by decide)
  simp [saxpyPrologue, SaxpyRegs, elemAddr_zero, hF.zero, hF.addr hy, hF.addr ho, hF.count hlen]

/-! #### `dot`, which stores once, behind its loop -/

def DotRegs (y o : Word) (n j : Nat) (s : BitVec 8 → Option Word) : Prop :=
  (s 0 = some 0 ∧ s 25 = some (BitVec.ofNat 32 (n - j))) ∧ s 23 = some (elemAddr 0 j) ∧
    s 24 = some (elemAddr y j) ∧ s 18 = some o ∧ s 20 = some 4 ∧ s 21 = some 1 ∧ ∃ z, s 26 = some z

theorem dotLoop_spec {j : Nat} (hj : j < n) (t : Thread) (h : DotRegs y o n j t.s) :
    t.KnowsAll F dotLoop ∧ DotRegs y o n (j + 1) (t.run F dotLoop).s := by
  simp [DotRegs] at h
  obtain ⟨⟨h0, h25⟩, h23, h24, h18, h20, h21, z, h26⟩ := h
  simp [DotRegs, elemAddr_succ, countdown_succ hj, dotLoop, *]

theorem dot_inside (hF : F.AddsZero) (himg : img.summary = bvmlSummary) (hn : 0 < n)
    (hlen : 4 * n ≤ 2 ^ 26) (hy : y.toNat ≤ 2 ^ 26) (ho : o.toNat ≤ 2 ^ 26) (hd : d.Halts F)
    (h : d.At img 17 (Thread.launch [0, y, o, BitVec.ofNat 32 n, 4, 1] mem)) :
    o.toNat + 4 ≤ mem.size := by
  have hcode : img.Holds 17 (dotPrologue ++ (dotLoop ++ countdown 25 0xF7)) :=
    holds_of_summary himg (by decide) rfl
  have hend : img.Holds 30 [plain .store 26 18 0] := holds_of_summary himg (by decide) rfl
  have hstart : (Thread.launch [0, y, o, BitVec.ofNat 32 n, 4, 1] mem).KnowsAll F dotPrologue ∧
      DotRegs y o n 0 ((Thread.launch [0, y, o, BitVec.ofNat 32 n, 4,
        1] mem).run F dotPrologue).s := by
    simp [dotPrologue, DotRegs, elemAddr_zero, hF.zero, hF.addr hy, hF.count hlen]
  obtain ⟨-, e, he, hat⟩ := h.run_halts hd hcode.append.1 hstart.1
  obtain ⟨-, e', t', he', hat', hI, hsize⟩ := hat.loop_halts hn (by omega) he hstart.2
    hcode.append.2 (by decide) (fun _ _ h => h.1) fun j hj => dotLoop_spec hj
  rw [Thread.run_memSize] at hsize
  simp [DotRegs] at hI
  obtain ⟨-, -, -, h18, -, -, z, h26⟩ := hI
  have hfits := hat'.fitsAll_of_halts he' hend (by simp [h18, h26])
  simp [h18] at hfits
  rwa [signExtend_toNat (by omega), hsize] at hfits

/-! #### `softmax`, whose second loop stores the exponentials -/

def SoftmaxMaxRegs (o c : Word) (n j : Nat) (s : BitVec 8 → Option Word) : Prop :=
  (s 0 = some 0 ∧ s 27 = some (BitVec.ofNat 32 (n - j))) ∧ s 26 = some (elemAddr 0 j) ∧
    s 16 = some 0 ∧ s 18 = some (BitVec.ofNat 32 n) ∧ s 23 = some o ∧ s 19 = some 4 ∧
      s 20 = some 1 ∧
      s 21 = some c ∧ ∃ z, s 25 = some z

theorem softmaxMaxLoop_spec {c : Word} {j : Nat} (hj : j < n) (t : Thread)
    (h : SoftmaxMaxRegs o c n j t.s) :
    t.KnowsAll F softmaxMaxLoop ∧ SoftmaxMaxRegs o c n (j + 1) (t.run F softmaxMaxLoop).s := by
  simp [SoftmaxMaxRegs] at h
  obtain ⟨⟨h0, h27⟩, h26, h16, h18, h23, h19, h20, h21, z, h25⟩ := h
  simp [SoftmaxMaxRegs, elemAddr_succ, countdown_succ hj, softmaxMaxLoop, *]

def SoftmaxSumRegs (o c : Word) (n j : Nat) (s : BitVec 8 → Option Word) : Prop :=
  (s 0 = some 0 ∧ s 27 = some (BitVec.ofNat 32 (n - j))) ∧ s 22 = some (elemAddr 0 j) ∧
    s 23 = some (elemAddr o j) ∧ s 19 = some 4 ∧ s 20 = some 1 ∧ s 21 = some c ∧
      (∃ z, s 25 = some z) ∧ ∃ z, s 26 = some z

theorem softmaxSumLoop_stores (c : Word) :
    StoreLoop F softmaxSumLoop 27 o n (SoftmaxSumRegs o c n) := by
  constructor
  · exact fun j s h => h.1
  all_goals
    intro j hj t h
    simp [SoftmaxSumRegs] at h
    obtain ⟨⟨h0, h27⟩, h22, h23, h19, h20, h21, ⟨z, h25⟩, w, h26⟩ := h
    simp [SoftmaxSumRegs, elemAddr_succ, countdown_succ hj, softmaxSumLoop, *]

theorem softmaxMiddle_spec {c : Word} (hF : F.AddsZero) (hlen : 4 * n ≤ 2 ^ 26)
    (h : SoftmaxMaxRegs o c n n t.s) :
    t.KnowsAll F softmaxMiddle ∧ SoftmaxSumRegs o c n 0 (t.run F softmaxMiddle).s := by
  simp [SoftmaxMaxRegs] at h
  obtain ⟨⟨h0, h27⟩, h26, h16, h18, h23, h19, h20, h21, z, h25⟩ := h
  simp [SoftmaxSumRegs, elemAddr_zero, softmaxMiddle, hF.zero, hF.count hlen, *]

theorem softmax_stores (hF : F.AddsZero) (c : Word) :
    StoresResult F 28 fun o n => [0, o, n, 4, 1, c] := by
  intro d img mem n o himg hn hlen ho hd h
  have hcode : img.Holds 28 (softmaxPrologue ++ (softmaxMaxLoop ++ countdown 27 0xF9)) :=
    holds_of_summary himg (by decide) rfl
  have hsum : img.Holds 41 (softmaxMiddle ++ (softmaxSumLoop ++ countdown 27 0xF4)) :=
    holds_of_summary himg (by decide) rfl
  have hstart : (Thread.launch [0, o, BitVec.ofNat 32 n, 4, 1, c] mem).KnowsAll F softmaxPrologue ∧
      SoftmaxMaxRegs o c n 0
        ((Thread.launch [0, o, BitVec.ofNat 32 n, 4, 1, c] mem).run F softmaxPrologue).s := by
    simp [softmaxPrologue, SoftmaxMaxRegs, elemAddr_zero, hF.zero, hF.addr ho, hF.count hlen]
  obtain ⟨-, e, he, hat⟩ := h.run_halts hd hcode.append.1 hstart.1
  obtain ⟨-, e', t', he', hat', hI, hsize⟩ := hat.loop_halts hn (by omega) he hstart.2
    hcode.append.2 (by decide) (fun _ _ h => h.1) fun j hj => softmaxMaxLoop_spec hj
  rw [Thread.run_memSize] at hsize
  rw [show mem.size = t'.mem.size from hsize.symm]
  exact (softmaxSumLoop_stores c).inside_of_prologue hn hlen ho hat' he'
    (softmaxMiddle_spec hF hlen hI) hsum (by decide)

end Kernels

end BradVector
