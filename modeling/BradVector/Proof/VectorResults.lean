import BradVector.Proof.Gemm
import BradVector.Proof.SoftmaxRun

/-!
# What the vector operations compute

A kernel that maps vectors to a vector leaves its operands alone, and each of its iterations adds
one element to a prefix of the result. `Stored` is that invariant. With the exact number of
instructions a launch takes, it gives the array a call returns, or that the call has run out of its
budget.
-/

namespace BradVector

open CSem Machine

/-! ### A prefix of the result -/

/-- `mem` is `old` with the first `j` elements of `val` stored as those of the vector at `o`. -/
structure Stored (old : DevMem) (o : Nat) (val : HostArray) (j : Nat) (mem : DevMem) : Prop where
  size : mem.size = old.size
  new : ∀ k < j, wordAt mem.bytes (o + 4 * k) = val k
  rest : ∀ a, a + 4 ≤ o ∨ o + 4 * j ≤ a → wordAt mem.bytes a = wordAt old.bytes a

section Stored

variable {old mem : DevMem} {o j : Nat} {val : HostArray}

theorem Stored.nothing (old : DevMem) (o : Nat) (val : HostArray) : Stored old o val 0 old :=
  ⟨rfl, fun _ hk => absurd hk (Nat.not_lt_zero _), fun _ _ => rfl⟩

theorem Stored.next (h : Stored old o val j mem) :
    Stored old o val (j + 1) (mem.poke32 (o + 4 * j) (val j)) := by
  refine ⟨h.size, fun k hk => ?_, fun a ha => ?_⟩
  · rcases Nat.lt_succ_iff_lt_or_eq.mp hk with hlt | rfl
    · rw [wordAt_poke32_of_disjoint (by omega)]
      exact h.new k hlt
    · exact wordAt_poke32_self _ _
  · rw [wordAt_poke32_of_disjoint (by omega)]
    exact h.rest a (by omega)

end Stored

/-! ### Loops -/

/-- The loop stores `val j` as element `j`, from a memory with the elements before it. -/
structure MapLoop (F : HostMath) (body : List BvInsn) (ctr : BitVec 8) (o : Word) (n : Nat)
    (old : DevMem) (val : HostArray) (I : Nat → (BitVec 8 → Option Word) → Prop) : Prop where
  counts : ∀ j s, I j s → s 0 = some 0 ∧ s ctr = some (BitVec.ofNat 32 (n - j))
  knows : ∀ j < n, ∀ t : Thread, I j t.s → t.KnowsAll F body
  fits : ∀ j < n, ∀ t : Thread, I j t.s → t.mem.size = old.size → t.FitsAll F body
  next : ∀ j < n, ∀ t : Thread, I j t.s → Stored old o.toNat val j t.mem →
    I (j + 1) (t.run F body).s ∧ (t.run F body).mem = t.mem.poke32 (o.toNat + 4 * j) (val j)

section Loops

variable {F : HostMath} {d : Device} {img : BvbcImage} {t : Thread} {n pc : Nat} {o : Word}
  {old : DevMem} {val : HostArray} {ctr back : BitVec 8} {prologue body : List BvInsn}
  {I : Nat → (BitVec 8 → Option Word) → Prop}

theorem MapLoop.steps (hloop : MapLoop F body ctr o n old val I) (hn : 0 < n) (hlen : n ≤ 2 ^ 32)
    (h : d.At img pc t) (hI : I 0 t.s) (hmem : Stored old o.toNat val 0 t.mem)
    (hc : img.Holds pc (body ++ countdown ctr back))
    (hback : BitVec.ofNat 32 (pc + body.length + 2) + 1 + back.signExtend 32 = BitVec.ofNat 32 pc) :
    ∃ e t', d.Steps F (n * (body.length + 3) - 1) e ∧ e.At img (pc + body.length + 3) t' ∧
      I n t'.s ∧
      Stored old o.toNat val n t'.mem := by
  refine h.loop_steps (I := fun j t => I j t.s ∧ Stored old o.toNat val j t.mem) hn hlen
    ⟨hI, hmem⟩ hc
    hback (fun j t h => hloop.counts j t.s h.1) (fun j hj t ⟨hI, hmem⟩ => ?_) fun _ _ _ h => h
  obtain ⟨hnext, hpoke⟩ := hloop.next j hj t hI hmem
  refine ⟨hloop.knows j hj t hI, hloop.fits j hj t hI hmem.size, hnext, ?_⟩
  rw [hpoke]
  exact hmem.next

/-- **A kernel of one loop**, which leaves the memory to its loop, and ends behind it. -/
theorem MapLoop.kernel_steps (hloop : MapLoop F body ctr o n old val I) (hn : 0 < n)
    (hlen : n ≤ 2 ^ 32)
    (h : d.At img pc t) (hk : t.KnowsAll F prologue) (hfits : t.FitsAll F prologue)
    (hI : I 0 (t.run F prologue).s) (hold : (t.run F prologue).mem = old)
    (hc : img.Holds pc (prologue ++ (body ++ (countdown ctr back ++ [exitInsn]))))
    (hback : BitVec.ofNat 32 (pc + prologue.length + body.length + 2) + 1 + back.signExtend 32 =
      BitVec.ofNat 32 (pc + prologue.length)) :
    ∃ e, d.Steps F (n * (body.length + 3) + prologue.length) e ∧ e.warp.active = 0 ∧ e.img = img ∧
      Stored old o.toNat val n e.mem := by
  obtain ⟨d₁, hd₁, h₁⟩ := h.run_steps hc.append.1 hk hfits
  have hrest := hc.append.2
  rw [← List.append_assoc] at hrest
  obtain ⟨d₂, t₂, hd₂, h₂, -, hmem⟩ := hloop.steps hn hlen h₁ hI (hold ▸ Stored.nothing _ _ _)
    hrest.append.1 hback
  have hexit := hrest.append.2
  rw [List.length_append, ← Nat.add_assoc, show (countdown ctr back).length = 3 from rfl] at hexit
  obtain ⟨d₃, hd₃, hactive, hmem₃, himg⟩ := h₂.exit_next (F := F) hexit.head
    (by simp [exitInsn, plain_eq])
  refine ⟨d₃, ?_, hactive, himg, hmem₃ ▸ hmem⟩
  have hpos : 0 < n * (body.length + 3) := Nat.mul_pos hn (Nat.succ_pos _)
  rw [show n * (body.length + 3) + prologue.length =
    prologue.length + (n * (body.length + 3) - 1) + 1 by omega]
  exact (hd₁.trans hd₂).trans (steps_one hd₃)

end Loops

/-! ### The kernels of BVN -/

/-- The value of an element of `bvn_gelu` and `bvn_silu`. -/
def sigmulValue (F : HostMath) (c x : Word) : Word :=
  F.mul (F.div floatOne (F.add (F.exp2 (F.mul x c)) (floatOfImm 1))) x

/-- The kernel of BVN at `pc` computes `val` of its operand, in `cost` instructions. -/
def KernelComputes (F : HostMath) (pc : Nat) (args : (o n : Word) → List Word) (cost : Nat → Nat)
    (val : HostArray → Nat → HostArray) : Prop :=
  ∀ (d : Device) (img : BvbcImage) (mem : DevMem) (n : Nat) (o : Word) (x : HostArray),
    img.summary = bvnSummary → 0 < n → 4 * n ≤ o.toNat → o.toNat + 4 * n ≤ mem.size →
      (∀ j < n, wordAt mem.bytes (4 * j) = x j) →
        d.At img pc (Thread.launch (args o (BitVec.ofNat 32 n)) mem) →
          ∃ e, d.Steps F (cost n) e ∧ e.warp.active = 0 ∧ e.img = img ∧
            Stored mem o.toNat (val x n) n e.mem

section Kernels

variable {F : HostMath} {d : Device} {img : BvbcImage} {mem : DevMem} {n : Nat} {o : Word}
  {x : HostArray}

attribute [local simp] plain_eq addImm_eq mov Thread.KnowsAll Thread.FitsAll Thread.run Thread.Knows
  Thread.Fits Thread.exec Thread.addr Thread.launch launchRegs sThreadId sArgBase sNumArgs

/-- The operand at 0 lies before the result at `o`, and both are inside the memory. -/
structure UnaryLayout (x : HostArray) (n : Nat) (o : Word) (mem : DevMem) : Prop where
  before : 4 * n ≤ o.toNat
  inside : o.toNat + 4 * n ≤ mem.size
  operand : ∀ j < n, wordAt mem.bytes (4 * j) = x j

/-- What an iteration finds at its two addresses. -/
structure UnaryAccess (o : Word) (j size : Nat) : Prop where
  load : ((elemAddr 0 j).signExtend 64).toNat = 4 * j
  store : ((elemAddr o j).signExtend 64).toNat = o.toNat + 4 * j
  load_le : 4 * j + 4 ≤ size
  store_le : o.toNat + 4 * j + 4 ≤ size

theorem UnaryLayout.access {j : Nat} (h : UnaryLayout x n o mem) (hj : j < n) :
    UnaryAccess o j mem.size := by
  have hsize : mem.size ≤ 2 ^ 26 := mem.size_le
  have hb := h.before
  have hi := h.inside
  have hload := elemAddr_signExtend (x := 0) (j := j)
    (by rw [show (0 : Word).toNat = 0 from rfl]; omega)
  rw [show (0 : Word).toNat = 0 from rfl, Nat.zero_add] at hload
  exact ⟨hload, elemAddr_signExtend (by omega), by omega, by omega⟩

theorem UnaryLayout.loaded {j : Nat} {m : DevMem} {val : HostArray} (h : UnaryLayout x n o mem)
    (hj : j < n) (hm : Stored mem o.toNat val j m) : wordAt m.bytes (4 * j) = x j := by
  have hb := h.before
  rw [hm.rest _ (by omega), h.operand j hj]

/-! #### `relu` -/

def reluValue (F : HostMath) (x : Word) : Word := if F.lt 0 x then x else 0

def ReluState (o : Word) (n j : Nat) (s : BitVec 8 → Option Word) : Prop :=
  ReluRegs o n j s ∧ s 24 = some 0

theorem reluLoop_maps (h : UnaryLayout x n o mem) :
    MapLoop F reluLoop 23 o n mem (fun j => reluValue F (x j)) (ReluState o n) := by
  have hloop := reluLoop_stores (F := F) (o := o) (n := n)
  refine ⟨fun j s hs => hloop.counts j s hs.1, fun j hj t ht => hloop.knows j hj t ht.1, ?_, ?_⟩
  all_goals
    intro j hj t ht hm
    obtain ⟨hload, hstore, hload_le, hstore_le⟩ := h.access hj
    simp [ReluState, ReluRegs] at ht hload hstore
    obtain ⟨⟨⟨h0, h23⟩, h21, h22, h19, h20, -⟩, h24⟩ := ht
  · simp [reluLoop, *]
  · have hx := h.loaded hj hm
    simp [ReluState, ReluRegs, elemAddr_succ, countdown_succ hj, reluLoop, reluValue, *]

theorem relu_computes (hF : F.AddsZero) :
    KernelComputes F 0 (fun o n => [0, o, n, 4, 1]) (fun n => n * 9 + 4)
      fun x _ j => reluValue F (x j) := by
  intro d img mem n o x himg hn hbefore hinside hx h
  have hsize : mem.size ≤ 2 ^ 26 := mem.size_le
  have hcode : img.Holds 0 (reluPrologue ++ (reluLoop ++ (countdown 23 0xF7 ++ [exitInsn]))) :=
    holds_of_summary himg (by decide) rfl
  have hlen : 4 * n ≤ 2 ^ 26 := by omega
  have ho : o.toNat ≤ 2 ^ 26 := by omega
  refine (reluLoop_maps ⟨hbefore, hinside, hx⟩).kernel_steps hn (by omega) h ?_ ?_ ?_ ?_ hcode
    (by decide)
  all_goals
    simp [reluPrologue, ReluState, ReluRegs, elemAddr_zero, hF.zero, hF.addr ho, hF.count hlen]

/-! #### `affine` -/

theorem affineLoop_maps (scale bias : Word) (h : UnaryLayout x n o mem) :
    MapLoop F affineLoop 25 o n mem (fun j => F.add (F.mul (x j) scale) bias)
      (AffineRegs o scale bias n) := by
  have hloop := affineLoop_stores (F := F) (o := o) (n := n) scale bias
  refine ⟨hloop.counts, hloop.knows, ?_, ?_⟩
  all_goals
    intro j hj t ht hm
    obtain ⟨hload, hstore, hload_le, hstore_le⟩ := h.access hj
    have hnext := hloop.next j hj t ht
    simp [AffineRegs] at ht hload hstore
    obtain ⟨⟨h0, h25⟩, h23, h24, h18, h19, h21, h22⟩ := ht
  · simp [affineLoop, *]
  · have hx := h.loaded hj hm
    refine ⟨hnext, ?_⟩
    simp [affineLoop, *]

theorem affine_computes (hF : F.AddsZero) (scale bias : Word) :
    KernelComputes F 14 (fun o n => [0, o, scale, bias, n, 4, 1]) (fun n => n * 10 + 3)
      fun x _ j => F.add (F.mul (x j) scale) bias := by
  intro d img mem n o x himg hn hbefore hinside hx h
  have hsize : mem.size ≤ 2 ^ 26 := mem.size_le
  have hcode : img.Holds 14 (affinePrologue ++ (affineLoop ++ (countdown 25 0xF6 ++ [exitInsn]))) :=
    holds_of_summary himg (by decide) rfl
  have hlen : 4 * n ≤ 2 ^ 26 := by omega
  have ho : o.toNat ≤ 2 ^ 26 := by omega
  refine (affineLoop_maps scale bias ⟨hbefore, hinside, hx⟩).kernel_steps hn (by omega) h
    ?_ ?_ ?_ ?_ hcode (by decide)
  all_goals
    simp [affinePrologue, AffineRegs, elemAddr_zero, hF.zero, hF.addr ho, hF.count hlen]

/-! #### `sigmul` -/

theorem sigmulLoop_maps (c : Word) (h : UnaryLayout x n o mem) :
    MapLoop F sigmulLoop 24 o n mem (fun j => sigmulValue F c (x j)) (SigmulRegs o c n) := by
  have hloop := sigmulLoop_stores (F := F) (o := o) (n := n) c
  refine ⟨hloop.counts, hloop.knows, ?_, ?_⟩
  all_goals
    intro j hj t ht hm
    obtain ⟨hload, hstore, hload_le, hstore_le⟩ := h.access hj
    have hnext := hloop.next j hj t ht
    simp [SigmulRegs] at ht hload hstore
    obtain ⟨⟨h0, h24⟩, h22, h23, h19, h20, h21⟩ := ht
  · simp [sigmulLoop, *]
  · have hx := h.loaded hj hm
    refine ⟨hnext, ?_⟩
    simp [sigmulLoop, sigmulValue, *]

theorem sigmul_computes (hF : F.AddsZero) (c : Word) :
    KernelComputes F 68 (fun o n => [0, o, n, 4, 1, c]) (fun n => n * 13 + 3)
      fun x _ j => sigmulValue F c (x j) := by
  intro d img mem n o x himg hn hbefore hinside hx h
  have hsize : mem.size ≤ 2 ^ 26 := mem.size_le
  have hcode : img.Holds 68 (sigmulPrologue ++ (sigmulLoop ++ (countdown 24 0xF3 ++ [exitInsn]))) :=
    holds_of_summary himg (by decide) rfl
  have hlen : 4 * n ≤ 2 ^ 26 := by omega
  have ho : o.toNat ≤ 2 ^ 26 := by omega
  refine (sigmulLoop_maps c ⟨hbefore, hinside, hx⟩).kernel_steps hn (by omega) h ?_ ?_ ?_ ?_ hcode
    (by decide)
  all_goals
    simp [sigmulPrologue, SigmulRegs, elemAddr_zero, hF.zero, hF.addr ho, hF.count hlen]

/-! ### The kernels of BVML -/

/-- The sum `bvml_dot` computes, over the first `k` elements. -/
def dotSum (F : HostMath) (x y : HostArray) (k : Nat) : Word :=
  (List.range k).foldl (fun acc j => F.mad (x j) (y j) acc) 0

theorem dotSum_succ (F : HostMath) (x y : HostArray) (k : Nat) :
    dotSum F x y (k + 1) = F.mad (x k) (y k) (dotSum F x y k) := by
  rw [dotSum, List.range_succ, List.foldl_concat]
  rfl

/-- The operands at 0 and at `yb` lie behind each other, before the result at `o`. -/
structure BinaryLayout (x y : HostArray) (n : Nat) (yb o : Word) (mem : DevMem) : Prop where
  before : 4 * n ≤ yb.toNat
  between : yb.toNat + 4 * n ≤ o.toNat
  inside : o.toNat + 4 ≤ mem.size
  x : ∀ j < n, wordAt mem.bytes (4 * j) = x j
  y : ∀ j < n, wordAt mem.bytes (yb.toNat + 4 * j) = y j

/-- What an iteration loads from its two addresses. -/
structure BinaryAccess (yb : Word) (j size : Nat) : Prop where
  x : ((elemAddr 0 j).signExtend 64).toNat = 4 * j
  y : ((elemAddr yb j).signExtend 64).toNat = yb.toNat + 4 * j
  x_le : 4 * j + 4 ≤ size
  y_le : yb.toNat + 4 * j + 4 ≤ size

section Binary

variable {yb a : Word} {y : HostArray} {j : Nat}

theorem BinaryLayout.access (h : BinaryLayout x y n yb o mem) (hj : j < n) :
    BinaryAccess yb j mem.size := by
  have hsize : mem.size ≤ 2 ^ 26 := mem.size_le
  obtain ⟨hb, hm, hi, -, -⟩ := h
  have hx :=
    elemAddr_signExtend (x := 0) (j := j) (by rw [show (0 : Word).toNat = 0 from rfl]; omega)
  rw [show (0 : Word).toNat = 0 from rfl, Nat.zero_add] at hx
  exact ⟨hx, elemAddr_signExtend (by omega), by omega, by omega⟩

theorem BinaryLayout.loaded {m : DevMem} {val : HostArray} (h : BinaryLayout x y n yb o mem)
    (hj : j < n) (hm : Stored mem o.toNat val j m) :
    wordAt m.bytes (4 * j) = x j ∧ wordAt m.bytes (yb.toNat + 4 * j) = y j := by
  obtain ⟨hb, hbetween, -, hx, hy⟩ := h
  rw [hm.rest _ (by omega), hm.rest _ (by omega)]
  exact ⟨hx j hj, hy j hj⟩

/-! #### `saxpy` -/

theorem saxpyLoop_maps (h : BinaryLayout x y n yb o mem) (hin : o.toNat + 4 * n ≤ mem.size) :
    MapLoop F saxpyLoop 26 o n mem (fun j => F.add (F.mul a (x j)) (y j)) (SaxpyRegs yb o a n) := by
  have hloop := saxpyLoop_stores (F := F) (o := o) (n := n) yb a
  have hsize : mem.size ≤ 2 ^ 26 := mem.size_le
  refine ⟨hloop.counts, hloop.knows, ?_, ?_⟩
  all_goals
    intro j hj t ht hm
    obtain ⟨hx, hy, hx_le, hy_le⟩ := h.access hj
    have hstore := elemAddr_signExtend (x := o) (j := j) (by omega)
    have hstore_le : o.toNat + 4 * j + 4 ≤ mem.size := by omega
    have hnext := hloop.next j hj t ht
    simp [SaxpyRegs] at ht hx hy hstore
    obtain ⟨⟨h0, h26⟩, h23, h24, h25, h19, h21, h22⟩ := ht
  · simp [saxpyLoop, *]
  · obtain ⟨hxj, hyj⟩ := h.loaded hj hm
    refine ⟨hnext, ?_⟩
    simp [saxpyLoop, *]

theorem saxpy_steps (hF : F.AddsZero) (himg : img.summary = bvmlSummary) (hn : 0 < n)
    (hl : BinaryLayout x y n yb o mem) (hin : o.toNat + 4 * n ≤ mem.size)
    (h : d.At img 0 (Thread.launch [0, yb, o, a, BitVec.ofNat 32 n, 4, 1] mem)) :
    ∃ e, d.Steps F (n * 12 + 4) e ∧ e.warp.active = 0 ∧ e.img = img ∧
      Stored mem o.toNat (fun j => F.add (F.mul a (x j)) (y j)) n e.mem := by
  have hsize : mem.size ≤ 2 ^ 26 := mem.size_le
  have hcode : img.Holds 0 (saxpyPrologue ++ (saxpyLoop ++ (countdown 26 0xF4 ++ [exitInsn]))) :=
    holds_of_summary himg (by decide) rfl
  have hlen : 4 * n ≤ 2 ^ 26 := by omega
  have hy : yb.toNat ≤ 2 ^ 26 := by have := hl.between; omega
  have ho : o.toNat ≤ 2 ^ 26 := by omega
  refine (saxpyLoop_maps (a := a) hl hin).kernel_steps hn (by omega) h ?_ ?_ ?_ ?_ hcode (by decide)
  all_goals
    simp [saxpyPrologue, SaxpyRegs, elemAddr_zero, hF.zero, hF.addr hy, hF.addr ho, hF.count hlen]

/-! #### `dot` -/

/-- Before iteration `j` the sum is over the elements before it, and the memory is as it was. -/
structure DotState (F : HostMath) (x y : HostArray) (yb o : Word) (n : Nat) (mem : DevMem) (j : Nat)
    (t : Thread) : Prop where
  regs : DotRegs yb o n j t.s
  sum : t.s 26 = some (dotSum F x y j)
  mem : t.mem = mem

theorem dotLoop_sums (hl : BinaryLayout x y n yb o mem) (hj : j < n) {t : Thread}
    (h : DotState F x y yb o n mem j t) :
    t.KnowsAll F dotLoop ∧ t.FitsAll F dotLoop ∧
      DotState F x y yb o n mem (j + 1) (t.run F dotLoop) := by
  obtain ⟨hregs, hsum, hmem⟩ := h
  obtain ⟨hx, hy, hx_le, hy_le⟩ := hl.access hj
  have hxj := hl.x j hj
  have hyj := hl.y j hj
  obtain ⟨hk, hnext⟩ := dotLoop_spec (F := F) hj t hregs
  simp [DotRegs] at hregs hsum hx hy
  obtain ⟨⟨h0, h25⟩, h23, h24, h18, h20, h21, -⟩ := hregs
  refine ⟨hk, ?_, hnext, ?_, ?_⟩
  · simp [dotLoop, *]
  · simp [dotLoop, dotSum_succ, *]
  · simp [dotLoop, *]

theorem dot_steps (hF : F.AddsZero) (himg : img.summary = bvmlSummary) (hn : 0 < n)
    (hl : BinaryLayout x y n yb o mem)
    (h : d.At img 17 (Thread.launch [0, yb, o, BitVec.ofNat 32 n, 4, 1] mem)) :
    ∃ e, d.Steps F (n * 9 + 5) e ∧ e.warp.active = 0 ∧ e.img = img ∧
      e.mem = mem.poke32 o.toNat (dotSum F x y n) := by
  have hsize : mem.size ≤ 2 ^ 26 := mem.size_le
  have hbetween := hl.between
  have hinside := hl.inside
  have hlen : 4 * n ≤ 2 ^ 26 := by omega
  have hy : yb.toNat ≤ 2 ^ 26 := by omega
  have hcode : img.Holds 17 (dotPrologue ++ (dotLoop ++ countdown 25 0xF7)) :=
    holds_of_summary himg (by decide) rfl
  have hend : img.Holds 30 [plain .store 26 18 0] := holds_of_summary himg (by decide) rfl
  have hexit : img.Holds 31 [exitInsn] := holds_of_summary himg (by decide) rfl
  have hstart : let t := Thread.launch [0, yb, o, BitVec.ofNat 32 n, 4, 1] mem
      t.KnowsAll F dotPrologue ∧ t.FitsAll F dotPrologue ∧
        DotState F x y yb o n mem 0 (t.run F dotPrologue) := by
    refine ⟨?_, ?_, ?_, ?_, ?_⟩
    all_goals
      simp [dotPrologue, DotRegs, dotSum, elemAddr_zero, hF.zero, hF.addr hy, hF.count hlen]
  obtain ⟨d₁, hd₁, h₁⟩ := h.run_steps hcode.append.1 hstart.1 hstart.2.1
  obtain ⟨d₂, t, hd₂, h₂, hregs, hsum, hmem⟩ := h₁.loop_steps (F := F)
    (I := DotState F x y yb o n mem) hn (by omega) hstart.2.2 hcode.append.2 (by decide)
    (fun _ _ h => h.regs.1) (fun j hj t ht => dotLoop_sums hl hj ht) fun _ _ _ h => ⟨h.1, h.2, h.3⟩
  have haddr := signExtend_toNat (x := o) (by omega)
  simp [DotRegs] at hregs hsum
  obtain ⟨-, -, -, h18, -⟩ := hregs
  obtain ⟨d₃, hd₃, h₃⟩ := h₂.run_steps (F := F) hend (by simp [h18, hsum])
    (by simp [h18, haddr, hmem, hinside])
  obtain ⟨d₄, hd₄, hactive, hmem₄, himg₄⟩ := h₃.exit_next (F := F) hexit.head
    (by simp [exitInsn, plain_eq])
  refine ⟨d₄, ?_, hactive, himg₄, ?_⟩
  · have hsteps := ((hd₁.trans hd₂).trans hd₃).trans (steps_one hd₄)
    have hcount : dotPrologue.length + (n * (dotLoop.length + 3) - 1) +
        [plain .store 26 18 0].length + 1 = n * 9 + 5 := by
      rw [show dotPrologue.length = 4 from rfl, show dotLoop.length = 6 from rfl,
        List.length_singleton]
      omega
    rwa [hcount] at hsteps
  · rw [hmem₄]
    simp [h18, hsum, haddr, hmem]

end Binary

end Kernels

/-! ### The calls -/

/-- The call returns 0, and the first `n` elements of the caller's array are those of `val`. -/
def Returns (call : Except BvlibFault CallResult) (out : HostArray) (n : Nat) (val : HostArray) :
    Prop :=
  ∃ r, call = .ok r ∧ r.ret = 0 ∧ ∀ i, r.out i = if i < n then val i else out i

/-- The call reports that its kernel did not come to an end, and the caller's array is as it was. -/
def GivesUp (call : Except BvlibFault CallResult) (out : HostArray) : Prop :=
  ∃ r, call = .ok r ∧ r.ret = -4 ∧ r.out = out

/-- Where the result of an operation on `n` elements ends, in true integers. -/
def unaryEnd (n : Nat) : Nat := (4 * n + 15) / 16 * 16 + 4 * n

section Calls

variable {F : HostMath} {ctx : BvlibContext} {kernels : List BvInsn × List (List Byte × Word)}
  {memBytes n off : Size} {x out val : HostArray} {kernel : List Byte} {args : List Word} {pc : Nat}

theorem copyIn_spec (x : HostArray) (off : Size) (h : ctx.Runs kernels memBytes)
    (hlen : (n * sizeofFloat).toNat = 4 * n.toNat)
    (hin : off.toNat + 4 * n.toNat ≤ allocated memBytes) :
    ∃ c, copyIn x off (n * sizeofFloat) ctx = .ok c ∧ c.Runs kernels memBytes ∧
      (∀ j < n.toNat, wordAt c.dev.mem.bytes (off.toNat + 4 * j) = x j) ∧
      ∀ a, a + 4 ≤ off.toNat ∨ off.toNat + 4 * n.toNat ≤ a →
        wordAt c.dev.mem.bytes a = wordAt ctx.dev.mem.bytes a := by
  have hfloats : (n * sizeofFloat).toNat / 4 = n.toNat := by omega
  unfold copyIn
  rw [if_pos (by rw [hlen, h.size]; exact hin), hfloats]
  refine ⟨_, rfl, ⟨h.pos, h.mem, h.img, h.size⟩, fun j hj => wordAt_floatBytes hj, fun a ha => ?_⟩
  exact wordAt_writeBytes_of_disjoint (by rwa [floatBytes_length])

theorem copyOut_spec (out : HostArray) (h : ctx.Runs kernels memBytes)
    (hlen : (n * sizeofFloat).toNat = 4 * n.toNat)
    (hin : off.toNat + 4 * n.toNat ≤ allocated memBytes)
    (hval : ∀ j < n.toNat, wordAt ctx.dev.mem.bytes (off.toNat + 4 * j) = val j) :
    ∃ o, copyOut out off (n * sizeofFloat) ctx = .ok o ∧
      ∀ i, o i = if i < n.toNat then val i else out i := by
  unfold copyOut
  rw [if_pos (by rw [hlen, h.size]; exact hin), hlen, Nat.mul_div_cancel_left _ (by decide)]
  refine ⟨_, rfl, fun i => ?_⟩
  split_ifs with hi
  · exact hval i hi
  · rfl

/-- One launch of a kernel that is known to end, within its budget or not. -/
theorem launch1_of_steps {Q : Device → Prop} (h : ctx.Runs kernels memBytes) (kernel : List Byte)
    (args : List Word) (cost : Nat) (hentry : ctx.dev.img.Entry kernel pc)
    (hkernel : ∀ d : Device, d.At ctx.dev.img pc (Thread.launch args ctx.dev.mem) →
      ∃ e, d.Steps F cost e ∧ e.warp.active = 0 ∧ e.img = ctx.dev.img ∧
        e.mem.size = ctx.dev.mem.size ∧ Q e) :
    (cost ≤ bvlibMaxInsns ∧ ∃ c, launch1 F ctx kernel args = .ok c ∧ c.Runs kernels memBytes ∧
      Q c.dev) ∨
      (bvlibMaxInsns < cost ∧ ∃ c, launch1 F ctx kernel args = .stop (-4, c)) := by
  obtain ⟨d, hlaunch, hat, hinsns⟩ := launch_at hentry args rfl
  obtain ⟨e, hsteps, hactive, himg, hsize, hQ⟩ := hkernel d hat
  unfold launch1
  rw [hlaunch]
  dsimp only
  rcases bvrtRun_of_halts (N := bvlibMaxInsns) hinsns hsteps hactive with
    ⟨hle, hrun⟩ | ⟨hlt, d', hrun⟩
  · rw [hrun]
    refine .inl ⟨hle, { ctx with dev := e }, rfl, ⟨h.pos, h.mem, ?_, hsize.trans h.size⟩, hQ⟩
    exact (congrArg _ himg).trans h.img
  · rw [hrun]
    exact .inr ⟨hlt, _, rfl⟩

theorem unary_layout (hend : unaryEnd n.toNat ≤ allocated memBytes) :
    (n * sizeofFloat).toNat = 4 * n.toNat ∧ 4 * n.toNat ≤ (unaryOoff n).toNat ∧
      (unaryOoff n).toNat + 4 * n.toNat ≤ allocated memBytes ∧
      (unaryOoff n + n * sizeofFloat).toNat = (unaryOoff n).toNat + 4 * n.toNat := by
  have hle := allocated_le memBytes
  unfold unaryEnd at hend
  have hlen : (n * sizeofFloat).toNat = 4 * n.toNat := by
    rw [toNat_mul_sizeofFloat]
    omega
  have hoff : (unaryOoff n).toNat = (4 * n.toNat + 15) / 16 * 16 := by
    rw [unaryOoff, align16_toNat (by omega), hlen]
  refine ⟨hlen, by omega, by omega, ?_⟩
  rw [BitVec.toNat_add, hlen]
  omega

theorem allocated_le_memBytes (hpos : memBytes ≠ 0) : allocated memBytes ≤ memBytes.toNat := by
  have hone : 0 < memBytes.toNat := Nat.pos_of_ne_zero fun h => hpos (BitVec.eq_of_toNat_eq h)
  exact (Nat.min_le_left _ _).trans (by omega)

/-- **One operation.** It returns its result, or gives up, as its kernel is within the budget or
not. -/
theorem bvnUnary_result (kernel : List Byte) {args : (o n : Word) → List Word} {cost : Nat → Nat}
    {val : HostArray → Nat → HostArray} (h : ctx.Runs bvnSummary memBytes)
    (hkernel : KernelComputes F pc args cost val)
    (hentry : (bvnSummary.2.find? fun e => e.1 = cstrOf kernel).map Prod.snd =
      some (BitVec.ofNat 32 pc))
    (hend : unaryEnd n.toNat ≤ allocated memBytes) (x out : HostArray) :
    let call := bvnUnary F kernel (args ((unaryOoff n).setWidth 32) (n.setWidth 32)) ctx x out n
    (n.toNat = 0 ∨ cost n.toNat ≤ bvlibMaxInsns → Returns call out n.toNat (val x n.toNat)) ∧
      (0 < n.toNat → bvlibMaxInsns < cost n.toNat → GivesUp call out) := by
  unfold bvnUnary
  by_cases hn : n = 0
  · subst hn
    refine ⟨fun _ => ⟨_, rfl, rfl, fun i => ?_⟩, fun h0 => absurd h0 (Nat.lt_irrefl 0)⟩
    exact (if_neg (Nat.not_lt_zero i)).symm
  have hpos : 0 < n.toNat := Nat.pos_of_ne_zero fun h0 => hn (BitVec.eq_of_toNat_eq h0)
  have hle := allocated_le memBytes
  obtain ⟨hlen, hbefore, hinside, hsum⟩ := unary_layout hend
  have hcheck : ¬ ctx.mem < unaryOoff n + n * sizeofFloat := by
    rw [h.mem, BitVec.not_lt, BitVec.le_def, hsum]
    exact hinside.trans (allocated_le_memBytes h.pos)
  have ho := setWidth_toNat (x := unaryOoff n) (by omega)
  obtain ⟨c₁, hcopy, h₁, hx, -⟩ := copyIn_spec x 0 h hlen
    (by rw [show (0 : Size).toNat = 0 from rfl]; omega)
  simp only [show (0 : Size).toNat = 0 from rfl, Nat.zero_add] at hx
  have hlaunch := launch1_of_steps (F := F)
    (Q := fun e => Stored c₁.dev.mem (unaryOoff n).toNat (val x n.toNat) n.toNat e.mem) h₁ kernel
    (args ((unaryOoff n).setWidth 32) (n.setWidth 32)) (cost n.toNat)
    (entry_of_summary (h₁.img : _ = (bvnCode, _)) hentry) fun d hat => by
      rw [setWidth_eq_ofNat n] at hat
      obtain ⟨e, hsteps, hactive, himg, hstored⟩ := hkernel d c₁.dev.img c₁.dev.mem n.toNat
        ((unaryOoff n).setWidth 32) x h₁.img hpos (by omega)
        (by rw [ho, h₁.size]; exact hinside) hx hat
      rw [ho] at hstored
      exact ⟨e, hsteps, hactive, himg, hstored.size, hstored⟩
  rw [if_neg hn, if_neg hcheck, hcopy]
  dsimp only [Outcome.bind_eq_bind]
  rw [Outcome.ok_bind]
  rcases hlaunch with ⟨hbudget, c₂, hlaunch, h₂, hstored⟩ | ⟨hbudget, c₂, hlaunch⟩
  · refine ⟨fun _ => ?_, fun _ hlt => absurd hbudget (Nat.not_le.mpr hlt)⟩
    obtain ⟨o, hout, hval⟩ := copyOut_spec out h₂ hlen hinside hstored.new
    rw [hlaunch, Outcome.ok_bind, hout]
    exact ⟨_, rfl, rfl, hval⟩
  · refine ⟨fun hwithin => ?_, fun _ _ => ?_⟩
    · omega
    · rw [hlaunch]
      exact ⟨_, rfl, rfl, rfl⟩

/-- Where the result of an operation on two vectors ends. Its own length is `len`. -/
def vectorEnd (n len : Nat) : Nat := ((4 * n + 15) / 16 * 16 + 4 * n + 15) / 16 * 16 + len

theorem vector_layout {len : Nat} (hend : vectorEnd n.toNat len ≤ allocated memBytes) :
    (n * sizeofFloat).toNat = 4 * n.toNat ∧ 4 * n.toNat ≤ (vectorYoff n).toNat ∧
      (vectorYoff n).toNat + 4 * n.toNat ≤ (vectorOoff n).toNat ∧
      (vectorOoff n).toNat + len ≤ allocated memBytes := by
  have hle := allocated_le memBytes
  unfold vectorEnd at hend
  have hlen : (n * sizeofFloat).toNat = 4 * n.toNat := by
    rw [toNat_mul_sizeofFloat]
    omega
  have hyoff : (vectorYoff n).toNat = (4 * n.toNat + 15) / 16 * 16 := by
    rw [vectorYoff, align16_toNat (by omega), hlen]
  have hsum : (vectorYoff n + n * sizeofFloat).toNat = (vectorYoff n).toNat + 4 * n.toNat := by
    rw [BitVec.toNat_add, hlen]
    omega
  have hooff : (vectorOoff n).toNat = ((vectorYoff n).toNat + 4 * n.toNat + 15) / 16 * 16 := by
    rw [vectorOoff, align16_toNat (by omega), hsum]
  exact ⟨hlen, by omega, by omega, by omega⟩

theorem vectorCopies_spec {len : Nat} (h : ctx.Runs kernels memBytes)
    (hend : vectorEnd n.toNat len ≤ allocated memBytes) (hlen : 4 ≤ len) (x y : HostArray) :
    ∃ c₁ c₂, copyIn x 0 (n * sizeofFloat) ctx = .ok c₁ ∧
      copyIn y (vectorYoff n) (n * sizeofFloat) c₁ = .ok c₂ ∧ c₂.Runs kernels memBytes ∧
      BinaryLayout x y n.toNat ((vectorYoff n).setWidth 32)
        ((vectorOoff n).setWidth 32) c₂.dev.mem := by
  have hle := allocated_le memBytes
  obtain ⟨hbytes, hbefore, hbetween, hinside⟩ := vector_layout hend
  have hzero : (0 : Size).toNat = 0 := rfl
  obtain ⟨c₁, hc₁, h₁, hx, -⟩ := copyIn_spec x 0 h hbytes (by rw [hzero]; omega)
  obtain ⟨c₂, hc₂, h₂, hy, hold⟩ := copyIn_spec y (vectorYoff n) h₁ hbytes (by omega)
  simp only [hzero, Nat.zero_add] at hx
  have hyb := setWidth_toNat (x := vectorYoff n) (by omega)
  have ho := setWidth_toNat (x := vectorOoff n) (by omega)
  refine ⟨c₁, c₂, hc₁, hc₂, h₂, ?_, ?_, ?_, fun j hj => ?_, fun j hj => ?_⟩
  · rwa [hyb]
  · rwa [hyb, ho]
  · rw [ho, h₂.size]
    omega
  · rw [hold _ (by omega), hx j hj]
  · rw [hyb, hy j hj]

/-- The test of an operation on two vectors lets it through. -/
theorem vector_passes {len : Size} (h : ctx.Runs kernels memBytes)
    (hend : vectorEnd n.toNat len.toNat ≤ allocated memBytes) : ¬ ctx.mem < vectorOoff n + len := by
  have hle := allocated_le memBytes
  obtain ⟨-, -, -, hinside⟩ := vector_layout hend
  rw [h.mem, BitVec.not_lt, BitVec.le_def, BitVec.toNat_add, Nat.mod_eq_of_lt (by omega)]
  exact hinside.trans (allocated_le_memBytes h.pos)

theorem bvmlSaxpy_result (hF : F.AddsZero) (h : ctx.Runs bvmlSummary memBytes) (a : Word)
    (x y out : HostArray) (hend : vectorEnd n.toNat (4 * n.toNat) ≤ allocated memBytes) :
    Returns (bvmlSaxpy F ctx a x y out n) out n.toNat fun i => F.add (F.mul a (x i)) (y i) := by
  unfold bvmlSaxpy vectorBody
  by_cases hn : n = 0
  · subst hn
    exact ⟨_, rfl, rfl, fun i => (if_neg (Nat.not_lt_zero i)).symm⟩
  have hpos : 0 < n.toNat := Nat.pos_of_ne_zero fun h0 => hn (BitVec.eq_of_toNat_eq h0)
  have hle := allocated_le memBytes
  have hbudget : bvlibMaxInsns = 100000000 := rfl
  obtain ⟨hlen, hbefore, hbetween, hinside⟩ := vector_layout hend
  obtain ⟨c₁, c₂, hc₁, hc₂, h₂, hl⟩ := vectorCopies_spec h hend (by omega) x y
  have ho := setWidth_toNat (x := vectorOoff n) (by omega)
  have hentry : c₂.dev.img.Entry (cstr "saxpy") 0 :=
    entry_of_summary (h₂.img : _ = (bvmlCode, _)) (by decide)
  rcases launch1_of_steps (F := F) (Q := fun e => Stored c₂.dev.mem (vectorOoff n).toNat
      (fun i => F.add (F.mul a (x i)) (y i)) n.toNat e.mem) h₂ (cstr "saxpy")
    [0, (vectorYoff n).setWidth 32, (vectorOoff n).setWidth 32, a, n.setWidth 32, 4, 1]
    (n.toNat * 12 + 4) hentry fun d hat => by
      rw [setWidth_eq_ofNat n] at hat
      obtain ⟨e, hsteps, hactive, himg, hstored⟩ := saxpy_steps (a := a) hF h₂.img hpos hl
        (by rw [ho, h₂.size]; exact hinside) hat
      rw [ho] at hstored
      exact ⟨e, hsteps, hactive, himg, hstored.size, hstored⟩
    with ⟨-, c₃, hlaunch, h₃, hstored⟩ | ⟨hbeyond, -⟩
  · obtain ⟨o, hout, hval⟩ := copyOut_spec out h₃ hlen hinside hstored.new
    rw [if_neg hn, if_neg (vector_passes h (by rw [hlen]; exact hend))]
    simp only [Outcome.bind_eq_bind, hc₁, hc₂, hlaunch, hout, Outcome.ok_bind]
    exact ⟨_, rfl, rfl, hval⟩
  · -- three vectors of that length do not fit
    omega

theorem bvmlDot_result (hF : F.AddsZero) (h : ctx.Runs bvmlSummary memBytes) (x y out : HostArray)
    (hend : vectorEnd n.toNat 4 ≤ allocated memBytes) :
    Returns (bvmlDot F ctx x y out n) out 1 fun _ => dotSum F x y n.toNat := by
  unfold bvmlDot vectorBody
  by_cases hn : n = 0
  · subst hn
    refine ⟨_, rfl, rfl, fun i => ?_⟩
    by_cases hi : i = 0
    · subst hi
      rfl
    · exact (Function.update_of_ne hi _ _).trans (if_neg (by omega)).symm
  have hpos : 0 < n.toNat := Nat.pos_of_ne_zero fun h0 => hn (BitVec.eq_of_toNat_eq h0)
  have hle := allocated_le memBytes
  have hbudget : bvlibMaxInsns = 100000000 := rfl
  obtain ⟨hlen, hbefore, hbetween, hinside⟩ := vector_layout hend
  obtain ⟨c₁, c₂, hc₁, hc₂, h₂, hl⟩ := vectorCopies_spec h hend (by omega) x y
  have ho := setWidth_toNat (x := vectorOoff n) (by omega)
  have hentry : c₂.dev.img.Entry (cstr "dot") 17 :=
    entry_of_summary (h₂.img : _ = (bvmlCode, _)) (by decide)
  rcases launch1_of_steps (F := F)
    (Q := fun e => e.mem = c₂.dev.mem.poke32 (vectorOoff n).toNat (dotSum F x y n.toNat)) h₂
      (cstr "dot")
    [0, (vectorYoff n).setWidth 32, (vectorOoff n).setWidth 32, n.setWidth 32, 4, 1]
    (n.toNat * 9 + 5) hentry fun d hat => by
      rw [setWidth_eq_ofNat n] at hat
      obtain ⟨e, hsteps, hactive, himg, hmem⟩ := dot_steps hF h₂.img hpos hl hat
      rw [ho] at hmem
      exact ⟨e, hsteps, hactive, himg, by rw [hmem]; rfl, hmem⟩
    with ⟨-, c₃, hlaunch, h₃, hmem⟩ | ⟨hbeyond, -⟩
  · have hsum : ∀ j < (1 : Size).toNat, wordAt c₃.dev.mem.bytes ((vectorOoff n).toNat + 4 * j) =
        dotSum F x y n.toNat := by
      intro j hj
      obtain rfl : j = 0 := Nat.lt_one_iff.mp hj
      rw [hmem]
      exact wordAt_poke32_self _ _
    obtain ⟨o, hout, hval⟩ := copyOut_spec (n := 1) out h₃ (by decide) hinside hsum
    rw [if_neg hn, if_neg (vector_passes h hend)]
    change copyOut out (vectorOoff n) sizeofFloat c₃ = _ at hout
    simp only [Outcome.bind_eq_bind, hc₁, hc₂, hlaunch, hout, Outcome.ok_bind]
    exact ⟨_, rfl, rfl, hval⟩
  · omega

end Calls

/-- **The elementwise operations of BVN** compute what they say, in every context in use and for
every vector that fits into device memory with its result: `relu` and `affine` always, the two that
go through `exp2` for as many elements as their 13 instructions each are within the budget for, and
beyond that they give up. -/
theorem bvnElementwise_result {F : HostMath} (hF : F.AddsZero) {memBytes : Size}
    {ctx : BvlibContext} (hctx : BvnInUse F memBytes ctx) (x out : HostArray) {n : Size}
    (hend : unaryEnd n.toNat ≤ allocated memBytes) :
    Returns (bvnRelu F ctx x out n) out n.toNat (fun i => if F.lt 0 (x i) then x i else 0) ∧
    (∀ scale bias, Returns (bvnAffine F ctx scale bias x out n) out n.toNat
      fun i => F.add (F.mul (x i) scale) bias) ∧
    (13 * n.toNat + 3 ≤ bvlibMaxInsns →
      Returns (bvnGelu F ctx x out n) out n.toNat (fun i => sigmulValue F bvnGeluFactor (x i)) ∧
      Returns (bvnSilu F ctx x out n) out n.toNat fun i => sigmulValue F bvnNegLog2e (x i)) ∧
    (bvlibMaxInsns < 13 * n.toNat + 3 →
      GivesUp (bvnGelu F ctx x out n) out ∧ GivesUp (bvnSilu F ctx x out n) out) := by
  have hle := hend.trans (allocated_le memBytes)
  have hbudget : bvlibMaxInsns = 100000000 := rfl
  have hmany : 8 * n.toNat ≤ 2 ^ 26 := by
    unfold unaryEnd at hle
    omega
  have hsigmul (c : Word) :=
    bvnUnary_result (cstr "sigmul") hctx.runs (sigmul_computes hF c) (by decide)
    hend x out
  refine ⟨?_, fun scale bias => ?_, fun hwithin => ⟨?_, ?_⟩, fun hbeyond => ⟨?_, ?_⟩⟩
  · exact (bvnUnary_result _ hctx.runs (relu_computes hF) (by decide) hend x out).1
      (.inr (by omega))
  · exact (bvnUnary_result _ hctx.runs (affine_computes hF scale bias) (by decide) hend x out).1
      (.inr (by omega))
  · exact (hsigmul bvnGeluFactor).1 (.inr (by omega))
  · exact (hsigmul bvnNegLog2e).1 (.inr (by omega))
  · exact (hsigmul bvnGeluFactor).2 (by omega) (by omega)
  · exact (hsigmul bvnNegLog2e).2 (by omega) (by omega)

theorem smallAffine_result :
    ∃ ctx r, bvnOpen true 4096 (fun _ => 0) = some ctx ∧
      bvnAffine HostMath.integer ctx 2 5 (fun i => BitVec.ofNat 32 (i + 1)) (fun _ => 7) 3 = .ok r ∧
      r.ret = 0 ∧ r.out 2 = 11 ∧ r.out 3 = 7 := by
  obtain ⟨ctx, hopen⟩ := exists_bvlibOpen bradlibCompile_bvn 4096 (by decide) fun _ => 0
  obtain ⟨r, hr, hret, hout⟩ := (bvnElementwise_result HostMath.integer_addsZero (.opened hopen)
    (fun i => BitVec.ofNat 32 (i + 1)) (fun _ => 7) (n := 3) (by decide)).2.1 2 5
  exact ⟨ctx, r, hopen, hr, hret, (hout 2).trans (by decide), (hout 3).trans (by decide)⟩

/-- **The vector operations of BVML** compute what they say, in every context in use and for all
vectors that fit into device memory with the result. Their budget always lasts. -/
theorem bvmlVectors_result {F : HostMath} (hF : F.AddsZero) {memBytes : Size} {ctx : BvlibContext}
    (hctx : BvmlInUse F memBytes ctx) (x y out : HostArray) (n : Size) :
    (vectorEnd n.toNat (4 * n.toNat) ≤ allocated memBytes →
      ∀ a, Returns (bvmlSaxpy F ctx a x y out n) out n.toNat fun i => F.add (F.mul a (x i)) (y i)) ∧
    (vectorEnd n.toNat 4 ≤ allocated memBytes →
      Returns (bvmlDot F ctx x y out n) out 1 fun _ => dotSum F x y n.toNat) :=
  ⟨fun hend a => bvmlSaxpy_result hF hctx.runs a x y out hend, bvmlDot_result hF hctx.runs x y out⟩

theorem smallDot_result :
    ∃ ctx r, bvmlOpen true 4096 (fun _ => 0) = some ctx ∧
      bvmlDot HostMath.integer ctx (fun i => BitVec.ofNat 32 (i + 1)) (fun _ => 3) (fun _ => 7) 4 =
        .ok r ∧
      r.ret = 0 ∧ r.out 0 = 30 ∧ r.out 1 = 7 := by
  obtain ⟨ctx, hopen⟩ := exists_bvlibOpen bradlibCompile_bvml 4096 (by decide) fun _ => 0
  obtain ⟨r, hr, hret, hout⟩ := (bvmlVectors_result HostMath.integer_addsZero (.opened hopen)
    (fun i => BitVec.ofNat 32 (i + 1)) (fun _ => 3) (fun _ => 7) 4).2 (by decide)
  exact ⟨ctx, r, hopen, hr, hret, (hout 0).trans (by decide), (hout 1).trans (by decide)⟩

end BradVector
