import BradVector.Proof.Copies

/-!
# How long a softmax takes

Softmax walks its vector three times, with loops of 7, 12 and 8 instructions. The run is followed
exactly, to the number of its instructions: `27 * n + 10` for `n` elements. The memory of a context
has room for more elements than the budget of `launch1` lasts for.
-/

namespace BradVector

open CSem Machine

/-! ### The kernel -/

section Kernel

variable {F : HostMath} {d : Device} {img : BvbcImage} {mem : DevMem} {n j : Nat} {o c : Word}
  {t : Thread} {r : BitVec 8} {i : BvInsn} {block : List BvInsn}

attribute [local simp] plain_eq addImm_eq mov Thread.KnowsAll Thread.FitsAll Thread.run Thread.Knows
  Thread.Fits Thread.exec Thread.addr Thread.launch launchRegs sThreadId sArgBase sNumArgs

/-- An instruction writes no register but its destination. -/
theorem Thread.exec_s_of_ne (h : i.dst ≠ r) : (t.exec F i).s r = t.s r := by
  have hset (v : Option Word) : (t.set i.dst v).s r = t.s r := by
    rw [Thread.set_s, if_neg (Ne.symm h), ite_self]
  unfold Thread.exec
  dsimp only
  split
  case h_12 => split <;> rfl
  case h_13 => rfl
  case h_14 => rfl
  all_goals exact hset _

theorem Thread.run_s_of_ne (h : ∀ i ∈ block, i.dst ≠ r) : (t.run F block).s r = t.s r := by
  induction block generalizing t with
  | nil => rfl
  | cons i is ih =>
      refine (ih fun i' hi' => h i' (List.mem_cons_of_mem i hi')).trans ?_
      exact Thread.exec_s_of_ne (h i List.mem_cons_self)

theorem elemAddr_signExtend {x : Word} (h : x.toNat + 4 * j < 2 ^ 31) :
    ((elemAddr x j).signExtend 64).toNat = x.toNat + 4 * j := by
  have hto : (elemAddr x j).toNat = x.toNat + 4 * j := by
    rw [elemAddr, BitVec.toNat_add, BitVec.toNat_ofNat]
    omega
  rw [signExtend_toNat (by omega), hto]

/-- Element `j` of a vector that ends inside the memory. -/
theorem elem_fits {x : Word} {size : Nat} (hx : x.toNat + 4 * n ≤ size) (hsize : size ≤ 2 ^ 26)
    (hj : j < n) : ((elemAddr x j).signExtend 64).toNat + 4 ≤ size := by
  rw [elemAddr_signExtend (by omega)]
  omega

def SoftmaxDivRegs (o : Word) (n j : Nat) (s : BitVec 8 → Option Word) : Prop :=
  (s 0 = some 0 ∧ s 27 = some (BitVec.ofNat 32 (n - j))) ∧ s 23 = some (elemAddr o j) ∧
    s 19 = some 4 ∧ s 20 = some 1 ∧ ∃ z, s 21 = some z

theorem softmaxMaxLoop_fits (hx : 4 * n ≤ t.mem.size) (hj : j < n)
    (h : SoftmaxMaxRegs o c n j t.s) : t.FitsAll F softmaxMaxLoop := by
  have hload := elem_fits (x := 0) (by simpa using hx) t.mem.size_le hj
  simp [SoftmaxMaxRegs] at h hload
  obtain ⟨⟨h0, h27⟩, h26, h16, h18, h23, h19, h20, h21, z, h25⟩ := h
  simp [softmaxMaxLoop, *]

theorem softmaxSumLoop_fits (ho : o.toNat + 4 * n ≤ t.mem.size) (hj : j < n)
    (h : SoftmaxSumRegs o c n j t.s) : t.FitsAll F softmaxSumLoop := by
  have hin : (0 : Word).toNat + 4 * n ≤ t.mem.size := by
    rw [show (0 : Word).toNat = 0 from rfl]
    omega
  have hload := elem_fits hin t.mem.size_le hj
  have hstore := elem_fits ho t.mem.size_le hj
  simp [SoftmaxSumRegs] at h hload hstore
  obtain ⟨⟨h0, h27⟩, h22, h23, h19, h20, h21, ⟨z, h25⟩, w, h26⟩ := h
  simp [softmaxSumLoop, *]

theorem softmaxDivLoop_spec (ho : o.toNat + 4 * n ≤ t.mem.size) (hj : j < n)
    (h : SoftmaxDivRegs o n j t.s) :
    t.KnowsAll F softmaxDivLoop ∧ t.FitsAll F softmaxDivLoop ∧
      SoftmaxDivRegs o n (j + 1) (t.run F softmaxDivLoop).s := by
  have hstore := elem_fits ho t.mem.size_le hj
  simp [SoftmaxDivRegs] at h hstore
  obtain ⟨⟨h0, h27⟩, h23, h19, h20, z, h21⟩ := h
  simp [SoftmaxDivRegs, elemAddr_succ, countdown_succ hj, softmaxDivLoop, *]

/-- What the loops keep: the address of the result and the count where the launch put them. -/
structure SoftmaxKept (o : Word) (n size : Nat) (t : Thread) : Prop where
  base : t.s 17 = some o
  count : t.s 18 = some (BitVec.ofNat 32 n)
  size : t.mem.size = size

theorem SoftmaxKept.run {size : Nat} (h : SoftmaxKept o n size t) (h17 : ∀ i ∈ block, i.dst ≠ 17)
    (h18 : ∀ i ∈ block, i.dst ≠ 18) : SoftmaxKept o n size (t.run F block) where
  base := (Thread.run_s_of_ne h17).trans h.base
  count := (Thread.run_s_of_ne h18).trans h.count
  size := (Thread.run_memSize t block).trans h.size

theorem SoftmaxKept.test {size : Nat} (h : SoftmaxKept o n size t) (w : Word) :
    SoftmaxKept o n size (t.test w) := ⟨h.base, h.count, h.size⟩

theorem softmaxPrologue_spec (hF : F.AddsZero) (ho : o.toNat ≤ 2 ^ 26) (hlen : 4 * n ≤ 2 ^ 26)
    (hfour : 4 ≤ mem.size) :
    (Thread.launch [0, o, BitVec.ofNat 32 n, 4, 1, c] mem).KnowsAll F softmaxPrologue ∧
      (Thread.launch [0, o, BitVec.ofNat 32 n, 4, 1, c] mem).FitsAll F softmaxPrologue ∧
      SoftmaxMaxRegs o c n 0
        ((Thread.launch [0, o, BitVec.ofNat 32 n, 4, 1, c] mem).run F softmaxPrologue).s ∧
      SoftmaxKept o n mem.size
        ((Thread.launch [0, o, BitVec.ofNat 32 n, 4, 1, c] mem).run F softmaxPrologue) := by
  refine ⟨?_, ?_, ?_, ⟨?_, ?_, Thread.run_memSize _ _⟩⟩
  all_goals
    simp [softmaxPrologue, SoftmaxMaxRegs, elemAddr_zero, hF.zero, hF.addr ho, hF.count hlen, hfour]

theorem softmaxEnd_spec (hF : F.AddsZero) (ho : o.toNat ≤ 2 ^ 26) (hlen : 4 * n ≤ 2 ^ 26)
    (h : SoftmaxSumRegs o c n n t.s) (h17 : t.s 17 = some o)
    (h18 : t.s 18 = some (BitVec.ofNat 32 n)) :
    t.KnowsAll F softmaxEnd ∧ t.FitsAll F softmaxEnd ∧
      SoftmaxDivRegs o n 0 (t.run F softmaxEnd).s := by
  simp [SoftmaxSumRegs] at h h17 h18
  obtain ⟨⟨h0, h27⟩, h22, h23, h19, h20, h21, ⟨z, h25⟩, w, h26⟩ := h
  simp [SoftmaxDivRegs, elemAddr_zero, softmaxEnd, hF.addr ho, hF.count hlen, *]

theorem softmaxMax_steps {size : Nat} (hcode : img.Holds 34 (softmaxMaxLoop ++ countdown 27 0xF9))
    (hn : 0 < n) (hfit : 4 * n ≤ size) (hsize : size ≤ 2 ^ 26) (h : d.At img 34 t)
    (hregs : SoftmaxMaxRegs o c n 0 t.s) (hkept : SoftmaxKept o n size t) :
    ∃ e t', d.Steps F (7 * n - 1) e ∧ e.At img 41 t' ∧ SoftmaxMaxRegs o c n n t'.s ∧
      SoftmaxKept o n size t' := by
  rw [Nat.mul_comm 7]
  refine h.loop_steps (I := fun j t => SoftmaxMaxRegs o c n j t.s ∧ SoftmaxKept o n size t) hn
    (by omega) ⟨hregs, hkept⟩ hcode (by decide) (fun _ _ h => h.1.1) ?_ fun _ _ _ h =>
      ⟨h.1, h.2.test _⟩
  rintro j hj t ⟨hregs, hkept⟩
  obtain ⟨hk, hnext⟩ := softmaxMaxLoop_spec (F := F) hj t hregs
  refine ⟨hk, softmaxMaxLoop_fits ?_ hj hregs, hnext, hkept.run (by decide) (by decide)⟩
  rw [hkept.size]
  exact hfit

theorem softmaxSum_steps {size : Nat} (hcode : img.Holds 44 (softmaxSumLoop ++ countdown 27 0xF4))
    (hn : 0 < n) (hfit : o.toNat + 4 * n ≤ size) (hsize : size ≤ 2 ^ 26) (h : d.At img 44 t)
    (hregs : SoftmaxSumRegs o c n 0 t.s) (hkept : SoftmaxKept o n size t) :
    ∃ e t', d.Steps F (12 * n - 1) e ∧ e.At img 56 t' ∧ SoftmaxSumRegs o c n n t'.s ∧
      SoftmaxKept o n size t' := by
  rw [Nat.mul_comm 12]
  refine h.loop_steps (I := fun j t => SoftmaxSumRegs o c n j t.s ∧ SoftmaxKept o n size t) hn
    (by omega) ⟨hregs, hkept⟩ hcode (by decide) (fun _ _ h => h.1.1) ?_ fun _ _ _ h =>
      ⟨h.1, h.2.test _⟩
  rintro j hj t ⟨hregs, hkept⟩
  have hloop := softmaxSumLoop_stores (F := F) (n := n) (o := o) c
  refine ⟨hloop.knows j hj t hregs, softmaxSumLoop_fits ?_ hj hregs, hloop.next j hj t hregs,
    hkept.run (by decide) (by decide)⟩
  rw [hkept.size]
  exact hfit

theorem softmaxDiv_steps {size : Nat} (hcode : img.Holds 59 (softmaxDivLoop ++ countdown 27 0xF8))
    (hn : 0 < n) (hfit : o.toNat + 4 * n ≤ size) (hsize : size ≤ 2 ^ 26) (h : d.At img 59 t)
    (hregs : SoftmaxDivRegs o n 0 t.s) (hkept : SoftmaxKept o n size t) :
    ∃ e t', d.Steps F (8 * n - 1) e ∧ e.At img 67 t' ∧ SoftmaxKept o n size t' := by
  rw [Nat.mul_comm 8]
  obtain ⟨e, t', he, hat, -, hkept'⟩ := h.loop_steps (F := F)
    (I := fun j t => SoftmaxDivRegs o n j t.s ∧ SoftmaxKept o n size t) hn
    (by omega) ⟨hregs, hkept⟩ hcode (by decide) (fun _ _ h => h.1.1) (by
      rintro j hj t ⟨hregs, hkept⟩
      obtain ⟨hk, hin, hnext⟩ := softmaxDivLoop_spec (F := F) (hkept.size ▸ hfit) hj hregs
      exact ⟨hk, hin, hnext, hkept.run (by decide) (by decide)⟩) fun _ _ _ h => ⟨h.1, h.2.test _⟩
  exact ⟨e, t', he, hat, hkept'⟩

/-- **The kernel** halts after `27 * n + 10` instructions. -/
theorem softmax_steps (hF : F.AddsZero) (himg : img.summary = bvnSummary) (hn : 0 < n)
    (ho : o.toNat + 4 * n ≤ mem.size)
    (h : d.At img 28 (Thread.launch [0, o, BitVec.ofNat 32 n, 4, 1, c] mem)) :
    ∃ e, d.Steps F (27 * n + 10) e ∧ e.warp.active = 0 ∧ e.img = img ∧ e.mem.size = mem.size := by
  have hsize : mem.size ≤ 2 ^ 26 := mem.size_le
  have hmax : img.Holds 28 (softmaxPrologue ++ (softmaxMaxLoop ++ countdown 27 0xF9)) :=
    holds_of_summary himg (by decide) rfl
  have hsum : img.Holds 41 (softmaxMiddle ++ (softmaxSumLoop ++ countdown 27 0xF4)) :=
    holds_of_summary himg (by decide) rfl
  have hdiv : img.Holds 56 (softmaxEnd ++ (softmaxDivLoop ++ countdown 27 0xF8)) :=
    holds_of_summary himg (by decide) rfl
  have hexit : img.Holds 67 [exitInsn] := holds_of_summary himg (by decide) rfl
  have hfour : 4 ≤ mem.size := by omega
  obtain ⟨hk, hfits, hregs, hkept⟩ :=
    softmaxPrologue_spec (c := c) hF (o := o) (n := n) (by omega) (by omega) hfour
  obtain ⟨d₁, hd₁, h₁⟩ := h.run_steps hmax.append.1 hk hfits
  obtain ⟨d₂, t₂, hd₂, h₂, hregs₂, hkept₂⟩ :=
    softmaxMax_steps (F := F) hmax.append.2 hn (by omega) hsize h₁ hregs hkept
  obtain ⟨hk₂, hregs₃⟩ := softmaxMiddle_spec hF (by omega) hregs₂
  obtain ⟨d₃, hd₃, h₃⟩ := h₂.run_steps hsum.append.1 hk₂ (by simp [softmaxMiddle])
  obtain ⟨d₄, t₄, hd₄, h₄, hregs₄, hkept₄⟩ := softmaxSum_steps (F := F) hsum.append.2 hn ho hsize h₃
    hregs₃ (hkept₂.run (by decide) (by decide))
  obtain ⟨hk₄, hfits₄, hregs₅⟩ :=
    softmaxEnd_spec hF (by omega) (by omega) hregs₄ hkept₄.base hkept₄.count
  obtain ⟨d₅, hd₅, h₅⟩ := h₄.run_steps hdiv.append.1 hk₄ hfits₄
  obtain ⟨d₆, t₆, hd₆, h₆, hkept₆⟩ := softmaxDiv_steps (F := F) hdiv.append.2 hn ho hsize h₅ hregs₅
    (hkept₄.run (by decide) (by decide))
  obtain ⟨d₇, hd₇, hactive, hmem, himg'⟩ :=
    h₆.exit_next (F := F) hexit.head (by simp [exitInsn, plain_eq])
  refine ⟨d₇, ?_, hactive, himg', by rw [hmem, hkept₆.size]⟩
  rw [show 27 * n + 10 = 6 + (7 * n - 1) + 3 + (12 * n - 1) + 3 + (8 * n - 1) + 1 by omega]
  exact ((((((hd₁.trans hd₂).trans hd₃).trans hd₄).trans hd₅).trans hd₆).trans (steps_one hd₇))

/-- A kernel that is told to walk over no element walks over all there are, and past the memory. -/
theorem softmax_zero_not_halts (hF : F.AddsZero) (himg : img.summary = bvnSummary)
    (ho : o.toNat ≤ 2 ^ 26)
    (h : d.At img 28 (Thread.launch [0, o, 0, 4, 1, c] mem)) : ¬ d.Halts F := by
  intro hd
  have hmax : img.Holds 28 (softmaxPrologue ++ (softmaxMaxLoop ++ countdown 27 0xF9)) :=
    holds_of_summary himg (by decide) rfl
  have hstart : (Thread.launch [0, o, 0, 4, 1, c] mem).KnowsAll F softmaxPrologue ∧
      SoftmaxMaxRegs o c (2 ^ 32) 0
        ((Thread.launch [0, o, 0, 4, 1, c] mem).run F softmaxPrologue).s := by
    simp [softmaxPrologue, SoftmaxMaxRegs, elemAddr_zero, hF.zero, hF.addr ho]
  obtain ⟨-, e, he, hat⟩ := h.run_halts hd hmax.append.1 hstart.1
  obtain ⟨hiter, -⟩ := hat.loop_halts (by decide : 0 < 2 ^ 32) (Nat.le_refl _) he hstart.2
    hmax.append.2 (by decide) (fun _ _ h => h.1) fun j hj => softmaxMaxLoop_spec hj
  -- element `2 ^ 24` lies behind the largest memory
  obtain ⟨t', hregs, -, hfits⟩ := hiter (2 ^ 24) (by decide)
  have hsize : t'.mem.size ≤ 2 ^ 26 := t'.mem.size_le
  have haddr := elemAddr_signExtend (x := 0) (j := 2 ^ 24) (by decide)
  simp [SoftmaxMaxRegs] at hregs haddr
  obtain ⟨-, h26, -⟩ := hregs
  simp [softmaxMaxLoop, h26] at hfits
  omega

end Kernel

/-! ### The budget -/

section Budget

variable {F : HostMath} {d e : Device} {N k : Nat}

/-- A run that halts after `k` instructions does so within a budget of `N`, or is stopped. -/
theorem bvrtRun_of_halts (hd : d.insns = 0) (hsteps : d.Steps F k e) (he : e.warp.active = 0) :
    (k ≤ N ∧ bvrtRun F d N = .ok (.halt, e)) ∨
      (N < k ∧ ∃ d', bvrtRun F d N = .ok (.timeout, d')) := by
  rcases Nat.lt_or_ge N k with hlt | hle
  · obtain ⟨u, hu, hrest⟩ := exists_after_of_le hsteps (Nat.le_of_lt hlt)
    have hu : d.Steps F N u := hu
    have hinsns := steps_insns hu
    obtain ⟨m, hm⟩ : ∃ m, k - N = m + 1 := ⟨k - N - 1, by omega⟩
    rw [hm] at hrest
    obtain ⟨v, hv, -⟩ := after_head_eq_ok_iff.mp hrest
    refine .inr ⟨hlt, u, ?_⟩
    rw [bvrtRun_of_steps (by omega) hu, bvrtRun_of_spent (by omega), Device.runResult,
      if_neg (executing_of_next hv).1.1]
  · refine .inl ⟨hle, ?_⟩
    rw [bvrtRun_of_steps (by omega) hsteps, bvrtRun_of_halted he]

end Budget

section Calls

variable {F : HostMath} {ctx : BvlibContext} {memBytes n : Size} {x out : HostArray} {k : Nat}
  {o c : Word}

/-- **One launch** of the kernel comes back, or runs out of its budget. -/
theorem softmax_launch1 (hF : F.AddsZero) (h : ctx.Runs bvnSummary memBytes) (hk : 0 < k)
    (ho : o.toNat + 4 * k ≤ allocated memBytes) :
    (27 * k + 10 ≤ bvlibMaxInsns ∧ ∃ ctx', ctx'.Runs bvnSummary memBytes ∧
        launch1 F ctx (cstr "softmax") [0, o, BitVec.ofNat 32 k, 4, 1, c] = .ok ctx') ∨
      (bvlibMaxInsns < 27 * k + 10 ∧ ∃ ctx',
        launch1 F ctx (cstr "softmax") [0, o, BitVec.ofNat 32 k, 4, 1, c] = .stop (-4, ctx')) := by
  have hentry : ctx.dev.img.Entry (cstr "softmax") 28 :=
    entry_of_summary (h.img : _ = (bvnCode, _)) (by decide)
  obtain ⟨d, hlaunch, hat, hinsns⟩ :=
    launch_at hentry [0, o, BitVec.ofNat 32 k, 4, 1, c] rfl
  obtain ⟨e, hsteps, hactive, himg, hsize⟩ := softmax_steps hF h.img hk (h.size ▸ ho) hat
  unfold launch1
  rw [hlaunch]
  dsimp only
  rcases bvrtRun_of_halts (N := bvlibMaxInsns) hinsns hsteps hactive with
    ⟨hle, hrun⟩ | ⟨hlt, d', hrun⟩
  · rw [hrun]
    refine .inl ⟨hle, { ctx with dev := e }, ⟨h.pos, h.mem, ?_, hsize.trans h.size⟩, rfl⟩
    exact (congrArg _ himg).trans h.img
  · rw [hrun]
    exact .inr ⟨hlt, _, rfl⟩

/-- A launch that is told to walk over no element does not come back. -/
theorem softmax_launch1_zero (hF : F.AddsZero) (h : ctx.Runs bvnSummary memBytes)
    (ho : o.toNat ≤ 2 ^ 26) :
    (launch1 F ctx (cstr "softmax") [0, o, 0, 4, 1, c]).Sat (fun _ => False) (fun e => e.1 = -4)
      fun _ => True := by
  have hentry : ctx.dev.img.Entry (cstr "softmax") 28 :=
    entry_of_summary (h.img : _ = (bvnCode, _)) (by decide)
  obtain ⟨d, hlaunch, hat, -⟩ := launch_at hentry [0, o, 0, 4, 1, c] rfl
  have hnot := softmax_zero_not_halts hF h.img ho hat
  unfold launch1
  rw [hlaunch]
  dsimp only
  rcases hrun : bvrtRun F d bvlibMaxInsns with a | ⟨st, e⟩
  · trivial
  · cases st
    case halt => exact hnot (halts_of_run hrun)
    all_goals rfl

/-- The sizes of a call that has passed its test, for a vector that fits into some memory. -/
theorem softmax_layout (hmem : memBytes.toNat ≤ 2 ^ 26) (hpos : memBytes ≠ 0)
    (hcheck : unaryOoff n + n * sizeofFloat ≤ memBytes) (hin : (n * sizeofFloat).toNat ≤ 2 ^ 26) :
    (unaryOoff n).toNat ≤ 2 ^ 26 ∧
      (unaryOoff n).toNat + (n * sizeofFloat).toNat ≤ allocated memBytes := by
  have hoff := (align16_le (x := n * sizeofFloat) hin).2
  have hle := BitVec.le_def.mp hcheck
  rw [BitVec.toNat_add, unaryOoff, Nat.mod_eq_of_lt (by omega)] at hle
  have hone : 0 < memBytes.toNat := Nat.pos_of_ne_zero fun h => hpos (BitVec.eq_of_toNat_eq h)
  refine ⟨hoff, ?_⟩
  change _ ≤ min (max memBytes.toNat 1) (64 * 1024 * 1024)
  rw [unaryOoff]
  omega

/-- The number of elements that a call copies, since it counts bytes modulo `2 ^ 64`. -/
def softmaxCount (n : Size) : Nat := n.toNat % 2 ^ 62

theorem softmaxCount_bytes (n : Size) : (n * sizeofFloat).toNat = 4 * softmaxCount n := by
  rw [toNat_mul_sizeofFloat, softmaxCount]
  omega

theorem softmaxCount_setWidth (n : Size) : n.setWidth 32 = BitVec.ofNat 32 (softmaxCount n) := by
  apply BitVec.eq_of_toNat_eq
  rw [BitVec.toNat_setWidth, BitVec.toNat_ofNat, softmaxCount]
  omega

/-- The call comes back, and not because its budget has run out. -/
def CompletesInBudget (call : Except BvlibFault CallResult) : Prop :=
  ∃ r, call = .ok r ∧ r.ret ≠ -4

/-- **The calls that last.** -/
theorem softmax_completes_iff (hF : F.AddsZero) (h : ctx.Runs bvnSummary memBytes)
    (hmem : memBytes.toNat ≤ 2 ^ 26) (x out : HostArray)
    (hcheck : unaryOoff n + n * sizeofFloat ≤ memBytes) :
    CompletesInBudget (bvnSoftmax F ctx x out n) ↔
      n = 0 ∨ 0 < softmaxCount n ∧ 27 * softmaxCount n + 10 ≤ bvlibMaxInsns := by
  unfold bvnSoftmax bvnUnary CompletesInBudget
  rw [h.mem]
  by_cases hn : n = 0
  · rw [if_pos hn]
    exact iff_of_true ⟨_, rfl, (by decide : (0 : Int) ≠ -4)⟩ (.inl hn)
  rw [if_neg hn, if_neg (BitVec.not_lt.mpr hcheck), softmaxCount_setWidth n, or_iff_right hn]
  have hbytes := softmaxCount_bytes n
  have hbudget : bvlibMaxInsns = 100000000 := rfl
  by_cases hin : (n * sizeofFloat).toNat ≤ 2 ^ 26
  · obtain ⟨ho, hfit⟩ := softmax_layout hmem h.pos hcheck hin
    have hin' : (0 : Size).toNat + (n * sizeofFloat).toNat ≤ allocated memBytes := by
      rw [show (0 : Size).toNat = 0 from rfl]
      omega
    obtain ⟨c₁, hcopy, h₁⟩ := copyIn_of_inside (x := x) h hin'
    have ho' := setWidth_toNat ho
    rw [hcopy]
    dsimp only [Outcome.bind_eq_bind]
    rw [Outcome.ok_bind]
    rcases Nat.eq_zero_or_pos (softmaxCount n) with hzero | hpos
    · rw [hzero]
      have hnever : (launch1 F c₁ (cstr "softmax") [0, (unaryOoff n).setWidth 32,
          BitVec.ofNat 32 0, 4, 1, bvnLog2e]).Sat (fun _ => False) (fun e => e.1 = -4)
          fun _ => True :=
        softmax_launch1_zero hF h₁ (by omega)
      generalize launch1 F c₁ (cstr "softmax") [0, (unaryOoff n).setWidth 32, BitVec.ofNat 32 0, 4,
        1, bvnLog2e] = launched at hnever ⊢
      refine iff_of_false ?_ (by omega)
      rintro ⟨r, hr, hret⟩
      rcases launched with c₂ | ⟨ret, c₂⟩ | u
      · exact hnever
      · cases hr
        exact hret hnever
      · cases hr
    · rcases softmax_launch1 (c := bvnLog2e) (o := (unaryOoff n).setWidth 32) hF h₁ hpos
        (by omega) with ⟨hle, c₂, h₂, hlaunch⟩ | ⟨hlt, c₂, hlaunch⟩
      · rw [hlaunch, Outcome.ok_bind]
        refine iff_of_true ?_ ⟨hpos, hle⟩
        unfold copyOut
        rw [if_pos (h₂.size ▸ hfit)]
        exact ⟨_, rfl, (by decide : (0 : Int) ≠ -4)⟩
      · rw [hlaunch]
        refine iff_of_false ?_ (by omega)
        rintro ⟨r, hr, hret⟩
        cases hr
        exact hret rfl
  · have hle := allocated_le memBytes
    rw [copyIn_of_outside h (by omega)]
    refine iff_of_false ?_ (by omega)
    rintro ⟨r, hr, -⟩
    cases hr

end Calls

/-- **Softmax within its budget.** In every context of at most 64 MiB, and for every length that
passes the test of `bvn_softmax`, the call completes if and only if the length is zero, or the
number of elements it counts is not, and 27 instructions for each of them are within the budget. -/
theorem softmax_in_budget_iff {F : HostMath} (hF : F.AddsZero) {memBytes : Size}
    (hmem : memBytes.toNat ≤ 2 ^ 26) {ctx : BvlibContext} (hctx : BvnInUse F memBytes ctx)
    (x out : HostArray) {n : Size} (hcheck : unaryOoff n + n * sizeofFloat ≤ memBytes) :
    CompletesInBudget (bvnSoftmax F ctx x out n) ↔
      n = 0 ∨ 0 < softmaxCount n ∧ 27 * softmaxCount n + 10 ≤ bvlibMaxInsns :=
  softmax_completes_iff hF hctx.runs hmem x out hcheck

/-- Three elements and 4 KiB. -/
theorem smallSoftmax_in_budget :
    ∃ ctx, bvnOpen true 4096 (fun _ => 0) = some ctx ∧
      ∀ x out, CompletesInBudget (bvnSoftmax HostMath.integer ctx x out 3) := by
  obtain ⟨ctx, hopen⟩ := exists_bvlibOpen bradlibCompile_bvn 4096 (by decide) fun _ => 0
  refine ⟨ctx, hopen, fun x out => ?_⟩
  exact (softmax_in_budget_iff HostMath.integer_addsZero (by decide) (.opened hopen) x out
    (by decide)).mpr (.inr (by decide))

/-- The 8 388 608 elements that fit into 64 MiB take 226 492 426 instructions. -/
theorem not_forall_softmax_in_budget :
    ¬ ∀ (memBytes : Size) (ctx : BvlibContext), memBytes.toNat ≤ 2 ^ 26 →
      BvnInUse HostMath.integer memBytes ctx → ∀ x out n,
        unaryOoff n + n * sizeofFloat ≤ memBytes →
          CompletesInBudget (bvnSoftmax HostMath.integer ctx x out n) := by
  intro hall
  obtain ⟨ctx, hopen⟩ := exists_bvlibOpen bradlibCompile_bvn 0x4000000 (by decide) fun _ => 0
  have hctx : BvnInUse HostMath.integer 0x4000000 ctx := .opened hopen
  have hcheck : unaryOoff 0x800000 + 0x800000 * sizeofFloat ≤ 0x4000000 := by decide
  have hcompletes := hall _ ctx (by decide) hctx (fun _ => 0) (fun _ => 0) 0x800000 hcheck
  exact absurd ((softmax_completes_iff HostMath.integer_addsZero hctx.runs
    (by decide) _ _ hcheck).mp hcompletes) (by decide)

end BradVector
