import BradVector.Proof.VectorResults

/-!
# What a softmax computes

The three loops of the kernel find the largest element, store the exponentials while they add them
up, and multiply what they stored by the reciprocal of the sum. The last loop works in place.
-/

namespace BradVector

open CSem Machine

/-! ### The result -/

/-- The largest of the first `k` elements and of element 0, as `MAX` compares them. -/
def softmaxMax (F : HostMath) (x : HostArray) : Nat → Word
  | 0 => x 0
  | k + 1 => if F.lt (softmaxMax F x k) (x k) then x k else softmaxMax F x k

/-- The exponential of element `j`, with the largest of `n` elements subtracted first. -/
def softmaxExp (F : HostMath) (c : Word) (x : HostArray) (n j : Nat) : Word :=
  F.exp2 (F.mul (F.sub (x j) (softmaxMax F x n)) c)

/-- The sum of the first `k` exponentials, from the left. -/
def softmaxSum (F : HostMath) (c : Word) (x : HostArray) (n : Nat) : Nat → Word
  | 0 => 0
  | k + 1 => F.add (softmaxSum F c x n k) (softmaxExp F c x n k)

def softmaxValue (F : HostMath) (c : Word) (x : HostArray) (n j : Nat) : Word :=
  F.mul (softmaxExp F c x n j) (F.div floatOne (softmaxSum F c x n n))

/-! ### The loops -/

theorem Stored.again {old mid mem : DevMem} {o n : Nat} {val val' : HostArray}
    (h : Stored old o val' n mid) (h' : Stored mid o val n mem) : Stored old o val n mem :=
  ⟨h'.size.trans h.size, h'.new, fun a ha => (h'.rest a ha).trans (h.rest a ha)⟩

section Kernel

variable {F : HostMath} {d : Device} {img : BvbcImage} {mem : DevMem} {n j : Nat} {o c : Word}
  {x : HostArray} {t : Thread}

attribute [local simp] plain_eq addImm_eq mov Thread.KnowsAll Thread.FitsAll Thread.run Thread.Knows
  Thread.Fits Thread.exec Thread.addr Thread.launch launchRegs sThreadId sArgBase sNumArgs

/-- Before iteration `j` of the first loop the maximum is that of the elements before it. -/
structure SoftmaxMaxState (F : HostMath) (x : HostArray) (o c : Word) (n : Nat) (mem : DevMem)
    (j : Nat) (t : Thread) : Prop where
  regs : SoftmaxMaxRegs o c n j t.s
  max : t.s 25 = some (softmaxMax F x j)
  kept : SoftmaxKept o n mem.size t
  mem : t.mem = mem

theorem softmaxMaxLoop_finds (hl : UnaryLayout x n o mem) (hj : j < n)
    (h : SoftmaxMaxState F x o c n mem j t) :
    t.KnowsAll F softmaxMaxLoop ∧ t.FitsAll F softmaxMaxLoop ∧
      SoftmaxMaxState F x o c n mem (j + 1) (t.run F softmaxMaxLoop) := by
  obtain ⟨hregs, hmax, hkept, hmem⟩ := h
  have hx := hl.operand j hj
  have hload := (hl.access hj).load
  have hfits : 4 * n ≤ t.mem.size := by
    have := hl.before
    have := hl.inside
    rw [hkept.size]
    omega
  obtain ⟨hk, hnext⟩ := softmaxMaxLoop_spec (F := F) hj t hregs
  refine ⟨hk, softmaxMaxLoop_fits hfits hj hregs, hnext, ?_, hkept.run (by decide) (by decide), ?_⟩
  all_goals
    simp [SoftmaxMaxRegs] at hregs hmax hload
    obtain ⟨⟨h0, h27⟩, h26, h16, h18, h23, h19, h20, h21, -⟩ := hregs
    simp [softmaxMaxLoop, softmaxMax, *]

/-- Before iteration `j` of the second loop the sum is over the exponentials before it. -/
def SoftmaxSumState (F : HostMath) (x : HostArray) (o c : Word) (n j : Nat)
    (s : BitVec 8 → Option Word) : Prop :=
  SoftmaxSumRegs o c n j s ∧ s 25 = some (softmaxMax F x n) ∧ s 26 = some (softmaxSum F c x n j) ∧
    s 17 = some o ∧ s 18 = some (BitVec.ofNat 32 n)

theorem softmaxSumLoop_maps (hl : UnaryLayout x n o mem) :
    MapLoop F softmaxSumLoop 27 o n mem (softmaxExp F c x n) (SoftmaxSumState F x o c n) := by
  have hloop := softmaxSumLoop_stores (F := F) (o := o) (n := n) c
  refine ⟨fun j s hs => hloop.counts j s hs.1, fun j hj t ht => hloop.knows j hj t ht.1, ?_, ?_⟩
  · intro j hj t ht hsize
    exact softmaxSumLoop_fits (by rw [hsize]; exact hl.inside) hj ht.1
  · rintro j hj t ⟨hregs, hmax, hsum, h17, h18⟩ hm
    obtain ⟨hload, hstore, -, -⟩ := hl.access hj
    have hx := hl.loaded hj hm
    have hnext := hloop.next j hj t hregs
    refine ⟨⟨hnext, ?_, ?_, ?_, ?_⟩, ?_⟩
    all_goals
      simp [SoftmaxSumRegs] at hregs hmax hsum h17 h18 hload hstore
      obtain ⟨⟨h0, h27⟩, h22, h23, h19, h20, h21, -⟩ := hregs
      simp [softmaxSumLoop, softmaxSum, softmaxExp, *]

/-- The third loop has the reciprocal `r` of the sum. -/
def SoftmaxDivState (o r : Word) (n j : Nat) (s : BitVec 8 → Option Word) : Prop :=
  SoftmaxDivRegs o n j s ∧ s 21 = some r

/-- The loop works in place: an element is loaded before it is stored. -/
theorem softmaxDivLoop_maps {val : HostArray} {r : Word} (ho : o.toNat + 4 * n ≤ mem.size)
    (hval : ∀ j < n, wordAt mem.bytes (o.toNat + 4 * j) = val j) :
    MapLoop F softmaxDivLoop 27 o n mem (fun j => F.mul (val j) r) (SoftmaxDivState o r n) := by
  have hsize : mem.size ≤ 2 ^ 26 := mem.size_le
  refine ⟨fun j s hs => hs.1.1, fun j hj t ht => ?_, fun j hj t ht hsize => ?_,
    fun j hj t ht hm => ?_⟩
  · obtain ⟨⟨⟨h0, h27⟩, h23, h19, h20, -⟩, h21⟩ := ht
    simp at h0 h27 h23 h19 h20 h21
    simp [softmaxDivLoop, *]
  · exact (softmaxDivLoop_spec (by rw [hsize]; exact ho) hj ht.1).2.1
  · have hnext := (softmaxDivLoop_spec (F := F) (by rw [hm.size]; exact ho) hj ht.1).2.2
    have hload : wordAt t.mem.bytes (o.toNat + 4 * j) = val j := by
      rw [hm.rest _ (.inr (le_refl _)), hval j hj]
    have haddr := elemAddr_signExtend (x := o) (j := j) (by omega)
    obtain ⟨⟨⟨h0, h27⟩, h23, h19, h20, -⟩, h21⟩ := ht
    refine ⟨⟨hnext, ?_⟩, ?_⟩
    all_goals
      simp at h0 h27 h23 h19 h20 h21 haddr
      simp [softmaxDivLoop, *]

/-! ### The kernel -/

theorem softmaxPrologue_starts (hF : F.AddsZero) (hl : UnaryLayout x n o mem) (hn : 0 < n) :
    let t := Thread.launch [0, o, BitVec.ofNat 32 n, 4, 1, c] mem
    t.KnowsAll F softmaxPrologue ∧ t.FitsAll F softmaxPrologue ∧
      SoftmaxMaxState F x o c n mem 0 (t.run F softmaxPrologue) := by
  have hsize : mem.size ≤ 2 ^ 26 := mem.size_le
  have hb := hl.before
  have hi := hl.inside
  have hx : wordAt mem.bytes 0 = x 0 := hl.operand 0 hn
  have hfour : 4 ≤ mem.size := by omega
  obtain ⟨hk, hfits, hregs, hkept⟩ :=
    softmaxPrologue_spec (c := c) hF (o := o) (n := n) (by omega) (by omega) hfour
  refine ⟨hk, hfits, hregs, ?_, hkept, ?_⟩
  all_goals simp [softmaxPrologue, softmaxMax, hF.zero, hx]

theorem softmaxMiddle_starts (hF : F.AddsZero) (hlen : 4 * n ≤ 2 ^ 26)
    (h : SoftmaxMaxState F x o c n mem n t) :
    t.KnowsAll F softmaxMiddle ∧ SoftmaxSumState F x o c n 0 (t.run F softmaxMiddle).s ∧
      (t.run F softmaxMiddle).mem = mem := by
  obtain ⟨hregs, hmax, hkept, hmem⟩ := h
  obtain ⟨hk, hnext⟩ := softmaxMiddle_spec hF hlen hregs
  have hkept' : SoftmaxKept o n mem.size (t.run F softmaxMiddle) :=
    hkept.run (by decide) (by decide)
  refine ⟨hk, ⟨hnext, ?_, ?_, hkept'.base, hkept'.count⟩, ?_⟩
  all_goals
    simp [SoftmaxMaxRegs] at hregs hmax
    obtain ⟨⟨h0, h27⟩, h26, h16, h18, h23, h19, h20, h21, -⟩ := hregs
    simp [softmaxMiddle, softmaxSum, hF.zero, *]

theorem softmaxEnd_starts (hF : F.AddsZero) (ho : o.toNat ≤ 2 ^ 26) (hlen : 4 * n ≤ 2 ^ 26)
    (h : SoftmaxSumState F x o c n n t.s) :
    t.KnowsAll F softmaxEnd ∧ t.FitsAll F softmaxEnd ∧
      SoftmaxDivState o (F.div floatOne (softmaxSum F c x n n)) n 0 (t.run F softmaxEnd).s ∧
      (t.run F softmaxEnd).mem = t.mem := by
  obtain ⟨hregs, -, hsum, h17, h18⟩ := h
  obtain ⟨hk, hfits, hnext⟩ := softmaxEnd_spec hF ho hlen hregs h17 h18
  refine ⟨hk, hfits, ⟨hnext, ?_⟩, ?_⟩
  all_goals
    simp at hsum
    simp [softmaxEnd, hsum]

theorem softmax_computes (hF : F.AddsZero) (c : Word) :
    KernelComputes F 28 (fun o n => [0, o, n, 4, 1, c]) (fun n => 27 * n + 10)
      (softmaxValue F c) := by
  intro d img mem n o x himg hn hbefore hinside hx h
  have hsize : mem.size ≤ 2 ^ 26 := mem.size_le
  have hl : UnaryLayout x n o mem := ⟨hbefore, hinside, hx⟩
  have hmax : img.Holds 28 (softmaxPrologue ++ (softmaxMaxLoop ++ countdown 27 0xF9)) :=
    holds_of_summary himg (by decide) rfl
  have hsum : img.Holds 41 (softmaxMiddle ++ (softmaxSumLoop ++ countdown 27 0xF4)) :=
    holds_of_summary himg (by decide) rfl
  have hdiv : img.Holds 56 (softmaxEnd ++ (softmaxDivLoop ++ (countdown 27 0xF8 ++ [exitInsn]))) :=
    holds_of_summary himg (by decide) rfl
  -- the largest element
  obtain ⟨hk, hfits, hstate⟩ := softmaxPrologue_starts (c := c) hF hl hn
  obtain ⟨d₁, hd₁, h₁⟩ := h.run_steps hmax.append.1 hk hfits
  obtain ⟨d₂, t₂, hd₂, h₂, hstate₂⟩ :=
    h₁.loop_steps (F := F) (I := SoftmaxMaxState F x o c n mem) hn
    (by omega) hstate hmax.append.2 (by decide) (fun _ _ h => h.regs.1)
    (fun j hj t ht => softmaxMaxLoop_finds hl hj ht) fun _ _ w h =>
      ⟨h.regs, h.max, h.kept.test w, h.mem⟩
  -- the exponentials and their sum
  obtain ⟨hk₂, hsumState, hmem₃⟩ := softmaxMiddle_starts hF (by omega) hstate₂
  obtain ⟨d₃, hd₃, h₃⟩ := h₂.run_steps hsum.append.1 hk₂ (by simp [softmaxMiddle])
  obtain ⟨d₄, t₄, hd₄, h₄, hsumState₄, hexps⟩ := (softmaxSumLoop_maps (F := F) (c := c) hl).steps hn
    (by omega) h₃ hsumState (hmem₃ ▸ Stored.nothing _ _ _) hsum.append.2 (by decide)
  -- the quotients, in place
  obtain ⟨hk₄, hfits₄, hdivState, hmem₅⟩ := softmaxEnd_starts hF (by omega) (by omega) hsumState₄
  obtain ⟨d₅, hd₅, hactive, himg₅, hquotients⟩ := (softmaxDivLoop_maps (F := F)
      (r := F.div floatOne (softmaxSum F c x n n))
        (hexps.size.symm ▸ hinside) hexps.new).kernel_steps hn
    (by omega) h₄ hk₄ hfits₄ hdivState hmem₅ hdiv (by decide)
  refine ⟨d₅, ?_, hactive, himg₅, hexps.again hquotients⟩
  have hsteps := (((hd₁.trans hd₂).trans hd₃).trans hd₄).trans hd₅
  rwa [show softmaxPrologue.length + (n * (softmaxMaxLoop.length + 3) - 1) + softmaxMiddle.length +
      (n * (softmaxSumLoop.length + 3) - 1) +
        (n * (softmaxDivLoop.length + 3) + softmaxEnd.length) =
        27 * n + 10 by
    rw [show softmaxPrologue.length = 6 from rfl, show softmaxMaxLoop.length = 4 from rfl,
      show softmaxMiddle.length = 3 from rfl, show softmaxSumLoop.length = 9 from rfl,
      show softmaxDivLoop.length = 5 from rfl, show softmaxEnd.length = 3 from rfl]
    omega] at hsteps

end Kernel

/-- **Softmax is correct.** In every context in use, and for every vector that fits into device
memory with its result, the call returns the exponentials of the elements less the largest one, each
multiplied by the reciprocal of their sum, if 27 instructions for each element are within the
budget; otherwise it gives up. -/
theorem bvnSoftmax_result {F : HostMath} (hF : F.AddsZero) {memBytes : Size} {ctx : BvlibContext}
    (hctx : BvnInUse F memBytes ctx) (x out : HostArray) {n : Size}
    (hend : unaryEnd n.toNat ≤ allocated memBytes) :
    (27 * n.toNat + 10 ≤ bvlibMaxInsns →
      Returns (bvnSoftmax F ctx x out n) out n.toNat (softmaxValue F bvnLog2e x n.toNat)) ∧
    (bvlibMaxInsns < 27 * n.toNat + 10 → GivesUp (bvnSoftmax F ctx x out n) out) := by
  have hbudget : bvlibMaxInsns = 100000000 := rfl
  have h :=
    bvnUnary_result (cstr "softmax") hctx.runs (softmax_computes hF bvnLog2e) (by decide) hend x
    out
  exact ⟨fun hwithin => h.1 (.inr hwithin), fun hbeyond => h.2 (by omega) hbeyond⟩

/-- Integers, with an exponential that is 1 at zero and vanishes elsewhere. -/
def steepMath : HostMath := { HostMath.integer with exp2 := fun w => if w = 0 then 1 else 0 }

theorem smallSoftmax_result :
    ∃ ctx r, bvnOpen true 4096 (fun _ => 0) = some ctx ∧
      bvnSoftmax steepMath ctx (fun i => BitVec.ofNat 32 (i + 1)) (fun _ => 7) 3 = .ok r ∧
      r.ret = 0 ∧ r.out 0 = 0 ∧ r.out 1 = 0 ∧ r.out 2 = floatOne ∧ r.out 3 = 7 := by
  have hsteep : steepMath.AddsZero := HostMath.integer_addsZero
  obtain ⟨ctx, hopen⟩ := exists_bvlibOpen bradlibCompile_bvn 4096 (by decide) fun _ => 0
  obtain ⟨r, hr, hret, hout⟩ := (bvnSoftmax_result hsteep (.opened hopen)
    (fun i => BitVec.ofNat 32 (i + 1)) (fun _ => 7) (n := 3) (by decide)).1 (by decide)
  exact ⟨ctx, r, hopen, hr, hret, (hout 0).trans (by decide), (hout 1).trans (by decide),
    (hout 2).trans (by decide), (hout 3).trans (by decide)⟩

end BradVector
