import BradVector.Proof.FabricBounds

/-!
# What a transfer reports

`fabric_dma` returns its length and counts the transfer whether or not it moves anything: it moves
nothing where one of its ends has no memory, and the length does not always fit the `int` it
returns.
-/

namespace BradVector

open CSem

/-- The byte that the fabric finds at an address of a node. -/
def Fabric.byteAt (f : Fabric) (h : Heap) (node : Nat) (addr : Size) : Option Byte :=
  let p := f.translate node addr
  if p.isNull then none else some (h.bytes p.block p.off)

section Report

variable (f : Fabric) (h : Heap) (ch : FabricChannel) (srcAddr dstAddr len : Size)

/-- The bytes at the destination are those that were at the source, and no other byte of memory has
changed. -/
structure DmaCopies (h' : Heap) : Prop where
  copied : ∀ k < len.toNat, ∃ b, f.byteAt h ch.srcNode (srcAddr + BitVec.ofNat 64 k) = some b ∧
    f.byteAt h' ch.dstNode (dstAddr + BitVec.ofNat 64 k) = some b
  rest : ∀ b x, (∀ k < len.toNat, f.translate ch.dstNode (dstAddr + BitVec.ofNat 64 k) ≠ ⟨b, x⟩) →
    h'.bytes b x = h.bytes b x

/-- A positive count reports a transfer made, in its full length; anything else is an error, with
memory and statistics as they were. -/
def DmaResult.Honest (r : DmaResult) : Prop :=
  if 0 < r.ret then r.ret = len.toNat ∧ DmaCopies f h ch srcAddr dstAddr len r.heap
  else r.ret < 0 ∧ r.heap = h ∧ r.ch = ch ∧ r.fabric = f

/-- A transfer that is not refused has memory for its whole length at both ends, and a length that
an `int` can hold. -/
def DmaServed : Prop :=
  DmaValid f ch srcAddr dstAddr len →
    (f.BoundAt ch.srcNode srcAddr ∧ f.Covers ch.srcNode srcAddr len.toNat) ∧
      (f.BoundAt ch.dstNode dstAddr ∧ f.Covers ch.dstNode dstAddr len.toNat) ∧ len.toNat < 2 ^ 31

/-- The memory bound to the nodes lies in its blocks. -/
def Fabric.Backed : Prop :=
  ∀ node, (f.node node).mem.isNull = false →
    (f.node node).mem.off + (f.node node).memLen.toNat ≤ h.size (f.node node).mem.block

end Report

/-! ### Addresses of a stretch -/

section Stretch

variable {f : Fabric} {h : Heap} {node k len : Nat} {addr : Size}

theorem byteAt_eq_some_iff {b : Byte} :
    f.byteAt h node addr = some b ↔ f.BoundAt node addr ∧
      h.bytes (f.translate node addr).block (f.translate node addr).off = b := by
  rw [← translate_isNull_iff]
  unfold Fabric.byteAt
  cases hnull : (f.translate node addr).isNull <;> simp [hnull]

theorem Fabric.BoundAt.stretch (hbound : f.BoundAt node addr) (hcovers : f.Covers node addr len)
    (hk : k < len) :
    f.BoundAt node (addr + BitVec.ofNat 64 k) ∧
      f.translate node (addr + BitVec.ofNat 64 k) = f.translate node addr + k := by
  obtain ⟨hmem, hlow, hhigh, hwrap⟩ := hbound
  unfold Fabric.Covers at hcovers
  have hsum : (addr + BitVec.ofNat 64 k).toNat = addr.toNat + k := by
    rw [BitVec.toNat_add, BitVec.toNat_ofNat]
    omega
  have hbound' : f.BoundAt node (addr + BitVec.ofNat 64 k) := ⟨hmem, by omega, by omega, hwrap⟩
  refine ⟨hbound', ?_⟩
  rw [translate_of_boundAt hbound', translate_of_boundAt ⟨hmem, hlow, hhigh, hwrap⟩, Ptr.add_add,
    hsum, Nat.sub_add_comm hlow]

/-- The stretch cannot go past the last address of all: the end of the memory does not wrap. -/
theorem covers_of_stretch (hpos : 0 < len)
    (hall : ∀ k < len, f.BoundAt node (addr + BitVec.ofNat 64 k)) :
    f.BoundAt node addr ∧ f.Covers node addr len := by
  have hfirst : f.BoundAt node addr := by simpa using hall 0 hpos
  refine ⟨hfirst, ?_⟩
  have hsum {k : Nat} (hk : addr.toNat + k < 2 ^ 64) :
      (addr + BitVec.ofNat 64 k).toNat = addr.toNat + k := by
    rw [BitVec.toNat_add, BitVec.toNat_ofNat]
    omega
  obtain ⟨-, -, -, hwrap⟩ := hfirst
  have haddr := addr.isLt
  unfold Fabric.Covers
  by_contra hout
  by_cases htop : addr.toNat + (len - 1) < 2 ^ 64
  · obtain ⟨-, -, hlast, -⟩ := hall (len - 1) (by omega)
    rw [hsum htop] at hlast
    omega
  · obtain ⟨-, -, hlast, -⟩ := hall (2 ^ 64 - 1 - addr.toNat) (by omega)
    rw [hsum (by omega)] at hlast
    omega

theorem Fabric.Backed.inside (hbacked : f.Backed h) (hbound : f.BoundAt node addr)
    (hcovers : f.Covers node addr len) :
    (f.translate node addr).off + len ≤ h.size (f.translate node addr).block := by
  have hin := hbacked node hbound.1
  rw [translate_of_boundAt hbound, Ptr.add_off, Ptr.add_block]
  obtain ⟨-, hlow, -, -⟩ := hbound
  unfold Fabric.Covers at hcovers
  omega

end Stretch

/-! ### The transfer -/

section Transfer

variable {ε : Type} {f : Fabric} {h : Heap} {ch : FabricChannel} {srcAddr dstAddr len : Size}

theorem ret_eq_iff : ((len.setWidth 32).toInt = len.toNat) ↔ len.toNat < 2 ^ 31 := by
  have hlt := (len.setWidth 32).isLt
  have hmod : (len.setWidth 32).toNat = len.toNat % 2 ^ 32 := BitVec.toNat_setWidth 32 len
  rw [BitVec.toInt_eq_toNat_cond]
  split_ifs
  · omega
  · omega

theorem dmaCopies_poke (hsrc : f.BoundAt ch.srcNode srcAddr ∧ f.Covers ch.srcNode srcAddr len.toNat)
    (hdst : f.BoundAt ch.dstNode dstAddr ∧ f.Covers ch.dstNode dstAddr len.toNat) :
    DmaCopies f h ch srcAddr dstAddr len
      (h.poke (f.translate ch.dstNode dstAddr)
        (readBytes (h.bytes (f.translate ch.srcNode srcAddr).block)
          (f.translate ch.srcNode srcAddr).off len.toNat)) := by
  constructor
  · intro k hk
    obtain ⟨hsrcBound, hsrcPtr⟩ := hsrc.1.stretch hsrc.2 hk
    obtain ⟨hdstBound, hdstPtr⟩ := hdst.1.stretch hdst.2 hk
    refine ⟨_, byteAt_eq_some_iff.mpr ⟨hsrcBound, rfl⟩, byteAt_eq_some_iff.mpr ⟨hdstBound, ?_⟩⟩
    rw [hdstPtr, hsrcPtr, Ptr.add_block, Ptr.add_off, Ptr.add_block, Ptr.add_off, Heap.poke]
    dsimp only
    rw [Function.update_self]
    exact writeBytes_readBytes_add hk
  · intro b x hother
    by_contra hne
    obtain ⟨rfl, hlow, hhigh⟩ := Heap.poke_bytes_ne hne
    rw [readBytes_length] at hhigh
    apply hother (x - (f.translate ch.dstNode dstAddr).off) (by omega)
    rw [(hdst.1.stretch hdst.2 (by omega)).2]
    simp only [HAdd.hAdd, Ptr.mk.injEq, true_and]
    exact Nat.add_sub_cancel' hlow

theorem DmaServed.honest (hserved : DmaServed f ch srcAddr dstAddr len) (hbacked : f.Backed h) :
    ∃ r, (fabricDma f h ch srcAddr dstAddr len : Outcome HeapFault ε DmaResult) = .ok r ∧
      r.Honest f h ch srcAddr dstAddr len := by
  by_cases hv : DmaValid f ch srcAddr dstAddr len
  · obtain ⟨hsrc, hdst, hlen⟩ := hserved hv
    obtain ⟨h', hmove, hcopies⟩ : ∃ h', (dmaMove h (f.translate ch.srcNode srcAddr)
        (f.translate ch.dstNode dstAddr) len : Outcome HeapFault ε Heap) = .ok h' ∧
          DmaCopies f h ch srcAddr dstAddr len h' := by
      refine ⟨_, ?_, dmaCopies_poke hsrc hdst⟩
      rw [dmaMove, translate_isNull_iff.mpr hsrc.1, translate_isNull_iff.mpr hdst.1]
      exact Heap.memmove_eq_ok (hbacked.inside hsrc.1 hsrc.2) (hbacked.inside hdst.1 hdst.2)
    have hret := ret_eq_iff.mpr hlen
    have hne : len.toNat ≠ 0 := fun h => hv.2.1 (BitVec.eq_of_toNat_eq h)
    refine ⟨dmaDone f ch len h', ?_, ?_⟩
    · rw [fabricDma_of_valid hv, hmove]
      rfl
    · have hpos : 0 < (dmaDone f ch len h').ret := by
        change 0 < (len.setWidth 32).toInt
        omega
      rw [DmaResult.Honest, if_pos hpos]
      exact ⟨hret, hcopies⟩
  · obtain ⟨ret, hneg, heq⟩ := fabricDma_of_not_valid (ε := ε) (h := h) hv
    refine ⟨_, heq, ?_⟩
    rw [DmaResult.Honest, if_neg (by dsimp only; omega)]
    exact ⟨hneg, rfl, rfl, rfl⟩

theorem DmaResult.Honest.served {r : DmaResult}
    (hok : (fabricDma f h ch srcAddr dstAddr len : Outcome HeapFault ε DmaResult) = .ok r)
    (hr : r.Honest f h ch srcAddr dstAddr len) : DmaServed f ch srcAddr dstAddr len := by
  intro hv
  rw [fabricDma_of_valid hv] at hok
  obtain ⟨h', -, hdone⟩ := Outcome.bind_eq_ok_iff.mp hok
  cases hdone
  unfold DmaResult.Honest at hr
  have hne : len.toNat ≠ 0 := fun h => hv.2.1 (BitVec.eq_of_toNat_eq h)
  split_ifs at hr with hpos
  · obtain ⟨hret, hcopies⟩ := hr
    refine ⟨?_, ?_, ret_eq_iff.mp hret⟩
    · apply covers_of_stretch (by omega)
      intro k hk
      obtain ⟨b, hb, -⟩ := hcopies.copied k hk
      exact (byteAt_eq_some_iff.mp hb).1
    · apply covers_of_stretch (by omega)
      intro k hk
      obtain ⟨b, -, hb⟩ := hcopies.copied k hk
      exact (byteAt_eq_some_iff.mp hb).1
  · -- the transfer is counted on the channel
    have htx : ch.bytesTx + len = ch.bytesTx := congrArg FabricChannel.bytesTx hr.2.2.1
    have hsum := congrArg BitVec.toNat htx
    rw [BitVec.toNat_add] at hsum
    have hlt := ch.bytesTx.isLt
    have hlen := len.isLt
    omega

/-- **Transfers.** Whatever nodes there are and whatever is bound to them, a transfer reports what
it does exactly if it is refused, or has memory at both ends and a length below 2 GiB. -/
theorem fabricDma_honest_iff (hbacked : f.Backed h) :
    (∃ r, (fabricDma f h ch srcAddr dstAddr len : Outcome HeapFault ε DmaResult) = .ok r ∧
      r.Honest f h ch srcAddr dstAddr len) ↔ DmaServed f ch srcAddr dstAddr len := by
  constructor
  · rintro ⟨r, hok, hr⟩
    exact hr.served hok
  · intro hserved
    exact hserved.honest hbacked

end Transfer

/-- The node of `shortNode`, with its memory in a block of its own. -/
def shortHeap : Heap := (Heap.calloc emptyHeap 16).2

def dmaChannel : FabricChannel := ⟨0, 0, fabricChDma, fabricPacketMaxSize, 0, 0⟩

theorem shortNode_backed : shortNode.Backed shortHeap := by
  intro node hmem
  match node, hmem with
  | 0, _ => decide
  | node + 1, hmem => cases hmem

/-- The first eight bytes to the next eight. -/
theorem shortNode_honest_iff :
    (∃ r,
      (fabricDma shortNode shortHeap dmaChannel 0 8 8 : Outcome HeapFault Unit DmaResult) = .ok r ∧
      r.Honest shortNode shortHeap dmaChannel 0 8 8) ↔ DmaServed shortNode dmaChannel 0 8 8 :=
  fabricDma_honest_iff shortNode_backed

/-- A node with a window of 64 KiB and no memory. -/
def bareNode : Fabric := (fabricRegisterNode fabricInit ⟨0, .mem, 0, 65535, 10, 5⟩).2

/-- The transfer of 16 bytes reports 16 bytes, and there are none. -/
theorem not_forall_dma_honest :
    ¬ ∀ (f : Fabric) (h : Heap) (ch : FabricChannel) (srcAddr dstAddr len : Size), f.Backed h →
      ∃ r, (fabricDma f h ch srcAddr dstAddr len : Outcome HeapFault Unit DmaResult) = .ok r ∧
        r.Honest f h ch srcAddr dstAddr len := by
  intro hall
  have hbacked : bareNode.Backed shortHeap := by
    intro node hmem
    match node, hmem with
    | 0, hmem => cases hmem
    | node + 1, hmem => cases hmem
  obtain ⟨r, hok, hr⟩ := hall bareNode shortHeap dmaChannel 0 0 16 hbacked
  obtain ⟨r', hok', hret⟩ : ∃ r',
      (fabricDma bareNode shortHeap dmaChannel 0 0 16 : Outcome HeapFault Unit DmaResult) = .ok r' ∧
        r'.ret = 16 := ⟨_, rfl, rfl⟩
  obtain rfl : r' = r := Outcome.ok.inj (hok'.symm.trans hok)
  unfold DmaResult.Honest at hr
  rw [hret, if_pos (by decide)] at hr
  obtain ⟨b, hb, -⟩ := hr.2.copied 0 (by decide)
  cases hb

end BradVector
