import BradVector.Proof.FabricAtomics
import BradVector.Proof.World

/-!
# Where DMA and atomics reach

`fabric_dma` and the atomics test the addresses they are given against the window of the node, with
the length, and then translate the first address into the memory bound to the node, without it. The
memory may be shorter than the window, and the sums of the first test may wrap; nothing else keeps
an access inside the memory.
-/

namespace BradVector

open CSem

/-- An access of `len` bytes at `ptr`, in the memory bound to `node`. -/
structure NodeAccess where
  node : Nat
  ptr : Ptr
  len : Nat

/-- The access lies in the first `mem_len` bytes of the memory bound to its node. -/
def NodeAccess.Inside (f : Fabric) (a : NodeAccess) : Prop :=
  ∃ off, a.ptr = (f.node a.node).mem + off ∧ off + a.len ≤ (f.node a.node).memLen.toNat

/-- A call that works on the memory bound to nodes. -/
inductive MemoryCall where
  | dma (srcAddr dstAddr len : Size)
  | atomic (addr : Size) (call : AtomicCall)

namespace MemoryCall

/-- The memory after the call. -/
def run {ε : Type} (base : Nat → Nat) (f : FabricState) (h : Heap) (ch : FabricChannel) :
    MemoryCall → Outcome HeapFault ε Heap
  | dma srcAddr dstAddr len =>
      (fabricDma f.toFabric h ch srcAddr dstAddr len).bind fun r => .ok r.heap
  | atomic addr call => (fabricAtomic base f h ch addr call).bind fun r => .ok r.heap

instance (f : Fabric) (ch : FabricChannel) (srcAddr dstAddr len : Size) :
    Decidable (DmaValid f ch srcAddr dstAddr len) :=
  inferInstanceAs (Decidable (_ ∧ _ ∧ _ ∧ _ ∧ _))

/-- The accesses of a call: the two ends of the `memmove`, or the word of the builtins. A run goes
wrong just when one of them leaves its block (`run_undefined_iff`), and changes nothing else
(`run_changes`). -/
def accesses (base : Nat → Nat) (f : Fabric) (ch : FabricChannel) : MemoryCall → List NodeAccess
  | dma srcAddr dstAddr len =>
      let src := f.translate ch.srcNode srcAddr
      let dst := f.translate ch.dstNode dstAddr
      if DmaValid f ch srcAddr dstAddr len ∧ src.isNull = false ∧ dst.isNull = false then
        [⟨ch.srcNode, src, len.toNat⟩, ⟨ch.dstNode, dst, len.toNat⟩]
      else []
  | atomic addr _ =>
      match atomicWord base f ch addr with
      | .ok ref => [⟨ch.dstNode, ref, 8⟩]
      | .error _ => []

/-- Every byte the call touches lies in the memory bound to its node. -/
def Contained (base : Nat → Nat) (f : Fabric) (ch : FabricChannel) (c : MemoryCall) : Prop :=
  ∀ a ∈ c.accesses base f ch, a.Inside f

end MemoryCall

/-! ### The accesses are those of the code -/

section Accesses

variable {ε : Type} {base : Nat → Nat} {f : FabricState} {h : Heap} {ch : FabricChannel}

theorem memmove_undefined_iff {dst src : Ptr} {len : Nat} :
    (∃ u, (h.memmove dst src len : Outcome HeapFault ε Heap) = .undefined u) ↔
      ¬ (src.off + len ≤ h.size src.block ∧ dst.off + len ≤ h.size dst.block) := by
  by_cases hsrc : src.off + len ≤ h.size src.block
  · by_cases hdst : dst.off + len ≤ h.size dst.block
    · rw [Heap.memmove_eq_ok hsrc hdst]
      simp [hsrc, hdst]
    · rw [Heap.memmove, Heap.read_eq_ok hsrc]
      simp [Heap.write, hdst]
  · rw [Heap.memmove, Heap.read, if_neg hsrc]
    simp [hsrc]

theorem transactAll_undefined_iff {ref : Ptr} (call : AtomicCall) :
    (∃ u, (transactAll ref call.prog h : Outcome HeapFault ε _) = .undefined u) ↔
      ¬ ref.off + 8 ≤ h.size ref.block := by
  by_cases hin : ref.off + 8 ≤ h.size ref.block
  · obtain ⟨h', hrun, -⟩ := transactAll_run (ε := ε) call.prog hin
    simp [hrun, hin]
  · have hfirst : ∀ upd, (transact h ref upd : Outcome HeapFault ε _) = .undefined ⟨ref, 8⟩ := by
      intro upd
      rw [transact, Heap.read, if_neg hin]
      rfl
    have hstep : ∃ upd next, call.prog = .step upd next := by
      cases call with
      | add val => exact ⟨_, _, rfl⟩
      | cas expected desired prev => exact ⟨_, _, rfl⟩
      | exch val prev => cases prev <;> exact ⟨_, _, rfl⟩
    obtain ⟨upd, next, hprog⟩ := hstep
    simp [hprog, transactAll, hfirst, hin]

theorem bind_ok_undefined_iff {υ α β : Type} {o : Outcome υ ε α} {f : α → β} :
    (∃ u, (o.bind fun a => (.ok (f a) : Outcome υ ε β)) = .undefined u) ↔ ∃ u,
      o = .undefined u := by
  cases o <;> simp

/-- **A call is undefined exactly where one of its accesses leaves its block.** -/
theorem run_undefined_iff (call : MemoryCall) :
    (∃ u, (call.run base f h ch : Outcome HeapFault ε Heap) = .undefined u) ↔
      ∃ a ∈ call.accesses base f.toFabric ch, ¬ a.ptr.off + a.len ≤ h.size a.ptr.block := by
  cases call with
  | dma srcAddr dstAddr len =>
      simp only [MemoryCall.run, MemoryCall.accesses]
      rw [bind_ok_undefined_iff]
      by_cases hv : DmaValid f.toFabric ch srcAddr dstAddr len
      · rw [fabricDma_of_valid hv, bind_ok_undefined_iff, dmaMove]
        by_cases hsrc : (f.toFabric.translate ch.srcNode srcAddr).isNull = true
        · simp [hsrc]
        by_cases hdst : (f.toFabric.translate ch.dstNode dstAddr).isNull = true
        · simp [hdst]
        rw [Bool.not_eq_true] at hsrc hdst
        rw [if_neg (by simp [hsrc, hdst]), if_pos ⟨hv, hsrc, hdst⟩, memmove_undefined_iff]
        simp only [List.mem_cons, List.not_mem_nil, or_false, exists_eq_or_imp, exists_eq_left]
        exact not_and_or
      · obtain ⟨ret, -, heq⟩ := fabricDma_of_not_valid (ε := ε) (h := h) hv
        simp [heq, hv]
  | atomic addr c =>
      simp only [MemoryCall.run, MemoryCall.accesses]
      rw [bind_ok_undefined_iff, fabricAtomic]
      cases hword : atomicWord base f.toFabric ch addr with
      | error e => simp
      | ok ref =>
          simp only [Outcome.bind_eq_bind, Outcome.pure_eq_ok, List.mem_singleton,
            exists_eq_left]
          rw [bind_ok_undefined_iff, transactAll_undefined_iff]

/-- **A call changes nothing but bytes it accesses.** -/
theorem run_changes (call : MemoryCall) {h' : Heap} {b x : Nat}
    (hrun : (call.run base f h ch : Outcome HeapFault ε Heap) = .ok h')
    (hne : h'.bytes b x ≠ h.bytes b x) :
    ∃ a ∈ call.accesses base f.toFabric ch,
      b = a.ptr.block ∧ a.ptr.off ≤ x ∧ x < a.ptr.off + a.len := by
  have hdefined : ∀ a ∈ call.accesses base f.toFabric ch,
      a.ptr.off + a.len ≤ h.size a.ptr.block := by
    intro a ha
    by_contra hout
    obtain ⟨u, hu⟩ := (run_undefined_iff (ε := ε) call).mpr ⟨a, ha, hout⟩
    rw [hrun] at hu
    cases hu
  cases call with
  | dma srcAddr dstAddr len =>
      obtain ⟨r, hdma, hr⟩ := Outcome.bind_eq_ok_iff.mp hrun
      cases hr
      by_cases hv : DmaValid f.toFabric ch srcAddr dstAddr len
      · rw [fabricDma_of_valid hv] at hdma
        obtain ⟨m, hmove, hdone⟩ := Outcome.bind_eq_ok_iff.mp hdma
        cases hdone
        unfold dmaMove at hmove
        split at hmove
        · cases hmove
          exact absurd rfl hne
        · rename_i hnull
          rw [Bool.or_eq_true, not_or, Bool.not_eq_true, Bool.not_eq_true] at hnull
          obtain ⟨bs, hlen, rfl⟩ := (Heap.memmove_pokes _ _ _).of_eq_ok hmove
          refine ⟨⟨ch.dstNode, _, len.toNat⟩, ?_, hlen ▸ Heap.poke_bytes_ne hne⟩
          rw [MemoryCall.accesses, if_pos ⟨hv, hnull⟩]
          exact List.mem_cons_of_mem _ List.mem_cons_self
      · obtain ⟨ret, -, heq⟩ := fabricDma_of_not_valid (ε := ε) (h := h) hv
        rw [heq] at hdma
        cases hdma
        exact absurd rfl hne
  | atomic addr c =>
      obtain ⟨r, hatomic, hr⟩ := Outcome.bind_eq_ok_iff.mp hrun
      cases hr
      simp only [MemoryCall.accesses] at hdefined ⊢
      unfold fabricAtomic at hatomic
      cases hword : atomicWord base f.toFabric ch addr with
      | error e =>
          rw [hword] at hatomic
          cases hatomic
          exact absurd rfl hne
      | ok ref =>
          rw [hword] at hatomic hdefined
          obtain ⟨m, hall, hframe⟩ :=
            transactAll_run (ε := ε) c.prog (hdefined _ List.mem_cons_self)
          obtain ⟨⟨reply, m'⟩, htransact, hdone⟩ := Outcome.bind_eq_ok_iff.mp hatomic
          cases hdone
          rw [hall] at htransact
          cases htransact
          exact ⟨_, List.mem_cons_self, hframe.2.2 b x hne⟩

/-- A contained call leaves the bytes alone that are not bound to a node. -/
theorem MemoryCall.Contained.bytes_eq {call : MemoryCall} (hc : call.Contained base f.toFabric ch)
    {h' : Heap} {b x : Nat} (hrun : (call.run base f h ch : Outcome HeapFault ε Heap) = .ok h')
    (hunbound : ∀ node off, off < (f.toFabric.node node).memLen.toNat →
      (f.toFabric.node node).mem + off ≠ ⟨b, x⟩) : h'.bytes b x = h.bytes b x := by
  by_contra hne
  obtain ⟨a, ha, hb, hle, hlt⟩ := run_changes call hrun hne
  obtain ⟨off, hptr, hend⟩ := hc a ha
  apply hunbound a.node (off + (x - a.ptr.off)) (by omega)
  rw [← Ptr.add_add, ← hptr]
  exact congrArg₂ Ptr.mk hb.symm (Nat.add_sub_of_le hle)

end Accesses

/-! ### When they stay inside -/

/-- `addr` is an address of the memory bound to the node, and the sum that the translation compares
it with does not wrap. -/
def Fabric.BoundAt (f : Fabric) (node : Nat) (addr : Size) : Prop :=
  (f.node node).mem.isNull = false ∧ (f.node node).info.addressBase.toNat ≤ addr.toNat ∧
    addr.toNat < (f.node node).info.addressBase.toNat + (f.node node).memLen.toNat ∧
    (f.node node).info.addressBase.toNat + (f.node node).memLen.toNat < 2 ^ 64

/-- The `len` bytes from `addr` on end no later than the memory bound to the node. -/
def Fabric.Covers (f : Fabric) (node : Nat) (addr : Size) (len : Nat) : Prop :=
  addr.toNat + len ≤ (f.node node).info.addressBase.toNat + (f.node node).memLen.toNat

/-- The tests of the atomics, with the address as `fabric_atomic_ref` wants it. -/
def AtomicValid (base : Nat → Nat) (f : Fabric) (ch : FabricChannel) (addr : Size) : Prop :=
  f.initialized = true ∧ ch.flags &&& fabricChAtomic ≠ 0 ∧
    f.regionValid ch.dstNode addr 8 = true ∧ f.nodeValid ch.dstNode = true ∧
    f.BoundAt ch.dstNode addr ∧
    (base (f.node ch.dstNode).mem.block + ((f.node ch.dstNode).mem.off +
      (addr.toNat - (f.node ch.dstNode).info.addressBase.toNat))) % 8 = 0

/-- A call that is not refused, and that finds memory at its ends, has memory for its whole length
there. -/
def MemoryCall.Covered (base : Nat → Nat) (f : Fabric) (ch : FabricChannel) : MemoryCall → Prop
  | dma srcAddr dstAddr len =>
      DmaValid f ch srcAddr dstAddr len → f.BoundAt ch.srcNode srcAddr →
        f.BoundAt ch.dstNode dstAddr →
        f.Covers ch.srcNode srcAddr len.toNat ∧ f.Covers ch.dstNode dstAddr len.toNat
  | atomic addr _ => AtomicValid base f ch addr → f.Covers ch.dstNode addr 8

section Contained

variable {base : Nat → Nat} {f : Fabric} {ch : FabricChannel} {node : Nat} {addr : Size}

theorem translate_of_boundAt (h : f.BoundAt node addr) :
    f.translate node addr = (f.node node).mem +
      (addr.toNat - (f.node node).info.addressBase.toNat) := by
  obtain ⟨hmem, hlow, hhigh, hwrap⟩ := h
  have hsum : ((f.node node).info.addressBase + (f.node node).memLen).toNat =
      (f.node node).info.addressBase.toNat + (f.node node).memLen.toNat := by
    rw [BitVec.toNat_add, Nat.mod_eq_of_lt hwrap]
  have hrange : ¬ (addr < (f.node node).info.addressBase ||
      (f.node node).info.addressBase + (f.node node).memLen ≤ addr : Bool) = true := by
    simp only [Bool.or_eq_true, decide_eq_true_eq, BitVec.lt_def, BitVec.le_def, hsum]
    omega
  rw [Fabric.translate, if_neg (by rw [hmem]; decide), if_neg hrange, BitVec.toNat_sub_of_le hlow]

theorem translate_isNull_iff : (f.translate node addr).isNull = false ↔ f.BoundAt node addr := by
  refine ⟨fun h => ?_, fun h => ?_⟩
  · simp only [Fabric.translate] at h
    split at h
    · exact absurd h (by decide)
    rename_i hmem
    split at h
    · exact absurd h (by decide)
    rename_i hrange
    simp only [Bool.or_eq_true, decide_eq_true_eq, BitVec.lt_def, BitVec.le_def,
      BitVec.toNat_add] at hrange
    have hlt := (f.node node).memLen.isLt
    have hbase := (f.node node).info.addressBase.isLt
    have haddr := addr.isLt
    refine ⟨Bool.not_eq_true _ ▸ hmem, ?_, ?_, ?_⟩ <;> omega
  · rw [translate_of_boundAt h]
    exact h.1

theorem inside_iff (h : f.BoundAt node addr) (len : Nat) :
    NodeAccess.Inside f ⟨node, f.translate node addr, len⟩ ↔ f.Covers node addr len := by
  rw [NodeAccess.Inside, translate_of_boundAt h, Fabric.Covers]
  obtain ⟨-, hlow, hhigh, -⟩ := h
  dsimp only
  refine ⟨?_, fun hcovers => ⟨_, rfl, by omega⟩⟩
  rintro ⟨off, hptr, hin⟩
  have hoff := congrArg Ptr.off hptr
  simp only [Ptr.add_off] at hoff
  omega

/-- The word at a pointer is aligned for the builtins. -/
def AlignedAt (base : Nat → Nat) (p : Ptr) : Prop := (base p.block + p.off) % 8 = 0

theorem fabricAtomicRef_isNull_iff :
    (fabricAtomicRef base f node addr).isNull = false ↔
      f.nodeValid node = true ∧ f.BoundAt node addr ∧ AlignedAt base (f.translate node addr) := by
  unfold fabricAtomicRef AlignedAt
  by_cases hnode : f.nodeValid node = true
  · rw [if_neg (not_not_intro hnode)]
    dsimp only
    by_cases hnull : (f.translate node addr).isNull = true
    · rw [if_pos hnull, ← translate_isNull_iff, hnull]
      simp [Ptr.isNull, Ptr.null]
    · rw [if_neg hnull, ← translate_isNull_iff]
      by_cases halign : (base (f.translate node addr).block + (f.translate node addr).off) % 8 = 0
      · rw [if_neg (not_not_intro halign)]
        simp [hnode, halign]
      · rw [if_pos halign]
        simp [halign, Ptr.isNull, Ptr.null]
  · rw [if_pos hnode]
    simp [hnode, Ptr.isNull, Ptr.null]

theorem fabricAtomicRef_eq (h : (fabricAtomicRef base f node addr).isNull = false) :
    fabricAtomicRef base f node addr = f.translate node addr := by
  obtain ⟨hnode, hbound, halign⟩ := fabricAtomicRef_isNull_iff.mp h
  unfold AlignedAt at halign
  unfold fabricAtomicRef
  rw [if_neg (not_not_intro hnode)]
  dsimp only
  rw [if_neg (by rw [translate_isNull_iff.mpr hbound]; decide), if_neg (not_not_intro halign)]

theorem atomicValid_iff :
    AtomicValid base f ch addr ↔ f.initialized = true ∧ ch.flags &&& fabricChAtomic ≠ 0 ∧
      f.regionValid ch.dstNode addr 8 = true ∧
      (fabricAtomicRef base f ch.dstNode addr).isNull = false := by
  rw [fabricAtomicRef_isNull_iff, AtomicValid]
  refine and_congr_right fun _ => and_congr_right fun _ => and_congr_right fun _ =>
    and_congr_right fun _ => and_congr_right fun hbound => ?_
  rw [AlignedAt, translate_of_boundAt hbound, Ptr.add_block, Ptr.add_off]

theorem atomicWord_eq_ok_iff {ref : Ptr} :
    atomicWord base f ch addr = .ok ref ↔
      AtomicValid base f ch addr ∧ f.translate ch.dstNode addr = ref := by
  rw [atomicValid_iff]
  unfold atomicWord
  split
  · simp_all
  rename_i hinit
  split
  · simp_all
  rename_i hflags
  split
  · simp_all
  rename_i hregion
  dsimp only
  split
  · simp_all
  rename_i hnull
  rw [Bool.not_eq_true] at hnull
  have heq := fabricAtomicRef_eq hnull
  rw [Except.ok.injEq]
  refine ⟨fun h => ⟨⟨not_not.mp hinit, hflags, not_not.mp hregion, hnull⟩, heq.symm.trans h⟩, ?_⟩
  exact fun h => heq.trans h.2

/-- **Where the accesses stay.** Whatever nodes are registered and whatever is bound to them, a call
stays in the memory of its nodes exactly if it is refused, moves nothing, or has memory for its
whole length at each end. -/
theorem contained_iff_covered (base : Nat → Nat) (f : Fabric) (ch : FabricChannel)
    (call : MemoryCall) : call.Contained base f ch ↔ call.Covered base f ch := by
  cases call with
  | dma srcAddr dstAddr len =>
      rw [MemoryCall.Contained, MemoryCall.accesses, MemoryCall.Covered]
      by_cases hv : DmaValid f ch srcAddr dstAddr len ∧ f.BoundAt ch.srcNode srcAddr ∧
          f.BoundAt ch.dstNode dstAddr
      · obtain ⟨hvalid, hsrc, hdst⟩ := hv
        rw [if_pos ⟨hvalid, translate_isNull_iff.mpr hsrc, translate_isNull_iff.mpr hdst⟩]
        simp only [List.mem_cons, List.not_mem_nil, or_false, forall_eq_or_imp, forall_eq,
          inside_iff hsrc, inside_iff hdst]
        exact ⟨fun h _ _ _ => h, fun h => h hvalid hsrc hdst⟩
      · rw [← translate_isNull_iff, ← translate_isNull_iff] at hv ⊢
        rw [if_neg hv]
        refine iff_of_true (fun a ha => absurd ha List.not_mem_nil) fun hvalid hsrc hdst => ?_
        exact absurd ⟨hvalid, hsrc, hdst⟩ hv
  | atomic addr c =>
      rw [MemoryCall.Contained, MemoryCall.accesses, MemoryCall.Covered]
      by_cases hv : AtomicValid base f ch addr
      · rw [atomicWord_eq_ok_iff.mpr ⟨hv, rfl⟩]
        simp only [List.mem_singleton, forall_eq, inside_iff hv.2.2.2.2.1]
        exact ⟨fun h _ => h, fun h => h hv⟩
      · cases hword : atomicWord base f ch addr with
        | error e => exact iff_of_true (fun a ha => absurd ha List.not_mem_nil) fun h => absurd h hv
        | ok ref => exact absurd (atomicWord_eq_ok_iff.mp hword).1 hv

end Contained

/-- A node with a window of 64 KiB and 16 bytes of memory bound to it. -/
def shortNode : Fabric :=
  (fabricBindMemory (fabricRegisterNode fabricInit ⟨0, .mem, 0, 65535, 10, 5⟩).2 0 ⟨1, 0⟩ 16).2

/-- A transfer of 32 bytes within the window of a node that has 16. -/
theorem dma_leaves_memory :
    ¬ (MemoryCall.dma 0 0 32).Contained (fun _ => 0) shortNode
      ⟨0, 0, fabricChDma, fabricPacketMaxSize, 0, 0⟩ := by
  intro hcontained
  have hbound : shortNode.BoundAt 0 0 := ⟨by decide, by decide, by decide, by decide⟩
  have hinside : NodeAccess.Inside shortNode ⟨0, shortNode.translate 0 0, 32⟩ := by
    refine hcontained _ ?_
    rw [MemoryCall.accesses, if_pos (by decide)]
    exact List.mem_cons_self
  have hcovers := (inside_iff hbound 32).mp hinside
  revert hcovers
  unfold Fabric.Covers
  decide

end BradVector
