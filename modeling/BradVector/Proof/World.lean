import BradVector.Bvcomm

/-!
# The state of a world

What `bvcomm_init` sets up and no collective changes: the ranks' memory blocks are apart, every
rank's node has its window and its memory, and every channel joins the nodes of its two ranks.
`Comm.Ready` says so, `Comm.Keeps` says that a piece of code leaves all of it alone, and every world
a program can have is ready. Over a ready world a DMA transfer is a copy between the memories of two
ranks.
-/

namespace BradVector

open CSem

instance (w : BvcommWorld) : NeZero w.nranks := ⟨Nat.ne_of_gt w.nranks_pos⟩

/-- The memory of rank `r`: its user buffer and, behind it, its inbox. -/
def Comm.rank (c : Comm) (r : Nat) : Nat → Byte :=
  fun a => c.heap.bytes (c.world.mem r).block ((c.world.mem r).off + a)

/-- Everything but the contents of the memory and the traffic counters is the same. -/
structure Comm.Keeps (c c' : Comm) : Prop where
  nranks : c'.world.nranks = c.world.nranks
  bufBytes : c'.world.bufBytes = c.world.bufBytes
  scratchBytes : c'.world.scratchBytes = c.world.scratchBytes
  windowBytes : c'.world.windowBytes = c.world.windowBytes
  mem : c'.world.mem = c.world.mem
  base : c'.world.base = c.world.base
  ends : ∀ s d, (c'.world.ch s d).srcNode = (c.world.ch s d).srcNode ∧
    (c'.world.ch s d).dstNode = (c.world.ch s d).dstNode ∧
    (c'.world.ch s d).flags = (c.world.ch s d).flags
  nodes : c'.fabric.nodes = c.fabric.nodes
  initialized : c'.fabric.initialized = c.fabric.initialized
  blocks : c.heap.SameBlocks c'.heap

theorem Comm.Keeps.refl (c : Comm) : c.Keeps c :=
  ⟨rfl, rfl, rfl, rfl, rfl, rfl, fun _ _ => ⟨rfl, rfl, rfl⟩, rfl, rfl, rfl⟩

theorem Comm.Keeps.trans {c c' c'' : Comm} (h : c.Keeps c') (h' : c'.Keeps c'') : c.Keeps c'' where
  nranks := h'.nranks.trans h.nranks
  bufBytes := h'.bufBytes.trans h.bufBytes
  scratchBytes := h'.scratchBytes.trans h.scratchBytes
  windowBytes := h'.windowBytes.trans h.windowBytes
  mem := h'.mem.trans h.mem
  base := h'.base.trans h.base
  ends s d := by
    obtain ⟨hsrc, hdst, hflags⟩ := h.ends s d
    obtain ⟨hsrc', hdst', hflags'⟩ := h'.ends s d
    exact ⟨hsrc'.trans hsrc, hdst'.trans hdst, hflags'.trans hflags⟩
  nodes := h'.nodes.trans h.nodes
  initialized := h'.initialized.trans h.initialized
  blocks := h.blocks.trans h'.blocks

theorem Comm.Keeps.of_heap {c : Comm} {h : Heap} (hh : c.heap.SameBlocks h) :
    c.Keeps { c with heap := h } :=
  ⟨rfl, rfl, rfl, rfl, rfl, rfl, fun _ _ => ⟨rfl, rfl, rfl⟩, rfl, rfl, hh⟩

/-- The node of rank `r` in a world with windows of `window` bytes. -/
def rankNode (window : Size) (r : Nat) (mem : Ptr) : FabricNode :=
  ⟨{ rankInfo window r with id := r }, true, mem, window⟩

/-- What `bvcomm_init` leaves. -/
structure Comm.Ready (c : Comm) : Prop where
  buf_pos : c.world.bufBytes ≠ 0
  window_eq : c.world.windowBytes = c.world.bufBytes + c.world.scratchBytes
  window_lt : c.world.windowBytes < bvcommWindowStride
  base_eq : ∀ r < c.world.nranks,
    c.world.base r = BitVec.ofNat 64 r * bvcommWindowStride
  mem_nonnull : ∀ r < c.world.nranks, (c.world.mem r).isNull = false
  mem_off : ∀ r < c.world.nranks, (c.world.mem r).off = 0
  mem_inj : ∀ r < c.world.nranks, ∀ r' < c.world.nranks,
    (c.world.mem r).block = (c.world.mem r').block → r = r'
  mem_size : ∀ r < c.world.nranks,
    c.heap.size (c.world.mem r).block = c.world.windowBytes.toNat
  initialized : c.fabric.initialized = true
  node_eq : ∀ r < c.world.nranks,
    c.fabric.node r = rankNode c.world.windowBytes r (c.world.mem r)
  ends : ∀ s < c.world.nranks, ∀ d < c.world.nranks,
    (c.world.ch s d).srcNode = s ∧ (c.world.ch s d).dstNode = d ∧
      (c.world.ch s d).flags = fabricChDma ||| fabricChRead ||| fabricChWrite

theorem Comm.Keeps.node {c c' : Comm} (h : c.Keeps c') (r : Nat) :
    c'.fabric.node r = c.fabric.node r := by
  rw [Fabric.node, Fabric.node, h.nodes]

theorem Comm.Ready.keeps {c c' : Comm} (hc : c.Ready) (h : c.Keeps c') : c'.Ready where
  buf_pos := by rw [h.bufBytes]; exact hc.buf_pos
  window_eq := by rw [h.windowBytes, h.bufBytes, h.scratchBytes]; exact hc.window_eq
  window_lt := by rw [h.windowBytes]; exact hc.window_lt
  base_eq := by rw [h.nranks, h.base]; exact hc.base_eq
  mem_nonnull := by rw [h.nranks, h.mem]; exact hc.mem_nonnull
  mem_off := by rw [h.nranks, h.mem]; exact hc.mem_off
  mem_inj := by rw [h.nranks, h.mem]; exact hc.mem_inj
  mem_size := by rw [h.nranks, h.mem, h.windowBytes, h.blocks]; exact hc.mem_size
  initialized := h.initialized.trans hc.initialized
  node_eq := by
    rw [h.nranks, h.mem, h.windowBytes]
    exact fun r hr => (h.node r).trans (hc.node_eq r hr)
  ends := by
    rw [h.nranks]
    intro s hs d hd
    obtain ⟨hsrc, hdst, hflags⟩ := h.ends s d
    rw [hsrc, hdst, hflags]
    exact hc.ends s hs d hd

/-! ### What keeps a world -/

/-- The tests of `fabric_dma` before it moves anything. -/
def DmaValid (f : Fabric) (ch : FabricChannel) (srcAddr dstAddr len : Size) : Prop :=
  f.initialized = true ∧ len ≠ 0 ∧ ch.flags &&& fabricChDma ≠ 0 ∧
    f.regionValid ch.srcNode srcAddr len = true ∧ f.regionValid ch.dstNode dstAddr len = true

/-- The channel and the statistics after a transfer. -/
def dmaDone (f : Fabric) (ch : FabricChannel) (len : Size) (h : Heap) : DmaResult where
  ret := (len.setWidth 32).toInt
  ch := { ch with bytesTx := ch.bytesTx + len }
  fabric := { f with
    dmaBytes := f.dmaBytes + len.setWidth 32
    totalLatencyNs := f.totalLatencyNs +
      ((f.node ch.srcNode).info.latencyNs + (f.node ch.dstNode).info.latencyNs).setWidth 64 }
  heap := h

theorem fabricDma_of_valid {ε : Type} {f : Fabric} {h : Heap} {ch : FabricChannel}
    {srcAddr dstAddr len : Size} (hv : DmaValid f ch srcAddr dstAddr len) :
    (fabricDma f h ch srcAddr dstAddr len : Outcome HeapFault ε DmaResult) =
      (dmaMove h (f.translate ch.srcNode srcAddr) (f.translate ch.dstNode dstAddr) len).bind
        fun h => .ok (dmaDone f ch len h) := by
  obtain ⟨hinit, hlen, hflags, hsrc, hdst⟩ := hv
  rw [fabricDma, if_neg (not_not_intro hinit), if_neg hlen, if_neg hflags,
    if_neg (not_not_intro hsrc), if_neg (not_not_intro hdst)]
  rfl

theorem fabricDma_of_not_valid {ε : Type} {f : Fabric} {h : Heap} {ch : FabricChannel}
    {srcAddr dstAddr len : Size} (hv : ¬ DmaValid f ch srcAddr dstAddr len) :
    ∃ ret, ret < 0 ∧
      (fabricDma f h ch srcAddr dstAddr len : Outcome HeapFault ε DmaResult) =
        .ok ⟨ret, ch, f, h⟩ := by
  unfold fabricDma
  by_cases hinit : f.initialized = true
  · rw [if_neg (not_not_intro hinit)]
    by_cases hlen : len = 0
    · exact ⟨-einval, by decide, if_pos hlen⟩
    rw [if_neg hlen]
    by_cases hflags : ch.flags &&& fabricChDma = 0
    · exact ⟨-eperm, by decide, if_pos hflags⟩
    rw [if_neg hflags]
    by_cases hsrc : f.regionValid ch.srcNode srcAddr len = true
    · rw [if_neg (not_not_intro hsrc)]
      by_cases hdst : f.regionValid ch.dstNode dstAddr len = true
      · exact absurd ⟨hinit, hlen, hflags, hsrc, hdst⟩ hv
      · exact ⟨-efault, by decide, if_pos hdst⟩
    · exact ⟨-efault, by decide, if_pos hsrc⟩
  · exact ⟨-enodev, by decide, if_pos hinit⟩

/-- Whatever `fabric_dma` does, the channel keeps its ends, the nodes their windows and the memory
its blocks. -/
theorem fabricDma_sat {ε : Type} (f : Fabric) (h : Heap) (ch : FabricChannel)
    (srcAddr dstAddr len : Size) :
    (fabricDma f h ch srcAddr dstAddr len : Outcome HeapFault ε DmaResult).Sat
      (fun t => (t.ch.srcNode = ch.srcNode ∧ t.ch.dstNode = ch.dstNode ∧ t.ch.flags = ch.flags) ∧
        t.fabric.nodes = f.nodes ∧ t.fabric.initialized = f.initialized ∧ h.SameBlocks t.heap)
      (fun _ => False) fun _ => True := by
  by_cases hv : DmaValid f ch srcAddr dstAddr len
  · rw [fabricDma_of_valid hv]
    have hmove : (dmaMove h (f.translate ch.srcNode srcAddr) (f.translate ch.dstNode dstAddr) len :
        Outcome HeapFault ε Heap).Sat h.SameBlocks (fun _ => False) fun _ => True := by
      unfold dmaMove
      split
      · exact rfl
      · exact Heap.memmove_sat _ _ _
    exact hmove.bind fun h' hh' => ⟨⟨rfl, rfl, rfl⟩, rfl, rfl, hh'⟩
  · obtain ⟨ret, -, heq⟩ := fabricDma_of_not_valid (ε := ε) (h := h) hv
    rw [heq]
    exact ⟨⟨rfl, rfl, rfl⟩, rfl, rfl, rfl⟩

theorem keeps_dma (c : Comm) (s d : Nat) (srcAddr dstAddr len : Size) :
    (c.dma s d srcAddr dstAddr len).Sat c.Keeps (fun _ => False) fun _ => True := by
  refine Outcome.Sat.bind (fabricDma_sat c.fabric c.heap (c.world.ch s d) srcAddr dstAddr len) ?_
  rintro t ⟨hends, hnodes, hinit, hblocks⟩
  refine ⟨rfl, rfl, rfl, rfl, rfl, rfl, fun s' d' => ?_, hnodes, hinit, hblocks⟩
  by_cases hs : s' = s
  · subst hs
    by_cases hd : d' = d
    · subst hd
      simpa using hends
    · simp [hd]
  · simp [hs]

theorem keeps_forRange {n : Nat} {body : Fin n → Comm → CommOutcome Comm} (c : Comm)
    (hbody : ∀ i c, (body i c).Sat c.Keeps (fun _ => False) fun _ => True) :
    (Outcome.forRange n body c).Sat c.Keeps (fun _ => False) fun _ => True := by
  refine Outcome.Sat.forRange (I := fun _ => c.Keeps) (Comm.Keeps.refl c) fun i c' hc' => ?_
  exact (hbody i c').mono (fun _ => hc'.trans) (fun _ => id) fun _ => id

theorem keeps_heap (c : Comm) {o : CommOutcome Heap}
    (ho : o.Sat c.heap.SameBlocks (fun _ => False) fun _ => True) :
    (o.bind fun heap => .ok { c with heap }).Sat c.Keeps (fun _ => False) fun _ => True :=
  ho.bind fun _ hh => Comm.Keeps.of_heap hh

section Collectives

variable (add : Word → Word → Word) (off count : Size) (cs : Nat → Size) (n : Nat) (c : Comm)

theorem keeps_sendChunk (r send : Nat) :
    (sendChunk off cs n r send c).Sat c.Keeps (fun _ => False) fun _ => True := by
  unfold sendChunk
  split
  · exact Comm.Keeps.refl c
  · exact keeps_dma c _ _ _ _ _

theorem keeps_addElem (dst inbox : Ptr) (j : Nat) :
    (addElem add dst inbox j c).Sat c.Keeps (fun _ => False) fun _ => True :=
  (Heap.load32_sat _ _).bind fun _ _ => (Heap.load32_sat _ _).bind fun _ _ =>
    keeps_heap c (Heap.write_sat _ _)

theorem keeps_addChunk (r recv : Nat) :
    (addChunk add off cs r recv c).Sat c.Keeps (fun _ => False) fun _ => True := by
  unfold addChunk
  split
  · exact Comm.Keeps.refl c
  · exact keeps_forRange c fun j c => keeps_addElem add c _ _ j

theorem keeps_copyChunk (r recv : Nat) :
    (copyChunk off cs r recv c).Sat c.Keeps (fun _ => False) fun _ => True := by
  unfold copyChunk
  split
  · exact Comm.Keeps.refl c
  · exact keeps_heap c (Heap.memcpy_sat _ _ _)

theorem keeps_bind {o : CommOutcome Comm} {f : Comm → CommOutcome Comm} {c : Comm}
    (ho : o.Sat c.Keeps (fun _ => False) fun _ => True)
    (hf : ∀ c, (f c).Sat c.Keeps (fun _ => False) fun _ => True) :
    (o.bind f).Sat c.Keeps (fun _ => False) fun _ => True :=
  ho.bind fun c' hc' => (hf c').mono (fun _ => hc'.trans) (fun _ => id) fun _ => id

theorem keeps_reduceScatterRound (s : Nat) :
    (reduceScatterRound add off cs n s c).Sat c.Keeps (fun _ => False) fun _ => True :=
  keeps_bind (keeps_forRange c fun r c => keeps_sendChunk off cs n c r _) fun c =>
    keeps_forRange c fun r c => keeps_addChunk add off cs c r _

theorem keeps_allGatherRound (s : Nat) :
    (allGatherRound off cs n s c).Sat c.Keeps (fun _ => False) fun _ => True :=
  keeps_bind (keeps_forRange c fun r c => keeps_sendChunk off cs n c r _) fun c =>
    keeps_forRange c fun r c => keeps_copyChunk off cs c r _

theorem keeps_return {o : CommOutcome Comm} {c : Comm}
    (ho : o.Sat c.Keeps (fun _ => False) fun _ => True) :
    (o.bind fun c => (.ok (0, c) : CommOutcome (Int × Comm))).Sat (fun t => c.Keeps t.2)
      (fun _ => False) fun _ => True :=
  ho.bind fun _ hc' => hc'

theorem keeps_allreduce :
    (bvcommAllreduceSumF32 add off count c).Sat (fun t => c.Keeps t.2) (fun _ => False)
      fun _ => True := by
  unfold bvcommAllreduceSumF32
  dsimp only
  split_ifs
  case neg =>
    exact (keeps_forRange c fun s c => keeps_reduceScatterRound add off _ _ c s).bind fun c' hc' =>
      (keeps_return (keeps_forRange c' fun s c => keeps_allGatherRound off _ _ c s)).mono
        (fun _ => hc'.trans) (fun _ => id) fun _ => id
  all_goals exact Comm.Keeps.refl c

theorem keeps_broadcast (root : Int) :
    (bvcommBroadcastF32 root off count c).Sat (fun t => c.Keeps t.2) (fun _ => False)
      fun _ => True := by
  unfold bvcommBroadcastF32
  split_ifs
  case neg =>
    refine keeps_return (keeps_forRange c fun r c => ?_)
    split
    · exact Comm.Keeps.refl c
    · exact keeps_dma c _ _ _ _ _
  all_goals exact Comm.Keeps.refl c

theorem keeps_allgather (inOff outOff : Size) :
    (bvcommAllgatherF32 inOff outOff count c).Sat (fun t => c.Keeps t.2) (fun _ => False)
      fun _ => True := by
  unfold bvcommAllgatherF32
  dsimp only
  split_ifs
  case neg =>
    refine (keeps_forRange c fun r c => keeps_heap c (Heap.memcpy_sat _ _ _)).bind fun c' hc' => ?_
    refine (keeps_return (keeps_forRange c' fun src c => keeps_forRange c fun dst c => ?_)).mono
      (fun _ => hc'.trans) (fun _ => id) fun _ => id
    exact keeps_dma c _ _ _ _ _
  all_goals exact Comm.Keeps.refl c

end Collectives

/-! ### What `bvcomm_init` sets up -/

theorem fabricRegisterNode_ok {f f' : Fabric} {info : FabricNodeInfo}
    (h : fabricRegisterNode f info = (0, f')) :
    f'.nodes = f.nodes ++ [⟨{ info with id := f.numNodes }, true, Ptr.null, 0⟩] ∧
      f'.initialized = f.initialized := by
  unfold fabricRegisterNode at h
  split_ifs at h
  all_goals cases h
  exact ⟨rfl, rfl⟩

theorem fabricBindMemory_ok {f f' : Fabric} {node : Nat} {mem : Ptr} {len : Size}
    (h : fabricBindMemory f node mem len = (0, f')) :
    f'.nodes = f.nodes.set node { f.node node with mem, memLen := len } ∧
      f'.initialized = f.initialized := by
  unfold fabricBindMemory at h
  split_ifs at h
  all_goals cases h
  exact ⟨rfl, rfl⟩

theorem fabricChannelOpen_ok {f : Fabric} {src dst : Nat} {flags : BitVec 32}
    {ch ch' : FabricChannel} (h : fabricChannelOpen f src dst flags ch = (0, ch')) :
    ch' = ⟨src, dst, flags, fabricPacketMaxSize, 0, 0⟩ := by
  unfold fabricChannelOpen at h
  dsimp only at h
  split_ifs at h
  all_goals cases h
  rfl

/-- What the loop of `bvcomm_init` over the ranks has set up before rank `i`, over host memory
`h`. -/
structure InitRanks (w : BvcommWorld) (h : Heap) (i : Nat) (c : Comm) : Prop where
  nranks : c.world.nranks = w.nranks
  bufBytes : c.world.bufBytes = w.bufBytes
  scratchBytes : c.world.scratchBytes = w.scratchBytes
  windowBytes : c.world.windowBytes = w.windowBytes
  base : ∀ r < i, c.world.base r = BitVec.ofNat 64 r * bvcommWindowStride
  mem : ∀ r < i, c.world.mem r = ⟨h.next + r, 0⟩
  next : c.heap.next = h.next + i
  size : ∀ r < i, c.heap.size (h.next + r) = w.windowBytes.toNat
  initialized : c.fabric.initialized = true
  nodes : c.fabric.nodes =
    (List.range i).map fun r => rankNode w.windowBytes r ⟨h.next + r, 0⟩

theorem initRank_sat {w : BvcommWorld} {h : Heap} {i : Nat} {c : Comm} {granted : Bool}
    (hc : InitRanks w h i c) :
    (initRank granted i c).Sat (InitRanks w h (i + 1)) (fun _ => True) fun _ => False := by
  unfold initRank Heap.calloc
  dsimp only
  split_ifs with hgranted hreg hbind
  any_goals trivial
  obtain ⟨f₁, hf₁⟩ : ∃ f₁, fabricRegisterNode c.fabric (rankInfo c.world.windowBytes i) = (0, f₁) :=
    ⟨_, Prod.ext (not_not.mp hreg) rfl⟩
  rw [hf₁] at hbind ⊢
  dsimp only at hbind ⊢
  obtain ⟨f₂, hf₂⟩ : ∃ f₂, fabricBindMemory f₁ i ⟨c.heap.next, 0⟩ c.world.windowBytes = (0, f₂) :=
    ⟨_, Prod.ext (not_not.mp hbind) rfl⟩
  rw [hf₂]
  obtain ⟨hnodes₁, hinit₁⟩ := fabricRegisterNode_ok hf₁
  obtain ⟨hnodes₂, hinit₂⟩ := fabricBindMemory_ok hf₂
  have hlen : c.fabric.nodes.length = i := by rw [hc.nodes, List.length_map, List.length_range]
  have hnode : f₁.node i =
      ⟨{ rankInfo c.world.windowBytes i with id := i }, true, Ptr.null, 0⟩ := by
    rw [Fabric.node, hnodes₁, List.getD_eq_getElem?_getD, ← hlen, List.getElem?_concat_length]
    rfl
  refine ⟨hc.nranks, hc.bufBytes, hc.scratchBytes, hc.windowBytes, fun r hr => ?base,
    fun r hr => ?mem, ?next, fun r hr => ?size, by rw [hinit₂, hinit₁, hc.initialized], ?nodes⟩
  case base =>
    rcases Nat.lt_succ_iff_lt_or_eq.mp hr with hlt | rfl
    · simpa [Function.update_of_ne (Nat.ne_of_lt hlt)] using hc.base r hlt
    · simp
  case mem =>
    rcases Nat.lt_succ_iff_lt_or_eq.mp hr with hlt | rfl
    · simpa [Function.update_of_ne (Nat.ne_of_lt hlt)] using hc.mem r hlt
    · simp [hc.next]
  case next => simp only [hc.next, Nat.add_assoc]
  case size =>
    rcases Nat.lt_succ_iff_lt_or_eq.mp hr with hlt | rfl
    · have hne : h.next + r ≠ c.heap.next := by
        have := hc.next
        omega
      simpa [Function.update_of_ne hne] using hc.size r hlt
    · simp [hc.next, hc.windowBytes]
  case nodes =>
    rw [hnodes₂, hnode, hnodes₁, List.set_append_right _ _ (by omega), hlen, Nat.sub_self,
      List.range_succ, List.map_append, hc.nodes, hc.next, hc.windowBytes]
    rfl

/-- What the loop of `bvcomm_init` over the channels from rank `s` has opened before rank `d`. -/
structure InitChannels (c₀ : Comm) (opened : Nat → Nat → Prop) (c : Comm) : Prop where
  world : c.world = { c₀.world with ch := c.world.ch }
  fabric : c.fabric = c₀.fabric
  heap : c.heap = c₀.heap
  ch : ∀ s d, opened s d → c.world.ch s d =
    ⟨s, d, fabricChDma ||| fabricChRead ||| fabricChWrite, fabricPacketMaxSize, 0, 0⟩

theorem openChannel_sat {c₀ c : Comm} {opened : Nat → Nat → Prop} (s d : Nat)
    (hc : InitChannels c₀ opened c) :
    (openChannel s d c).Sat (InitChannels c₀ fun s' d' => opened s' d' ∨ s' = s ∧ d' = d)
      (fun _ => True) fun _ => False := by
  unfold openChannel
  cases hres : fabricChannelOpen c.fabric s d (fabricChDma ||| fabricChRead ||| fabricChWrite)
      (c.world.ch s d) with
  | mk ret ch =>
  dsimp only
  split_ifs with hopen
  · trivial
  rw [not_not.mp hopen] at hres
  have hch := fabricChannelOpen_ok hres
  refine ⟨?_, hc.fabric, hc.heap, fun s' d' hopened => ?_⟩
  · rw [hc.world]
  · dsimp only
    rw [hch]
    by_cases hs : s' = s
    · subst hs
      by_cases hd : d' = d
      · subst hd
        simp
      · simpa [hd] using hc.ch s' d' (by tauto)
    · simpa [hs] using hc.ch s' d' (by tauto)

theorem InitChannels.mono {c₀ c : Comm} {opened opened' : Nat → Nat → Prop}
    (hc : InitChannels c₀ opened c) (h : ∀ s d, opened' s d → opened s d) :
    InitChannels c₀ opened' c :=
  ⟨hc.world, hc.fabric, hc.heap, fun s d hsd => hc.ch s d (h s d hsd)⟩

theorem openChannels_sat (n : Nat) (c₀ : Comm) :
    (Outcome.forRange n (fun s => Outcome.forRange n fun d => openChannel s d) c₀).Sat
      (InitChannels c₀ fun s d => s < n ∧ d < n) (fun _ => True) fun _ => False := by
  refine Outcome.Sat.forRange (I := fun i => InitChannels c₀ fun s d => s < i ∧ d < n)
    ⟨rfl, rfl, rfl, fun s d h => absurd h.1 (Nat.not_lt_zero s)⟩ fun i c hc => ?_
  have hrow : (Outcome.forRange n (fun d => openChannel i d) c).Sat
      (InitChannels c₀ fun s d => s < i.val ∧ d < n ∨ s = i ∧ d < n) (fun _ => True)
      fun _ => False := Outcome.Sat.forRange
    (I := fun j => InitChannels c₀ fun s d => s < i.val ∧ d < n ∨ s = i ∧ d < j)
    (hc.mono fun s d h => by omega) fun j c' hc' => (openChannel_sat i j hc').mono
      (fun _ h => h.mono fun s d hsd => by omega) (fun _ => id) fun _ => id
  exact hrow.mono (fun _ h => h.mono fun s d hsd => by omega) (fun _ => id) fun _ => id

theorem InitRanks.ready {w : BvcommWorld} {h : Heap} {c₁ c : Comm}
    (hw : w.windowBytes = w.bufBytes + w.scratchBytes) (hbuf : w.bufBytes ≠ 0)
    (hlt : w.windowBytes < bvcommWindowStride) (hc₁ : InitRanks w h w.nranks c₁)
    (hc : InitChannels c₁ (fun s d => s < w.nranks ∧ d < w.nranks) c) : c.Ready := by
  have hnranks : c.world.nranks = w.nranks := by rw [hc.world, ← hc₁.nranks]
  have hwindow : c.world.windowBytes = w.windowBytes := by rw [hc.world, ← hc₁.windowBytes]
  have hbufBytes : c.world.bufBytes = w.bufBytes := by rw [hc.world, ← hc₁.bufBytes]
  have hscratch : c.world.scratchBytes = w.scratchBytes := by rw [hc.world, ← hc₁.scratchBytes]
  have hmem : ∀ r < w.nranks, c.world.mem r = ⟨h.next + r, 0⟩ := by
    rw [hc.world]
    exact hc₁.mem
  refine ⟨by rwa [hbufBytes], by rwa [hwindow, hbufBytes, hscratch], by rwa [hwindow], ?_, ?_, ?_,
    ?_, ?_, by rw [hc.fabric]; exact hc₁.initialized, ?_, ?_⟩
  all_goals rw [hnranks]
  case refine_1 =>
    rw [hc.world]
    exact hc₁.base
  case refine_2 =>
    intro r hr
    have := h.next_pos
    rw [hmem r hr, Ptr.isNull, decide_eq_false_iff_not]
    dsimp only
    omega
  case refine_3 =>
    intro r hr
    rw [hmem r hr]
  case refine_4 =>
    intro r hr r' hr' heq
    rw [hmem r hr, hmem r' hr'] at heq
    exact Nat.add_left_cancel heq
  case refine_5 =>
    intro r hr
    rw [hmem r hr, hc.heap, hwindow]
    exact hc₁.size r hr
  case refine_6 =>
    intro r hr
    rw [hmem r hr, hc.fabric, hwindow, Fabric.node, hc₁.nodes, List.getD_eq_getElem?_getD,
      List.getElem?_map, List.getElem?_range hr]
    rfl
  case refine_7 =>
    intro s hs d hd
    rw [hc.ch s d ⟨hs, hd⟩]
    exact ⟨rfl, rfl, rfl⟩

theorem initLoops_sat (granted : Nat → Bool) (w : BvcommWorld) (h : Heap)
    (hw : w.windowBytes = w.bufBytes + w.scratchBytes) (hbuf : w.bufBytes ≠ 0)
    (hlt : w.windowBytes < bvcommWindowStride) :
    ((Outcome.forRange w.nranks (fun r => initRank (granted (r + 1)) r) ⟨w, fabricInit, h⟩).bind
      (Outcome.forRange w.nranks fun s => Outcome.forRange w.nranks fun d => openChannel s d)).Sat
      Comm.Ready (fun _ => True) fun _ => False := by
  have hentry : InitRanks w h 0 ⟨w, fabricInit, h⟩ :=
    ⟨rfl, rfl, rfl, rfl, fun r hr => absurd hr (Nat.not_lt_zero r),
      fun r hr => absurd hr (Nat.not_lt_zero r), rfl, fun r hr => absurd hr (Nat.not_lt_zero r),
      rfl, rfl⟩
  have hranks : (Outcome.forRange w.nranks (fun r => initRank (granted (r + 1)) r)
      ⟨w, fabricInit, h⟩).Sat (InitRanks w h w.nranks) (fun _ => True) fun _ => False :=
    Outcome.Sat.forRange hentry fun i c hc => initRank_sat hc
  exact hranks.bind fun c₁ hc₁ => (openChannels_sat _ c₁).mono
    (fun c hc => hc₁.ready hw hbuf hlt hc) (fun _ => id) fun _ => id

/-- **A fresh world is ready.** -/
theorem bvcommInit_ready {granted : Nat → Bool} {h : Heap} {nranks : Int}
    {bufBytes scratchBytes : Size} {c : Comm}
    (hinit : bvcommInit granted h nranks bufBytes scratchBytes = .ok c) : c.Ready := by
  suffices hsat : (bvcommInit granted h nranks bufBytes scratchBytes).Sat Comm.Ready
      (fun _ => True) fun _ => False from hsat.of_eq_ok hinit
  unfold bvcommInit
  split_ifs with hargs hwindow hgranted
  any_goals trivial
  refine initLoops_sat granted (newWorld nranks.toNat _ _ bufBytes scratchBytes) h ?_ ?_ ?_
  · rfl
  · exact fun hbuf => hargs (.inr (.inr hbuf))
  · exact BitVec.not_le.mp hwindow

/-- **Every world a program can have is ready.** -/
theorem Comm.Live.ready {add : Word → Word → Word} {c : Comm} (hc : c.Live add) : c.Ready := by
  induction hc with
  | init hinit => exact bvcommInit_ready hinit
  | write _ _ hh ih => exact ih.keeps (Comm.Keeps.of_heap hh)
  | allreduce _ off count _ hcall ih =>
      exact ih.keeps ((keeps_allreduce add off count _).of_eq_ok hcall)
  | broadcast _ root off count _ hcall ih =>
      exact ih.keeps ((keeps_broadcast off count _ root).of_eq_ok hcall)
  | allgather _ inOff outOff count _ hcall ih =>
      exact ih.keeps ((keeps_allgather count _ inOff outOff).of_eq_ok hcall)

end BradVector
