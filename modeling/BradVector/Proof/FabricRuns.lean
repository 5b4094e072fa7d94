import BradVector.Proof.FabricQueue
import BradVector.Proof.World
import Mathlib.Logic.Relation

/-!
# Runs of the fabric

A program and the fabric: the channels the program has opened, its memory, and what has gone through
the message queue. Every byte sent or received is noted with the ends of the channel it was sent or
received on. Any call on any channel may come next, and the program may do with its memory what it
likes in between.

The queue keeps all bytes in order. It does not keep them by channel: there is one queue, and a
receive takes what is at its front, on whatever channel it was sent.
-/

namespace BradVector

open CSem

/-- A byte sent or received on a channel from node `src` to node `dst`. -/
structure Parcel where
  src : Nat
  dst : Nat
  byte : Byte
  deriving DecidableEq, Repr

def FabricChannel.parcels (ch : FabricChannel) (bs : List Byte) : List Parcel :=
  bs.map fun b => ⟨ch.srcNode, ch.dstNode, b⟩

structure Traffic where
  fabric : FabricState
  heap : Heap
  channels : List FabricChannel
  /-- The bytes sends have accepted so far. -/
  sent : List Parcel
  /-- The bytes receives have returned so far. -/
  received : List Parcel

/-- After `fabric_init`. -/
def Traffic.start (h : Heap) : Traffic := ⟨.init, h, [], [], []⟩

inductive FabricOp where
  | registerNode (info : FabricNodeInfo)
  | bindMemory (node : Nat) (mem : Ptr) (len : Size)
  | channelOpen (src dst : Nat) (flags : BitVec 32)
  | channelClose (i : Nat)
  | send (i : Nat) (data : Ptr) (len : Size)
  | recv (i : Nat) (buf : Ptr) (want : Size)
  | dma (i : Nat) (srcAddr dstAddr len : Size)
  | atomic (i : Nat) (addr : Size) (call : AtomicCall)
  | compute (h : Heap)

/-- The first `n` bytes at `p`, where the call that returned `ret` has not failed. -/
def transferred (ret : Int) (h : Heap) (p : Ptr) (n : Nat) : List Byte :=
  if ret < 0 then [] else readBytes (h.bytes p.block) p.off n

/-- One call, on the `i`-th channel where it needs one, that has a meaning in C. -/
inductive Traffic.Step (base : Nat → Nat) : Traffic → FabricOp → Traffic → Prop
  | registerNode {w : Traffic} (info : FabricNodeInfo) :
      Step base w (.registerNode info)
        { w with fabric := { w.fabric with
            toFabric := (fabricRegisterNode w.fabric.toFabric info).2 } }
  | bindMemory {w : Traffic} (node : Nat) (mem : Ptr) (len : Size) :
      Step base w (.bindMemory node mem len)
        { w with fabric := { w.fabric with
            toFabric := (fabricBindMemory w.fabric.toFabric node mem len).2 } }
  | channelOpen {w : Traffic} {src dst : Nat} {flags : BitVec 32} (ch₀ : FabricChannel)
      {ch : FabricChannel} (h : fabricChannelOpen w.fabric.toFabric src dst flags ch₀ = (0, ch)) :
      Step base w (.channelOpen src dst flags) { w with channels := w.channels ++ [ch] }
  | channelClose {w : Traffic} {i : Nat} {ch : FabricChannel} (hch : w.channels[i]? = some ch) :
      Step base w (.channelClose i)
        { w with channels := w.channels.set i (fabricChannelClose ch).2 }
  | send {w : Traffic} {i : Nat} {data : Ptr} {len : Size} {ch : FabricChannel} {r : FabricResult}
      (hch : w.channels[i]? = some ch)
      (h : (fabricSend w.fabric w.heap ch data len : Outcome HeapFault Empty _) = .ok r) :
      Step base w (.send i data len)
        { w with
          fabric := r.fabric
          heap := r.heap
          channels := w.channels.set i r.ch
          sent := w.sent ++ ch.parcels (transferred r.ret w.heap data len.toNat) }
  | recv {w : Traffic} {i : Nat} {buf : Ptr} {want : Size} {ch : FabricChannel} {r : RecvResult}
      (hch : w.channels[i]? = some ch)
      (h : (fabricRecv w.fabric w.heap ch buf want : Outcome HeapFault Empty _) = .ok r) :
      Step base w (.recv i buf want)
        { w with
          fabric := r.fabric
          heap := r.heap
          channels := w.channels.set i r.ch
          received := w.received ++ ch.parcels (transferred r.ret r.heap buf r.len.toNat) }
  | dma {w : Traffic} {i : Nat} {srcAddr dstAddr len : Size} {ch : FabricChannel} {r : DmaResult}
      (hch : w.channels[i]? = some ch)
      (h : (fabricDma w.fabric.toFabric w.heap ch srcAddr dstAddr len :
        Outcome HeapFault Empty _) = .ok r) :
      Step base w (.dma i srcAddr dstAddr len)
        { w with
          fabric := { w.fabric with toFabric := r.fabric }
          heap := r.heap
          channels := w.channels.set i r.ch }
  | atomic {w : Traffic} {i : Nat} {addr : Size} {call : AtomicCall} {ch : FabricChannel}
      {r : AtomicResult} (hch : w.channels[i]? = some ch)
      (h : (fabricAtomic base w.fabric w.heap ch addr call : Outcome HeapFault Empty _) = .ok r) :
      Step base w (.atomic i addr call) { w with fabric := r.fabric, heap := r.heap }
  | compute {w : Traffic} (h : Heap) : Step base w (.compute h) { w with heap := h }

/-- Any call. -/
def Traffic.Next (base : Nat → Nat) (w w' : Traffic) : Prop := ∃ op, Traffic.Step base w op w'

/-! ### What a send and a receive do -/

section Calls

variable {ε : Type} {f : FabricState} {h : Heap} {ch : FabricChannel} {p : Ptr} {len want : Size}

/-- A send refuses the message and leaves everything as it was, or puts it into the queue. -/
theorem fabricSend_cases {r : FabricResult}
    (hr : (fabricSend f h ch p len : Outcome HeapFault ε _) = .ok r) :
    (r.ret < 0 ∧ r.fabric = f ∧ r.ch = ch ∧ r.heap = h) ∨
      (len.toNat ≤ ch.mtu.toNat ∧
        (f.q.used.toNat = 0 ∨ (f.q.used + len).toNat ≤ fabricQueueBytes) ∧
        r.ret = (len.setWidth 32).toInt ∧
        r.fabric.q = f.q.push (readBytes (h.bytes p.block) p.off len.toNat) len ∧
        r.ch = { ch with bytesTx := ch.bytesTx + len }) := by
  unfold fabricSend at hr
  split at hr
  · cases hr
    exact .inl ⟨(by decide : -enodev < 0), rfl, rfl, rfl⟩
  split at hr
  · cases hr
    exact .inl ⟨(by decide : -einval < 0), rfl, rfl, rfl⟩
  split at hr
  · cases hr
    exact .inl ⟨(by decide : -einval < 0), rfl, rfl, rfl⟩
  split at hr
  · cases hr
    exact .inl ⟨(by decide : -emsgsize < 0), rfl, rfl, rfl⟩
  rename_i hmtu
  split at hr
  · cases hr
    exact .inl ⟨(by decide : -enospc < 0), rfl, rfl, rfl⟩
  rename_i hroom
  obtain ⟨bs, hread, hr⟩ := Outcome.bind_eq_ok_iff.mp hr
  obtain ⟨h', -, hr⟩ := Outcome.bind_eq_ok_iff.mp hr
  cases hr
  have hbs : bs = readBytes (h.bytes p.block) p.off len.toNat := by
    unfold Heap.read at hread
    split at hread
    · cases hread
      rfl
    · cases hread
  refine .inr ⟨Nat.not_lt.mp hmtu, ?_, rfl, by rw [hbs], rfl⟩
  rcases not_and_or.mp hroom with hzero | hfits
  · exact .inl (Nat.le_zero.mp (Nat.not_lt.mp hzero))
  · exact .inr (Nat.not_lt.mp hfits)

/-- A receive refuses and leaves everything as it was, or takes what it wants from the front of the
queue, as far as there is so much. -/
theorem fabricRecv_cases {r : RecvResult}
    (hr : (fabricRecv f h ch p want : Outcome HeapFault ε _) = .ok r) :
    (r.ret < 0 ∧ r.fabric = f ∧ r.ch = ch ∧ r.heap = h) ∨
      (r.len.toNat = min want.toNat f.q.used.toNat ∧ r.ret = (r.len.setWidth 32).toInt ∧
        r.fabric.q = f.q.pop r.len ∧
        r.heap = h.poke p (FabricQueue.scan f.q.data f.q.head r.len.toNat) ∧
        r.ch = { ch with bytesRx := ch.bytesRx + r.len }) := by
  unfold fabricRecv at hr
  split at hr
  · cases hr
    exact .inl ⟨(by decide : -enodev < 0), rfl, rfl, rfl⟩
  split at hr
  · cases hr
    exact .inl ⟨(by decide : -einval < 0), rfl, rfl, rfl⟩
  obtain ⟨h', hwrite, hr⟩ := Outcome.bind_eq_ok_iff.mp hr
  cases hr
  have hpoke := (Heap.write_pokes (h := h) p _).of_eq_ok hwrite
  refine .inr ⟨?_, rfl, rfl, hpoke, rfl⟩
  split
  · rename_i hlt
    exact (min_eq_left (Nat.le_of_lt hlt)).symm
  · rename_i hlt
    exact (min_eq_right (Nat.not_lt.mp hlt)).symm

/-- A length that fits in an `int` comes back as the value of the call. -/
theorem setWidth_toInt_eq (h : len.toNat < 2 ^ 31) : (len.setWidth 32).toInt = len.toNat := by
  rw [BitVec.toInt_eq_toNat_of_lt] <;> rw [BitVec.toNat_setWidth] <;> omega

end Calls

/-! ### The queue over a run -/

section Runs

variable {base : Nat → Nat} {w w' : Traffic}

def Parcel.bytes (ps : List Parcel) : List Byte := ps.map Parcel.byte

/-- What has been sent is what has been received followed by what is in the queue. -/
structure Traffic.Inv (w : Traffic) : Prop where
  valid : w.fabric.q.Valid
  mtu_le : ∀ ch ∈ w.channels, ch.mtu.toNat ≤ fabricPacketMaxSize.toNat
  stream : Parcel.bytes w.sent = Parcel.bytes w.received ++ w.fabric.q.contents

theorem parcels_bytes (ch : FabricChannel) (bs : List Byte) :
    Parcel.bytes (ch.parcels bs) = bs := by
  rw [Parcel.bytes, FabricChannel.parcels, List.map_map]
  exact List.map_id bs

theorem bytes_append (ps qs : List Parcel) :
    Parcel.bytes (ps ++ qs) = Parcel.bytes ps ++ Parcel.bytes qs :=
  List.map_append

theorem traffic_inv_start (h : Heap) : (Traffic.start h).Inv :=
  ⟨FabricQueue.valid_zero, fun _ hmem => absurd hmem List.not_mem_nil, rfl⟩

theorem Traffic.Inv.of_same_queue (h : w.Inv) (hq : w'.fabric.q = w.fabric.q)
    (hsent : w'.sent = w.sent) (hreceived : w'.received = w.received)
    (hmtu : ∀ ch ∈ w'.channels, ch.mtu.toNat ≤ fabricPacketMaxSize.toNat) : w'.Inv :=
  ⟨hq ▸ h.valid, hmtu, by rw [hsent, hreceived, hq, h.stream]⟩

theorem mtu_le_set {chs : List FabricChannel} {i : Nat} {ch : FabricChannel}
    (h : ∀ ch ∈ chs, ch.mtu.toNat ≤ fabricPacketMaxSize.toNat)
    (hch : ch.mtu.toNat ≤ fabricPacketMaxSize.toNat) :
    ∀ c ∈ chs.set i ch, c.mtu.toNat ≤ fabricPacketMaxSize.toNat := by
  intro c hc
  rcases List.mem_or_eq_of_mem_set hc with hmem | rfl
  · exact h c hmem
  · exact hch

theorem fabricChannelOpen_mtu {f : Fabric} {src dst : Nat} {flags : BitVec 32}
    {ch₀ ch : FabricChannel} (h : fabricChannelOpen f src dst flags ch₀ = (0, ch)) :
    ch.mtu = fabricPacketMaxSize := by
  unfold fabricChannelOpen at h
  split at h
  · cases h
  split at h
  · cases h
  dsimp only at h
  split at h
  · cases h
  · cases h
    rfl

theorem fabricDma_mtu {ε : Type} {f : Fabric} {h : Heap} {ch : FabricChannel}
    {srcAddr dstAddr len : Size} {r : DmaResult}
    (hr : (fabricDma f h ch srcAddr dstAddr len : Outcome HeapFault ε _) = .ok r) :
    r.ch.mtu = ch.mtu := by
  by_cases hv : DmaValid f ch srcAddr dstAddr len
  · rw [fabricDma_of_valid hv] at hr
    obtain ⟨h', -, hdone⟩ := Outcome.bind_eq_ok_iff.mp hr
    cases hdone
    rfl
  · obtain ⟨ret, -, heq⟩ := fabricDma_of_not_valid (ε := ε) (h := h) hv
    rw [heq] at hr
    cases hr
    rfl

theorem fabricAtomic_queue {ε : Type} {f : FabricState} {h : Heap} {ch : FabricChannel}
    {addr : Size} {call : AtomicCall} {r : AtomicResult}
    (hr : (fabricAtomic base f h ch addr call : Outcome HeapFault ε _) = .ok r) :
    r.fabric.q = f.q := by
  unfold fabricAtomic at hr
  split at hr
  · cases hr
    rfl
  · obtain ⟨⟨reply, h'⟩, -, hr⟩ := Outcome.bind_eq_ok_iff.mp hr
    cases hr
    rfl

theorem transferred_of_neg {ret : Int} {h : Heap} {p : Ptr} {n : Nat} (hret : ret < 0) :
    transferred ret h p n = [] :=
  if_pos hret

theorem transferred_of_len {len : Size} {h : Heap} {p : Ptr} (hlen : len.toNat < 2 ^ 31) :
    transferred (len.setWidth 32).toInt h p len.toNat =
      readBytes (h.bytes p.block) p.off len.toNat :=
  if_neg (by rw [setWidth_toInt_eq hlen]; omega)

theorem Traffic.Inv.send (hw : w.Inv) {i : Nat} {data : Ptr} {len : Size} {ch : FabricChannel}
    {r : FabricResult} (hch : w.channels[i]? = some ch)
    (h : (fabricSend w.fabric w.heap ch data len : Outcome HeapFault Empty _) = .ok r) :
    Traffic.Inv { w with
      fabric := r.fabric
      heap := r.heap
      channels := w.channels.set i r.ch
      sent := w.sent ++ ch.parcels (transferred r.ret w.heap data len.toNat) } := by
  have hmtu : ch.mtu.toNat ≤ fabricPacketMaxSize.toNat := hw.mtu_le ch (List.mem_of_getElem? hch)
  rcases fabricSend_cases h with ⟨hret, hf, hc, -⟩ | ⟨hlen, hroom, hret, hq, hc⟩
  · refine hw.of_same_queue (by rw [hf]) ?_ rfl (mtu_le_set hw.mtu_le (hc ▸ hmtu))
    rw [transferred_of_neg hret]
    exact List.append_nil _
  have hmax : len.toNat ≤ 4096 := Nat.le_trans hlen hmtu
  have hfits : w.fabric.q.used.toNat + len.toNat ≤ fabricQueueBytes := by
    have hle := hw.valid.used_le
    simp only [fabricQueueBytes] at hle hroom ⊢
    rcases hroom with hzero | hfits
    · omega
    · rwa [BitVec.toNat_add, Nat.mod_eq_of_lt (by omega)] at hfits
  have hpush := hw.valid.push (readBytes_length (w.heap.bytes data.block) data.off len.toNat) hfits
  refine ⟨?_, mtu_le_set hw.mtu_le (by rw [hc]; exact hmtu), ?_⟩
  · rw [hq]
    exact hpush.1
  · rw [bytes_append, parcels_bytes, hret, transferred_of_len (by omega), hq, hpush.2, hw.stream,
      List.append_assoc]

/-- A receive returns what is at the front of the queue. -/
theorem recv_front (hw : w.Inv) {buf : Ptr} {want : Size} {ch : FabricChannel} {r : RecvResult}
    (h : (fabricRecv w.fabric w.heap ch buf want : Outcome HeapFault Empty _) = .ok r) :
    (r.fabric.q = w.fabric.q ∧ transferred r.ret r.heap buf r.len.toNat = []) ∨
      (r.fabric.q = w.fabric.q.pop r.len ∧ r.len.toNat = min want.toNat w.fabric.q.used.toNat ∧
        transferred r.ret r.heap buf r.len.toNat ++ r.fabric.q.contents =
          w.fabric.q.contents) := by
  rcases fabricRecv_cases h with ⟨hret, hf, -, -⟩ | ⟨hlen, hret, hq, hheap, -⟩
  · exact .inl ⟨by rw [hf], transferred_of_neg hret⟩
  have hused : r.len.toNat ≤ w.fabric.q.used.toNat := hlen ▸ Nat.min_le_right _ _
  have hle := hw.valid.used_le
  have hback : readBytes (r.heap.bytes buf.block) buf.off r.len.toNat =
      FabricQueue.scan w.fabric.q.data w.fabric.q.head r.len.toNat := by
    set bs := FabricQueue.scan w.fabric.q.data w.fabric.q.head r.len.toNat with hbs
    have hlength : bs.length = r.len.toNat := by rw [hbs, FabricQueue.scan_eq, Circle.scan_length]
    have hbytes : r.heap.bytes buf.block =
        writeBytes (w.heap.bytes buf.block) buf.off bs := by
      rw [hheap]
      exact Function.update_self _ _ _
    rw [hbytes, ← hlength]
    exact readBytes_writeBytes_self _ _ _
  refine .inr ⟨hq, hlen, ?_⟩
  rw [hret, transferred_of_len (by simp only [fabricQueueBytes] at hle; omega), hback, hq]
  exact (hw.valid.pop hused).2

theorem Traffic.Inv.recv (hw : w.Inv) {i : Nat} {buf : Ptr} {want : Size} {ch : FabricChannel}
    {r : RecvResult} (hch : w.channels[i]? = some ch)
    (h : (fabricRecv w.fabric w.heap ch buf want : Outcome HeapFault Empty _) = .ok r) :
    Traffic.Inv { w with
      fabric := r.fabric
      heap := r.heap
      channels := w.channels.set i r.ch
      received := w.received ++ ch.parcels (transferred r.ret r.heap buf r.len.toNat) } := by
  have hmtu : ch.mtu.toNat ≤ fabricPacketMaxSize.toNat := hw.mtu_le ch (List.mem_of_getElem? hch)
  have hkeep : r.ch.mtu.toNat ≤ fabricPacketMaxSize.toNat := by
    rcases fabricRecv_cases h with ⟨-, -, hc, -⟩ | ⟨-, -, -, -, hc⟩
    · exact hc ▸ hmtu
    · rw [hc]
      exact hmtu
  rcases recv_front hw h with ⟨hq, hnone⟩ | ⟨hq, hlen, hfront⟩
  · refine hw.of_same_queue hq rfl ?_ (mtu_le_set hw.mtu_le hkeep)
    rw [hnone]
    exact List.append_nil _
  have hused : r.len.toNat ≤ w.fabric.q.used.toNat := hlen ▸ Nat.min_le_right _ _
  refine ⟨?_, mtu_le_set hw.mtu_le hkeep, ?_⟩
  · rw [hq]
    exact (hw.valid.pop hused).1
  · rw [bytes_append, parcels_bytes, List.append_assoc, hfront, hw.stream]

/-- **Every call keeps the stream.** -/
theorem Traffic.Inv.next (hw : w.Inv) (hnext : w.Next base w') : w'.Inv := by
  obtain ⟨op, hstep⟩ := hnext
  cases hstep with
  | registerNode info => exact hw.of_same_queue rfl rfl rfl hw.mtu_le
  | bindMemory node mem len => exact hw.of_same_queue rfl rfl rfl hw.mtu_le
  | channelOpen ch₀ h =>
      refine hw.of_same_queue rfl rfl rfl fun c hc => ?_
      rcases List.mem_append.mp hc with hold | hnew
      · exact hw.mtu_le c hold
      · rw [List.mem_singleton.mp hnew, fabricChannelOpen_mtu h]
  | channelClose hch =>
      exact hw.of_same_queue rfl rfl rfl (mtu_le_set hw.mtu_le (Nat.zero_le _))
  | send hch h => exact hw.send hch h
  | recv hch h => exact hw.recv hch h
  | dma hch h =>
      have hmtu := hw.mtu_le _ (List.mem_of_getElem? hch)
      exact hw.of_same_queue rfl rfl rfl (mtu_le_set hw.mtu_le (fabricDma_mtu h ▸ hmtu))
  | atomic hch h => exact hw.of_same_queue (fabricAtomic_queue h) rfl rfl hw.mtu_le
  | compute h => exact hw.of_same_queue rfl rfl rfl hw.mtu_le

theorem traffic_inv_of_run {h : Heap}
    (hrun : Relation.ReflTransGen (Traffic.Next base) (.start h) w) :
    w.Inv := by
  induction hrun with
  | refl => exact traffic_inv_start h
  | tail _ hnext ih => exact ih.next hnext

/-- **The queue is first in, first out.** After any calls from `fabric_init` on, the fill level is
at most the size of the array, the tail is as far behind the head as the fill level says, and the
bytes received are the first of the bytes sent, all but those still in the queue. -/
theorem queue_first_in_first_out {h : Heap}
    (hrun : Relation.ReflTransGen (Traffic.Next base) (.start h) w) :
    w.fabric.q.used.toNat ≤ 131072 ∧
      w.fabric.q.tail.toNat = (w.fabric.q.head.toNat + w.fabric.q.used.toNat) % 131072 ∧
      Parcel.bytes w.received <+: Parcel.bytes w.sent ∧
      w.sent.length = w.received.length + w.fabric.q.used.toNat := by
  have hinv := traffic_inv_of_run hrun
  refine ⟨hinv.valid.used_le, hinv.valid.tail_eq, ⟨_, hinv.stream.symm⟩, ?_⟩
  have hlength := congrArg List.length hinv.stream
  simpa [Parcel.bytes, FabricQueue.contents_length] using hlength

end Runs

/-- Two nodes with a window of 4 KiB each, and buffers for the program. -/
def nodeInfo (addr : Size) : FabricNodeInfo := ⟨0, .cpu, addr, addr + 4095, 10, 5⟩

def bufferHeap : Heap := ⟨fun _ _ => 42, fun b => if b = 0 then 0 else 8, 2, by decide, rfl⟩

/-- A message of three bytes of which two have been received. -/
theorem queue_first_in_first_out_partial : ∃ w : Traffic,
    Parcel.bytes w.received = [42, 42] ∧ w.fabric.q.used.toNat = 1 ∧
      w.fabric.q.used.toNat ≤ 131072 ∧
      w.fabric.q.tail.toNat = (w.fabric.q.head.toNat + w.fabric.q.used.toNat) % 131072 ∧
      Parcel.bytes w.received <+: Parcel.bytes w.sent ∧
      w.sent.length = w.received.length + w.fabric.q.used.toNat := by
  have hrun : ∃ w : Traffic, Relation.ReflTransGen (Traffic.Next fun _ => 0) (.start bufferHeap) w ∧
      Parcel.bytes w.received = [42, 42] ∧ w.fabric.q.used.toNat = 1 := by
    refine exists_run_head ⟨_, .registerNode (nodeInfo 0)⟩ ?_
    refine exists_run_head ⟨_, .registerNode (nodeInfo 4096)⟩ ?_
    refine exists_run_head ⟨.channelOpen 0 1 3, .channelOpen .zero rfl⟩ ?_
    refine exists_run_head ⟨.send 0 ⟨1, 0⟩ 3, .send rfl rfl⟩ ?_
    refine exists_run_head ⟨.recv 0 ⟨1, 0⟩ 2, .recv rfl rfl⟩ ?_
    exact ⟨_, .refl, rfl, rfl⟩
  obtain ⟨w, hrun, hreceived, hused⟩ := hrun
  exact ⟨w, hreceived, hused, queue_first_in_first_out hrun⟩

/-! ### The channels -/

section Channels

variable {base : Nat → Nat} {w w' : Traffic}

def Parcel.Between (p : Parcel) (src dst : Nat) : Bool := p.src = src && p.dst = dst

/-- Between any two nodes, what has been received is the first of what has been sent. -/
def Traffic.Isolated (w : Traffic) : Prop :=
  ∀ src dst, Parcel.bytes (w.received.filter (·.Between src dst)) <+:
    Parcel.bytes (w.sent.filter (·.Between src dst))

/-- The bytes a receive is about to take were sent on channels with the ends of its own. -/
def Traffic.TakesOwn (w : Traffic) : FabricOp → Prop
  | .recv i _ want => ∀ ch, w.channels[i]? = some ch →
      ∀ p ∈ (w.sent.drop w.received.length).take want.toNat,
        p.src = ch.srcNode ∧ p.dst = ch.dstNode
  | _ => True

/-- A call that takes nobody else's bytes. -/
def Traffic.OwnNext (base : Nat → Nat) (w w' : Traffic) : Prop :=
  ∃ op, Traffic.Step base w op w' ∧ w.TakesOwn op

theorem Traffic.OwnNext.next (h : w.OwnNext base w') : w.Next base w' := ⟨h.choose, h.choose_spec.1⟩

theorem parcels_eq {ch : FabricChannel} {ps : List Parcel}
    (hends : ∀ p ∈ ps, p.src = ch.srcNode ∧ p.dst = ch.dstNode) :
    ch.parcels (Parcel.bytes ps) = ps := by
  rw [FabricChannel.parcels, Parcel.bytes, List.map_map]
  refine (List.map_congr_left fun p hp => ?_).trans (List.map_id ps)
  obtain ⟨hsrc, hdst⟩ := hends p hp
  simp [← hsrc, ← hdst]

/-- A receive that takes its own bytes returns the next ones that were sent, with their ends. -/
theorem recv_own (hw : w.Inv) (hpre : w.received <+: w.sent) {buf : Ptr} {want : Size}
    {ch : FabricChannel} {r : RecvResult}
    (h : (fabricRecv w.fabric w.heap ch buf want : Outcome HeapFault Empty _) = .ok r)
    (hown : ∀ p ∈ (w.sent.drop w.received.length).take want.toNat,
      p.src = ch.srcNode ∧ p.dst = ch.dstNode) :
    w.received ++ ch.parcels (transferred r.ret r.heap buf r.len.toNat) <+: w.sent := by
  obtain ⟨rest, hrest⟩ := hpre
  rcases recv_front hw h with ⟨-, hnone⟩ | ⟨-, hlen, hfront⟩
  · rw [hnone]
    exact ⟨rest, by simpa [FabricChannel.parcels] using hrest⟩
  set bs := transferred r.ret r.heap buf r.len.toNat with hbs
  have hbytes : Parcel.bytes rest = bs ++ r.fabric.q.contents := by
    have hstream := hw.stream
    rw [← hrest, bytes_append, ← hfront] at hstream
    exact List.append_cancel_left hstream
  have hshort : bs.length ≤ want.toNat := by
    have hle : bs.length ≤ r.len.toNat := by
      rw [hbs, transferred]
      split <;> simp
    omega
  have htake : bs = Parcel.bytes (rest.take bs.length) := by
    rw [Parcel.bytes, List.map_take]
    change bs = (Parcel.bytes rest).take bs.length
    rw [hbytes, List.take_left]
  have hdrop : w.sent.drop w.received.length = rest := by rw [← hrest, List.drop_left]
  have hends : ∀ p ∈ rest.take bs.length, p.src = ch.srcNode ∧ p.dst = ch.dstNode := by
    intro p hp
    rw [hdrop] at hown
    exact hown p ((List.take_prefix_take_left hshort).subset hp)
  refine ⟨rest.drop bs.length, ?_⟩
  have hparcels : ch.parcels bs = rest.take bs.length := by
    rw [htake]
    conv_rhs => rw [← htake]
    exact parcels_eq hends
  rw [hparcels, List.append_assoc, List.take_append_drop, hrest]

/-- **A call that takes nobody else's bytes keeps the ends of the bytes in step.** -/
theorem received_prefix_next (hw : w.Inv) (hpre : w.received <+: w.sent)
    (hnext : w.OwnNext base w') : w'.received <+: w'.sent := by
  obtain ⟨op, hstep, hown⟩ := hnext
  cases hstep with
  | send hch h => exact hpre.trans (List.prefix_append _ _)
  | recv hch h => exact recv_own hw hpre h (hown _ hch)
  | registerNode => exact hpre
  | bindMemory => exact hpre
  | channelOpen => exact hpre
  | channelClose => exact hpre
  | dma => exact hpre
  | atomic => exact hpre
  | compute => exact hpre

theorem isolated_of_earlier (h : w.received <+: w.sent) : w.Isolated :=
  fun _ _ => (h.filter _).map _

/-- **Own bytes only.** In every run in which each receive finds at the front of the queue bytes
that were sent on channels with the ends of its own, the bytes received between two nodes are the
first of those sent between them, and every byte is received between the nodes it was sent
between. -/
theorem channels_isolated {h : Heap}
    (hrun : Relation.ReflTransGen (Traffic.OwnNext base) (.start h) w) :
    w.Isolated ∧ w.received <+: w.sent := by
  have hboth : w.Inv ∧ w.received <+: w.sent := by
    induction hrun with
    | refl => exact ⟨traffic_inv_start h, List.prefix_refl []⟩
    | tail _ hnext ih => exact ⟨ih.1.next hnext.next, received_prefix_next ih.1 ih.2 hnext⟩
  exact ⟨isolated_of_earlier hboth.2, hboth.2⟩

end Channels

/-- Two nodes, and a channel each way between them. -/
def twoNodes : Traffic where
  fabric := {
    nodes := [⟨{ nodeInfo 0 with id := 0 }, true, .null, 0⟩,
      ⟨{ nodeInfo 4096 with id := 1 }, true, .null, 0⟩]
    nodes_le := by decide
    initialized := true
    dmaBytes := 0
    totalLatencyNs := 0
    q := .zero
    atomicOps := 0 }
  heap := bufferHeap
  channels := [⟨0, 1, 3, fabricPacketMaxSize, 0, 0⟩, ⟨1, 0, 3, fabricPacketMaxSize, 0, 0⟩]
  sent := []
  received := []

theorem twoNodes_reached :
    Relation.ReflTransGen (Traffic.OwnNext fun _ => 0) (.start bufferHeap) twoNodes := by
  refine .head ⟨_, .registerNode (nodeInfo 0), trivial⟩ ?_
  refine .head ⟨_, .registerNode (nodeInfo 4096), trivial⟩ ?_
  refine .head ⟨.channelOpen 0 1 3, .channelOpen .zero rfl, trivial⟩ ?_
  exact .single ⟨.channelOpen 1 0 3, .channelOpen .zero rfl, trivial⟩

/-- A message each way, of which the first has been received. -/
theorem channels_isolated_both_ways : ∃ w : Traffic,
    w.sent = [⟨0, 1, 42⟩, ⟨1, 0, 42⟩] ∧ w.received = [⟨0, 1, 42⟩] ∧
      w.Isolated ∧ w.received <+: w.sent := by
  have hrun : ∃ w : Traffic, Relation.ReflTransGen (Traffic.OwnNext fun _ => 0) twoNodes w ∧
      w.sent = [⟨0, 1, 42⟩, ⟨1, 0, 42⟩] ∧ w.received = [⟨0, 1, 42⟩] := by
    refine exists_run_head ⟨.send 0 ⟨1, 0⟩ 1, .send rfl rfl, trivial⟩ ?_
    refine exists_run_head ⟨.send 1 ⟨1, 0⟩ 1, .send rfl rfl, trivial⟩ ?_
    refine exists_run_head ⟨.recv 0 ⟨1, 0⟩ 1, .recv rfl rfl, ?_⟩ ?_
    · rintro ch ⟨⟩ p hp
      rw [List.mem_singleton.mp hp]
      exact ⟨rfl, rfl⟩
    exact ⟨_, .refl, rfl, rfl⟩
  obtain ⟨w, hrun, hsent, hreceived⟩ := hrun
  exact ⟨w, hsent, hreceived, channels_isolated (twoNodes_reached.trans hrun)⟩

/-- A byte sent from node 0 to node 1 is received on the channel from node 1 to node 0. -/
theorem channels_not_isolated :
    ¬ ∀ w : Traffic, Relation.ReflTransGen (Traffic.Next fun _ => 0) (.start bufferHeap) w →
      w.Isolated := by
  intro hall
  have hrun : ∃ w : Traffic, Relation.ReflTransGen (Traffic.Next fun _ => 0) twoNodes w ∧
      w.sent = [⟨0, 1, 42⟩] ∧ w.received = [⟨1, 0, 42⟩] := by
    refine exists_run_head ⟨.send 0 ⟨1, 0⟩ 1, .send rfl rfl⟩ ?_
    refine exists_run_head ⟨.recv 1 ⟨1, 0⟩ 1, .recv rfl rfl⟩ ?_
    exact ⟨_, .refl, rfl, rfl⟩
  obtain ⟨w, hrun, hsent, hreceived⟩ := hrun
  have hstart := Relation.ReflTransGen.mono (fun _ _ => Traffic.OwnNext.next) _ _ twoNodes_reached
  have hisolated := hall w (hstart.trans hrun) 1 0
  rw [hsent, hreceived] at hisolated
  revert hisolated
  decide

end BradVector
