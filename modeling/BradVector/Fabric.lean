import BradVector.Library.Heap
import BradVector.Isa

/-!
# The BradFusion fabric

The reference model of the interconnect in `fabric.h` and `fabric.c`: registered nodes with their
address windows, the host memory bound to them, channels and DMA. Functions return the C code's
status, zero or more on success and a negated error number otherwise, with the state they leave.
-/

namespace BradVector

open CSem

def fabricMaxNodes : Nat := 64
def fabricPacketMaxSize : Size := 4096

inductive FabricNodeType where
  | cpu
  | gpu
  | npu
  | mem
  | rt
  | io
  | hsm
  deriving DecidableEq, Repr

def fabricChRead : BitVec 32 := 1
def fabricChWrite : BitVec 32 := 2
def fabricChDma : BitVec 32 := 4
def fabricChAtomic : BitVec 32 := 8
def fabricChCacheCoh : BitVec 32 := 16
def fabricChIso : BitVec 32 := 32

structure FabricNodeInfo where
  id : Nat
  type : FabricNodeType
  addressBase : Size
  addressLimit : Size
  bandwidthGbs : BitVec 32
  latencyNs : BitVec 32
  deriving DecidableEq, Repr

structure FabricChannel where
  srcNode : Nat
  dstNode : Nat
  flags : BitVec 32
  mtu : Size
  bytesTx : Size
  bytesRx : Size
  deriving DecidableEq, Repr

def FabricChannel.zero : FabricChannel := ⟨0, 0, 0, 0, 0, 0⟩

structure FabricNode where
  info : FabricNodeInfo
  registered : Bool
  /-- The memory bound to the node, or null. -/
  mem : Ptr
  memLen : Size

def FabricNode.zero : FabricNode := ⟨⟨0, .cpu, 0, 0, 0, 0⟩, false, Ptr.null, 0⟩

/-- `fabric_state`. The table holds the nodes below `num_nodes`; the entries behind them are
zero. -/
structure Fabric where
  nodes : List FabricNode
  nodes_le : nodes.length ≤ fabricMaxNodes
  initialized : Bool
  dmaBytes : BitVec 32
  totalLatencyNs : BitVec 64

namespace Fabric

variable (f : Fabric)

def numNodes : Nat := f.nodes.length

/-- `fabric_state.nodes[id]`. -/
def node (id : Nat) : FabricNode := f.nodes.getD id FabricNode.zero

def nodeValid (id : Nat) : Bool := id < f.numNodes && (f.node id).registered

def regionValid (node : Nat) (addr len : Size) : Bool :=
  if addr < (f.node node).info.addressBase then false
  else if (f.node node).info.addressLimit + 1 < addr + len then false
  else true

/-- `fabric_translate`. -/
def translate (node : Nat) (addr : Size) : Ptr :=
  let n := f.node node
  if n.mem.isNull then Ptr.null
  else if addr < n.info.addressBase || n.info.addressBase + n.memLen ≤ addr then Ptr.null
  else n.mem + (addr - n.info.addressBase).toNat

end Fabric

def fabricInit : Fabric where
  nodes := []
  nodes_le := Nat.zero_le _
  initialized := true
  dmaBytes := 0
  totalLatencyNs := 0

/-- The windows of a registered node and of one about to be registered have an address in common, as
`fabric_register_node` computes it. -/
def FabricNode.overlaps (n : FabricNode) (info : FabricNodeInfo) : Bool :=
  n.registered && info.addressBase < n.info.addressLimit + 1 &&
    n.info.addressBase < info.addressLimit + 1

def fabricRegisterNode (f : Fabric) (info : FabricNodeInfo) : Int × Fabric :=
  if ¬ f.initialized then (-enodev, f)
  else if h : fabricMaxNodes ≤ f.numNodes then (-enospc, f)
  else if f.nodes.any fun n => n.overlaps info then (-eaddrinuse, f)
  else
    let node : FabricNode := ⟨{ info with id := f.numNodes }, true, Ptr.null, 0⟩
    (0, { f with
      nodes := f.nodes ++ [node]
      nodes_le := by
        rw [List.length_append, List.length_singleton]
        exact Nat.lt_of_not_le h })

def fabricBindMemory (f : Fabric) (node : Nat) (mem : Ptr) (len : Size) : Int × Fabric :=
  if ¬ f.initialized then (-enodev, f)
  else if ¬ f.nodeValid node || mem.isNull || len = 0 then (-einval, f)
  else if (f.node node).info.addressLimit - (f.node node).info.addressBase + 1 < len then
    (-einval, f)
  else
    (0, { f with
      nodes := f.nodes.set node { f.node node with mem, memLen := len }
      nodes_le := by
        rw [List.length_set]
        exact f.nodes_le })

def fabricChannelOpen (f : Fabric) (src dst : Nat) (flags : BitVec 32) (ch : FabricChannel) :
    Int × FabricChannel :=
  if ¬ f.initialized then (-enodev, ch)
  else if ¬ f.nodeValid src || ¬ f.nodeValid dst then (-enodev, ch)
  else
    let validFlags := fabricChRead ||| fabricChWrite ||| fabricChDma ||| fabricChAtomic |||
      fabricChCacheCoh ||| fabricChIso
    if flags &&& ~~~validFlags ≠ 0 then (-einval, ch)
    else (0, ⟨src, dst, flags, fabricPacketMaxSize, 0, 0⟩)

/-- `if (src && dst) memmove(dst, src, len)`. -/
def dmaMove {ε : Type} (h : Heap) (src dst : Ptr) (len : Size) : Outcome HeapFault ε Heap :=
  if src.isNull || dst.isNull then .ok h else h.memmove dst src len.toNat

/-- What `fabric_dma` returns and leaves behind. -/
structure DmaResult where
  ret : Int
  ch : FabricChannel
  fabric : Fabric
  heap : Heap

/-- `fabric_dma`. An access of the transfer that leaves a block of host memory is undefined. -/
def fabricDma {ε : Type} (f : Fabric) (h : Heap) (ch : FabricChannel) (srcAddr dstAddr len : Size) :
    Outcome HeapFault ε DmaResult :=
  if ¬ f.initialized then .ok ⟨-enodev, ch, f, h⟩
  else if len = 0 then .ok ⟨-einval, ch, f, h⟩
  else if ch.flags &&& fabricChDma = 0 then .ok ⟨-eperm, ch, f, h⟩
  else if ¬ f.regionValid ch.srcNode srcAddr len then .ok ⟨-efault, ch, f, h⟩
  else if ¬ f.regionValid ch.dstNode dstAddr len then .ok ⟨-efault, ch, f, h⟩
  else do
    let src := f.translate ch.srcNode srcAddr
    let dst := f.translate ch.dstNode dstAddr
    let h ← dmaMove h src dst len
    let lat := (f.node ch.srcNode).info.latencyNs + (f.node ch.dstNode).info.latencyNs
    return {
      ret := (len.setWidth 32).toInt
      ch := { ch with bytesTx := ch.bytesTx + len }
      fabric := { f with
        dmaBytes := f.dmaBytes + len.setWidth 32
        totalLatencyNs := f.totalLatencyNs + lat.setWidth 64 }
      heap := h }

end BradVector
