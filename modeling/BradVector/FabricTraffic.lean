import BradVector.Fabric
import BradVector.Library.Transactions

/-!
# Messages and atomics of the fabric

The rest of `fabric.c`: the queue behind `fabric_send` and `fabric_recv`, and the hardware atomics.
The state is the one of the topology, with the queue and the count of atomic operations.

An atomic operation is a program of transactions on one word, the `__atomic` builtins of the source,
each of which reads the word and replaces it in one indivisible step.
-/

namespace BradVector

open CSem

def emsgsize : Int := 90

/-! ### The message queue -/

/-- `sizeof(fabric_state.q.data)`: 32 packets of 4096 bytes. -/
def fabricQueueBytes : Nat := 32 * 4096

def fabricQueueSize : Size := BitVec.ofNat 64 fabricQueueBytes

structure FabricQueue where
  data : Nat → Byte
  head : Size
  tail : Size
  used : Size

namespace FabricQueue

def zero : FabricQueue := ⟨fun _ => 0, 0, 0, 0⟩

/-- The cell a running position stands for. -/
def slot (pos : Size) : Nat := (pos &&& (fabricQueueSize - 1)).toNat

/-- The loop that stores bytes from position `pos` on. -/
def fill (data : Nat → Byte) (pos : Size) : List Byte → Nat → Byte
  | [] => data
  | b :: bs => fill (Function.update data (slot pos) b) (pos + 1) bs

/-- The loop that fetches `n` bytes from position `pos` on. -/
def scan (data : Nat → Byte) (pos : Size) : Nat → List Byte
  | 0 => []
  | n + 1 => data (slot pos) :: scan data (pos + 1) n

def push (q : FabricQueue) (bs : List Byte) (len : Size) : FabricQueue where
  data := fill q.data q.tail bs
  head := q.head
  tail := (q.tail + len) &&& (fabricQueueSize - 1)
  used := q.used + len

def pop (q : FabricQueue) (n : Size) : FabricQueue :=
  { q with head := (q.head + n) &&& (fabricQueueSize - 1), used := q.used - n }

end FabricQueue

/-- `fabric_state`, with the queue and the number of atomic operations. -/
structure FabricState extends Fabric where
  q : FabricQueue
  atomicOps : BitVec 32

def FabricState.init : FabricState := { fabricInit with q := .zero, atomicOps := 0 }

/-- What a call on a channel returns and leaves behind. -/
structure FabricResult where
  ret : Int
  ch : FabricChannel
  fabric : FabricState
  heap : Heap

def fabricChannelClose (_ch : FabricChannel) : Int × FabricChannel := (0, .zero)

/-- The copy of a message to the base of the memory bound to its destination, where it fits. -/
def storeAtBase {ε : Type} (f : Fabric) (h : Heap) (node : Nat) (data : Ptr) (len : Size) :
    Outcome HeapFault ε Heap :=
  let dst := f.node node
  if dst.mem.isNull then .ok h
  else
    let dstPtr := f.translate node dst.info.addressBase
    if dstPtr.isNull then .ok h
    else if len.toNat ≤ dst.mem.off + dst.memLen.toNat - dstPtr.off then
      h.memcpy dstPtr data len.toNat
    else .ok h

/-- `fabric_send`. -/
def fabricSend {ε : Type} (f : FabricState) (h : Heap) (ch : FabricChannel) (data : Ptr)
    (len : Size) : Outcome HeapFault ε FabricResult :=
  if ¬ f.initialized then .ok ⟨-enodev, ch, f, h⟩
  else if data.isNull then .ok ⟨-einval, ch, f, h⟩
  else if len = 0 then .ok ⟨-einval, ch, f, h⟩
  else if ch.mtu < len then .ok ⟨-emsgsize, ch, f, h⟩
  else if 0 < f.q.used ∧ fabricQueueSize < f.q.used + len then .ok ⟨-enospc, ch, f, h⟩
  else do
    let bs ← h.read data len.toNat
    let h ← storeAtBase f.toFabric h ch.dstNode data len
    return {
      ret := (len.setWidth 32).toInt
      ch := { ch with bytesTx := ch.bytesTx + len }
      fabric := { f with
        q := f.q.push bs len
        totalLatencyNs := f.totalLatencyNs + (f.node ch.dstNode).info.latencyNs.setWidth 64 }
      heap := h }

/-- What `fabric_recv` returns and leaves behind; `len` is what it stores through its last
argument. -/
structure RecvResult extends FabricResult where
  len : Size

/-- `fabric_recv`. -/
def fabricRecv {ε : Type} (f : FabricState) (h : Heap) (ch : FabricChannel) (buf : Ptr)
    (want : Size) : Outcome HeapFault ε RecvResult :=
  if ¬ f.initialized then .ok ⟨⟨-enodev, ch, f, h⟩, want⟩
  else if buf.isNull then .ok ⟨⟨-einval, ch, f, h⟩, want⟩
  else do
    let n := if want < f.q.used then want else f.q.used
    let h ← h.write buf (FabricQueue.scan f.q.data f.q.head n.toNat)
    return {
      ret := (n.setWidth 32).toInt
      ch := { ch with bytesRx := ch.bytesRx + n }
      fabric := { f with
        q := f.q.pop n
        totalLatencyNs := f.totalLatencyNs + (f.node ch.srcNode).info.latencyNs.setWidth 64 }
      heap := h
      len := n }

/-! ### The atomics -/

/-- What an atomic operation returns, and what it stores through `prev`. -/
structure AtomicReply where
  ret : Int
  prev : Option (BitVec 64)
  deriving DecidableEq, Repr

/-- The operation of an atomic call on its word; `prev` says whether the caller passes a place for
the old value. -/
inductive AtomicCall where
  | add (val : BitVec 64)
  | cas (expected desired : BitVec 64) (prev : Bool)
  | exch (val : BitVec 64) (prev : Bool)
  deriving DecidableEq, Repr

/-- The `__atomic` builtins of a call, one after the other. -/
def AtomicCall.prog : AtomicCall → Txn (BitVec 64) AtomicReply
  | add val => .step (fun old => old + val) fun _ => .done ⟨0, none⟩
  | cas expected desired prev =>
      .step (fun _ => desired) fun old =>
        if old ≠ expected then
          .step (fun _ => old) fun _ => .done ⟨1, if prev then some old else none⟩
        else .done ⟨0, if prev then some old else none⟩
  | exch val prev =>
      if prev then .step (fun _ => val) fun old => .done ⟨0, some old⟩
      else .step (fun _ => val) fun _ => .done ⟨0, none⟩

/-- One builtin on the word at `ref`: the value it finds, and the memory with the new one. -/
def transact {ε : Type} (h : Heap) (ref : Ptr) (upd : BitVec 64 → BitVec 64) :
    Outcome HeapFault ε (BitVec 64 × Heap) := do
  let bs ← h.read ref 8
  let old := BitVec.ofNat 64 (ofLE bs)
  let h ← h.write ref (toLE 8 (upd old).toNat)
  return (old, h)

def transactAll {ε α : Type} (ref : Ptr) :
    Txn (BitVec 64) α → Heap → Outcome HeapFault ε (α × Heap)
  | .done a, h => .ok (a, h)
  | .step upd next, h => (transact h ref upd).bind fun r => transactAll ref (next r.1) r.2

/-- `fabric_atomic_ref`, null where it refuses. `base` is the address of each block of host
memory. -/
def fabricAtomicRef (base : Nat → Nat) (f : Fabric) (node : Nat) (addr : Size) : Ptr :=
  if ¬ f.nodeValid node then Ptr.null
  else
    let p := f.translate node addr
    if p.isNull then Ptr.null
    else if (base p.block + p.off) % 8 ≠ 0 then Ptr.null
    else p

/-- The checks every atomic makes before it touches memory, and the word they admit. -/
def atomicWord (base : Nat → Nat) (f : Fabric) (ch : FabricChannel) (addr : Size) :
    Except Int Ptr :=
  if ¬ f.initialized then .error (-enodev)
  else if ch.flags &&& fabricChAtomic = 0 then .error (-eperm)
  else if ¬ f.regionValid ch.dstNode addr 8 then .error (-efault)
  else
    let ref := fabricAtomicRef base f ch.dstNode addr
    if ref.isNull then .error (-enodev) else .ok ref

structure AtomicResult where
  reply : AtomicReply
  fabric : FabricState
  heap : Heap

/-- An atomic call. An operation that returns 0 is counted. -/
def fabricAtomic {ε : Type} (base : Nat → Nat) (f : FabricState) (h : Heap) (ch : FabricChannel)
    (addr : Size) (call : AtomicCall) : Outcome HeapFault ε AtomicResult :=
  match atomicWord base f.toFabric ch addr with
  | .error e => .ok ⟨⟨e, none⟩, f, h⟩
  | .ok ref => do
      let (reply, h) ← transactAll ref call.prog h
      let atomicOps := if reply.ret = 0 then f.atomicOps + 1 else f.atomicOps
      return ⟨reply, { f with atomicOps }, h⟩

def fabricAtomicAdd {ε : Type} (base : Nat → Nat) (f : FabricState) (h : Heap) (ch : FabricChannel)
    (addr : Size) (val : BitVec 64) : Outcome HeapFault ε AtomicResult :=
  fabricAtomic base f h ch addr (.add val)

def fabricAtomicCas {ε : Type} (base : Nat → Nat) (f : FabricState) (h : Heap) (ch : FabricChannel)
    (addr : Size) (expected desired : BitVec 64) (prev : Bool) :
    Outcome HeapFault ε AtomicResult :=
  fabricAtomic base f h ch addr (.cas expected desired prev)

def fabricAtomicExch {ε : Type} (base : Nat → Nat) (f : FabricState) (h : Heap) (ch : FabricChannel)
    (addr : Size) (val : BitVec 64) (prev : Bool) : Outcome HeapFault ε AtomicResult :=
  fabricAtomic base f h ch addr (.exch val prev)

end BradVector
