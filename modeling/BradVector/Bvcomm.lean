import BradVector.Fabric

/-!
# BVComm, collectives over the fabric

The world of `bvcomm.c`: one buffer for every rank, bound into a fabric node's address window, with
the rank's inbox behind the user part. The collectives move bytes with `fabric_dma` and, like the C
code, do not look at what it returns. Floats are their bit patterns and their addition is a
parameter.
-/

namespace BradVector

open CSem

def bvcommWindowStride : Size := 1 <<< 32
def bvcommMaxRanks : Nat := fabricMaxNodes

/-- `struct bvcomm_world`. The entries of the tables at `nranks` and behind it are zero. -/
structure BvcommWorld where
  nranks : Nat
  nranks_pos : 0 < nranks
  nranks_le : nranks ≤ bvcommMaxRanks
  bufBytes : Size
  scratchBytes : Size
  windowBytes : Size
  mem : Nat → Ptr
  base : Nat → Size
  ch : Nat → Nat → FabricChannel

/-- What the library works on: its world, the process's fabric and the host's memory. -/
structure Comm where
  world : BvcommWorld
  fabric : Fabric
  heap : Heap

/-- `stop` is a null pointer returned by `bvcomm_init`. -/
abbrev CommOutcome (α : Type) := Outcome HeapFault Unit α

/-! ### Setting up a world -/

/-- The node `bvcomm_init` describes for rank `r`. -/
def rankInfo (window : Size) (r : Nat) : FabricNodeInfo where
  id := 0
  type := .gpu
  addressBase := BitVec.ofNat 64 r * bvcommWindowStride
  addressLimit := BitVec.ofNat 64 r * bvcommWindowStride + window - 1
  bandwidthGbs := 512
  latencyNs := 20

/-- The buffer and the node of rank `r`; `granted` says whether its allocation succeeds. -/
def initRank (granted : Bool) (r : Nat) (c : Comm) : CommOutcome Comm :=
  let w := { c.world with
    base := Function.update c.world.base r (BitVec.ofNat 64 r * bvcommWindowStride) }
  if ¬ granted then .stop ()
  else
    let (mem, heap) := c.heap.calloc w.windowBytes.toNat
    let w := { w with mem := Function.update w.mem r mem }
    let (ret, fabric) := fabricRegisterNode c.fabric (rankInfo w.windowBytes r)
    if ret ≠ 0 then .stop ()
    else
      let (ret, fabric) := fabricBindMemory fabric r mem w.windowBytes
      if ret ≠ 0 then .stop () else .ok ⟨w, fabric, heap⟩

def openChannel (s d : Nat) (c : Comm) : CommOutcome Comm :=
  let (ret, ch) := fabricChannelOpen c.fabric s d (fabricChDma ||| fabricChRead ||| fabricChWrite)
    (c.world.ch s d)
  if ret ≠ 0 then .stop ()
  else .ok { c with world := { c.world with
    ch := Function.update c.world.ch s (Function.update (c.world.ch s) d ch) } }

/-- The zeroed world with its sizes filled in. -/
def newWorld (nranks : Nat) (hpos : 0 < nranks) (hle : nranks ≤ bvcommMaxRanks)
    (bufBytes scratchBytes : Size) : BvcommWorld where
  nranks := nranks
  nranks_pos := hpos
  nranks_le := hle
  bufBytes := bufBytes
  scratchBytes := scratchBytes
  windowBytes := bufBytes + scratchBytes
  mem := fun _ => Ptr.null
  base := fun _ => 0
  ch := fun _ _ => FabricChannel.zero

/-- `bvcomm_init`; `granted k` says whether the `k`-th allocation of the call succeeds. -/
def bvcommInit (granted : Nat → Bool) (h : Heap) (nranks : Int) (bufBytes scratchBytes : Size) :
    CommOutcome Comm :=
  if hargs : nranks < 1 ∨ (bvcommMaxRanks : Int) < nranks ∨ bufBytes = 0 then .stop ()
  else if bvcommWindowStride ≤ bufBytes + scratchBytes then .stop ()
  else if ¬ granted 0 then .stop ()
  else do
    let w := newWorld nranks.toNat (by omega) (by omega) bufBytes scratchBytes
    let c ← Outcome.forRange w.nranks (fun r => initRank (granted (r + 1)) r) ⟨w, fabricInit, h⟩
    Outcome.forRange w.nranks (fun s => Outcome.forRange w.nranks fun d => openChannel s d) c

/-! ### Moving data between ranks -/

/-- `fabric_dma` over the channel from rank `s` to rank `d`. -/
def Comm.dma (c : Comm) (s d : Nat) (srcAddr dstAddr len : Size) : CommOutcome Comm := do
  let t ← fabricDma c.fabric c.heap (c.world.ch s d) srcAddr dstAddr len
  return {
    world := { c.world with
      ch := Function.update c.world.ch s (Function.update (c.world.ch s) d t.ch) }
    fabric := t.fabric
    heap := t.heap }

/-- `chunk_offsets`: offset `i` of `count` elements split over `n` ranks. -/
def chunkOffsets (count : Size) (n : Nat) : Nat → Size
  | 0 => 0
  | i + 1 =>
      let base := count / BitVec.ofNat 64 n
      let rem := count % BitVec.ofNat 64 n
      chunkOffsets count n i + base + if BitVec.ofNat 64 i < rem then 1 else 0

def maxChunkBytes (count : Size) (n : Nat) : Size :=
  let base := count / BitVec.ofNat 64 n
  let rem := count % BitVec.ofNat 64 n
  let elems := base + if rem ≠ 0 then 1 else 0
  elems * sizeofFloat

section AllReduce

variable (add : Word → Word → Word) (off : Size) (cs : Nat → Size) (n : Nat)

/-- The size of chunk `i` in bytes. -/
def chunkLen (i : Nat) : Size := (cs (i + 1) - cs i) * sizeofFloat

/-- Rank `r` puts chunk `send` into the inbox of the next rank. -/
def sendChunk (r send : Nat) (c : Comm) : CommOutcome Comm :=
  let nxt := (r + 1) % n
  if chunkLen cs send = 0 then .ok c
  else c.dma r nxt (c.world.base r + (off + cs send) * sizeofFloat)
    (c.world.base nxt + c.world.bufBytes) (chunkLen cs send)

/-- `dst[j] += inbox[j]`. -/
def addElem (dst inbox : Ptr) (j : Nat) (c : Comm) : CommOutcome Comm := do
  let a ← c.heap.load32 (dst + 4 * j)
  let b ← c.heap.load32 (inbox + 4 * j)
  let heap ← c.heap.store32 (dst + 4 * j) (add a b)
  return { c with heap }

/-- Rank `r` adds its inbox to its chunk `recv`. -/
def addChunk (r recv : Nat) (c : Comm) : CommOutcome Comm :=
  if chunkLen cs recv = 0 then .ok c
  else
    let dst := c.world.mem r + ((off + cs recv) * sizeofFloat).toNat
    let inbox := c.world.mem r + c.world.bufBytes.toNat
    let k := chunkLen cs recv / sizeofFloat
    Outcome.forRange k.toNat (fun j => addElem add dst inbox j) c

/-- Rank `r` replaces its chunk `recv` by its inbox. -/
def copyChunk (r recv : Nat) (c : Comm) : CommOutcome Comm :=
  if chunkLen cs recv = 0 then .ok c
  else do
    let heap ← c.heap.memcpy (c.world.mem r + ((off + cs recv) * sizeofFloat).toNat)
      (c.world.mem r + c.world.bufBytes.toNat) (chunkLen cs recv).toNat
    return { c with heap }

/-- Step `s` of the reduce-scatter. -/
def reduceScatterRound (s : Nat) (c : Comm) : CommOutcome Comm := do
  let c ← Outcome.forRange n (fun r => sendChunk off cs n r ((r + n - s) % n)) c
  Outcome.forRange n (fun r => addChunk add off cs r ((r + n - s - 1) % n)) c

/-- Step `s` of the all-gather. -/
def allGatherRound (s : Nat) (c : Comm) : CommOutcome Comm := do
  let c ← Outcome.forRange n (fun r => sendChunk off cs n r ((r + n - s + 1) % n)) c
  Outcome.forRange n (fun r => copyChunk off cs r ((r + n - s) % n)) c

end AllReduce

/-! ### The collectives -/

def bvcommAllreduceSumF32 (add : Word → Word → Word) (off count : Size) (c : Comm) :
    CommOutcome (Int × Comm) :=
  if count = 0 then .ok (0, c)
  else if c.world.bufBytes < (off + count) * sizeofFloat then .ok (-2, c)
  else
    let n := c.world.nranks
    if n = 1 then .ok (0, c)
    else if c.world.scratchBytes < maxChunkBytes count n then .ok (-2, c)
    else do
      let cs := chunkOffsets count n
      let c ← Outcome.forRange (n - 1) (fun s => reduceScatterRound add off cs n s) c
      let c ← Outcome.forRange (n - 1) (fun s => allGatherRound off cs n s) c
      return (0, c)

def bvcommBroadcastF32 (root : Int) (off count : Size) (c : Comm) : CommOutcome (Int × Comm) :=
  if root < 0 ∨ (c.world.nranks : Int) ≤ root then .ok (-1, c)
  else if count = 0 then .ok (0, c)
  else if c.world.bufBytes < (off + count) * sizeofFloat then .ok (-2, c)
  else do
    let len := count * sizeofFloat
    let c ← Outcome.forRange c.world.nranks (fun r c =>
      if r.val = root.toNat then .ok c
      else c.dma root.toNat r (c.world.base root.toNat + off * sizeofFloat)
        (c.world.base r + off * sizeofFloat) len) c
    return (0, c)

/-- The snapshot of rank `r`'s input in its inbox. -/
def snapshotInput (inOff count : Size) (r : Nat) (c : Comm) : CommOutcome Comm := do
  let heap ← c.heap.memcpy (c.world.mem r + c.world.bufBytes.toNat)
    (c.world.mem r + (inOff * sizeofFloat).toNat) (count * sizeofFloat).toNat
  return { c with heap }

/-- Rank `src`'s snapshot goes to its place in rank `dst`'s output. -/
def gatherPiece (outOff count : Size) (src dst : Nat) (c : Comm) : CommOutcome Comm :=
  c.dma src dst (c.world.base src + c.world.bufBytes)
    (c.world.base dst + (outOff + BitVec.ofNat 64 src * count) * sizeofFloat) (count * sizeofFloat)

def bvcommAllgatherF32 (inOff outOff count : Size) (c : Comm) : CommOutcome (Int × Comm) :=
  if count = 0 then .ok (0, c)
  else if c.world.bufBytes < (inOff + count) * sizeofFloat then .ok (-2, c)
  else
    let n := c.world.nranks
    let total := BitVec.ofNat 64 n * count
    if c.world.bufBytes < (outOff + total) * sizeofFloat then .ok (-2, c)
    else if c.world.scratchBytes < count * sizeofFloat then .ok (-2, c)
    else do
      let c ← Outcome.forRange n (fun r => snapshotInput inOff count r) c
      let c ← Outcome.forRange n (fun src => Outcome.forRange n fun dst =>
        gatherPiece outOff count src dst) c
      return (0, c)

/-! ### Worlds a program can have -/

/-- Host memory before anything is allocated. -/
def emptyHeap : Heap := ⟨fun _ _ => 0, fun _ => 0, 1, Nat.one_pos, rfl⟩

/-- The states of a world between two calls: fresh from `bvcomm_init`, after any writes of the
program into the ranks' memory, and after any collectives. -/
inductive Comm.Live (add : Word → Word → Word) : Comm → Prop where
  | init {granted : Nat → Bool} {h : Heap} {nranks : Int} {bufBytes scratchBytes : Size} {c : Comm}
      (hinit : bvcommInit granted h nranks bufBytes scratchBytes = .ok c) : c.Live add
  | write {c : Comm} (hlive : c.Live add) (h : Heap) (hh : c.heap.SameBlocks h) :
      Comm.Live add { c with heap := h }
  | allreduce {c c' : Comm} (hlive : c.Live add) (off count : Size) (ret : Int)
      (hcall : bvcommAllreduceSumF32 add off count c = .ok (ret, c')) : c'.Live add
  | broadcast {c c' : Comm} (hlive : c.Live add) (root : Int) (off count : Size) (ret : Int)
      (hcall : bvcommBroadcastF32 root off count c = .ok (ret, c')) : c'.Live add
  | allgather {c c' : Comm} (hlive : c.Live add) (inOff outOff count : Size) (ret : Int)
      (hcall : bvcommAllgatherF32 inOff outOff count c = .ok (ret, c')) : c'.Live add

end BradVector
