import BradVector.Fabric

/-!
# The power memory pool

The reference model of the unified memory in `spmp.h` and `spmp.c`: pools with a first-fit allocator
over a table of blocks, and the table of mappings. Functions return the C code's status, zero on
success and a negated error number otherwise, with the state they leave.
-/

namespace BradVector

open CSem

def spmpBlockAlign : Size := 16
def spmpMinBlock : Size := 64
def spmpMaxBlocks : Nat := 512
def spmpMaxMaps : Nat := 256
def spmpMaxPools : Nat := 8
def spmpAddrBase : Size := 0x100000000

inductive SpmpPoolType where
  | graphics
  | compute
  | ai
  | os
  | general
  deriving DecidableEq, Repr

structure SpmpPoolConfig where
  type : SpmpPoolType
  size : Size
  numaNode : BitVec 32
  hugePages : BitVec 32
  encrypt : BitVec 32
  deriving DecidableEq, Repr

structure SpmpAllocation where
  addr : Size
  size : Size
  poolId : Nat
  encrypted : BitVec 32
  deriving DecidableEq, Repr

def SpmpAllocation.zero : SpmpAllocation := ⟨0, 0, 0, 0⟩

structure SpmpBlock where
  addr : Size
  size : Size
  poolId : Nat
  inUse : Bool
  encrypted : Bool
  deriving DecidableEq, Repr

/-- A dead slot of a table: in use, with no bytes. -/
def SpmpBlock.tombstone : SpmpBlock := ⟨0, 0, 0, true, false⟩

/-- A pool. The table holds the blocks below `num_blocks`; the slots behind them are zero. -/
structure SpmpPool where
  cfg : SpmpPoolConfig
  used : Size
  active : Bool
  blocks : List SpmpBlock
  deriving DecidableEq, Repr

structure SpmpMapEntry where
  addr : Size
  size : Size
  node : Nat
  active : Bool
  deriving DecidableEq, Repr

/-- `spmp_state`, with the pools below `num_pools` and the mappings below `num_maps`. -/
structure Spmp where
  pools : List SpmpPool
  initialized : Bool
  maps : List SpmpMapEntry
  allocs : BitVec 64
  frees : BitVec 64
  mapsDone : BitVec 64
  unmapsDone : BitVec 64
  prefetchHits : BitVec 64
  prefetchMisses : BitVec 64
  deriving DecidableEq, Repr

def spmpInit : Spmp := ⟨[], true, [], 0, 0, 0, 0, 0, 0⟩

/-- `pool_get`. -/
def Spmp.poolGet (s : Spmp) (poolId : Nat) : Option SpmpPool :=
  (s.pools[poolId]?).filter (·.active)

def Spmp.setPool (s : Spmp) (poolId : Nat) (p : SpmpPool) : Spmp :=
  { s with pools := s.pools.set poolId p }

/-! ### Pools -/

/-- The first address of a pool. -/
def spmpPoolBase (id : Nat) : Size := spmpAddrBase + BitVec.ofNat 64 id * 0x100000000

/-- A pool with one free block that covers the whole space. -/
def SpmpPool.fresh (id : Nat) (cfg : SpmpPoolConfig) : SpmpPool where
  cfg := cfg
  used := 0
  active := true
  blocks := [⟨spmpPoolBase id, cfg.size, id, false, cfg.encrypt ≠ 0⟩]

/-- `spmp_pool_create`, with the id it stores. -/
def spmpPoolCreate (s : Spmp) (cfg : SpmpPoolConfig) : Int × Spmp × Option Nat :=
  if ¬ s.initialized then (-enodev, s, none)
  else if spmpMaxPools ≤ s.pools.length then (-enospc, s, none)
  else if cfg.size = 0 then (-einval, s, none)
  else
    let id := s.pools.length
    (0, { s with pools := s.pools ++ [.fresh id cfg] }, some id)

def spmpPoolDestroy (s : Spmp) (poolId : Nat) : Int × Spmp :=
  if ¬ s.initialized then (-enodev, s)
  else
    match s.poolGet poolId with
    | none => (-einval, s)
    | some p => (0, s.setPool poolId { p with active := false, blocks := [], used := 0 })

/-! ### Allocation -/

namespace SpmpBlock

/-- The start of the block rounded up to the alignment. -/
def aligned (b : SpmpBlock) (alignment : Size) : Size :=
  let align := if spmpBlockAlign < alignment then alignment else spmpBlockAlign
  let rem := b.addr % align
  if rem ≠ 0 then b.addr + (align - rem) else b.addr

def endAddr (b : SpmpBlock) : Size := b.addr + b.size

/-- The tests `block_next_free` makes on one block. -/
def fits (b : SpmpBlock) (needed alignment : Size) : Bool :=
  if b.inUse then false
  else if b.endAddr < b.aligned alignment then false
  else if b.endAddr - b.aligned alignment < needed then false
  else true

end SpmpBlock

/-- The size a request is rounded to. -/
def spmpNeeded (size : Size) : Size :=
  let needed := (size + spmpBlockAlign - 1) &&& ~~~(spmpBlockAlign - 1)
  if needed < spmpMinBlock then spmpMinBlock else needed

/-- `block_next_free`: the index of the first block that fits. -/
def blockNextFree (blocks : List SpmpBlock) (needed alignment : Size) : Option Nat :=
  blocks.findIdx? fun b => b.fits needed alignment

/-- The table with a free block behind its last entry, where there is a slot for it. -/
def addHole (blocks : List SpmpBlock) (poolId : Nat) (addr size : Size) :
    Option (List SpmpBlock) :=
  if spmpMaxBlocks ≤ blocks.length then none
  else some (blocks ++ [⟨addr, size, poolId, false, false⟩])

/-- The part of `spmp_alloc` that works on the pool: the status, the pool, and the address and size
of the allocation. -/
def SpmpPool.alloc (p : SpmpPool) (poolId : Nat) (size alignment : Size) :
    Int × SpmpPool × Option (Size × Size) :=
  if size = 0 then (-einval, p, none)
  else
    let needed := spmpNeeded size
    if spmpMaxBlocks ≤ p.blocks.length then (-enospc, p, none)
    else
      match blockNextFree p.blocks needed alignment with
      | none => (-enomem, p, none)
      | some i =>
          let b := p.blocks.getD i .tombstone
          let alignedAddr := b.aligned alignment
          -- leading hole between block start and aligned address
          let lead :=
            if b.addr < alignedAddr then addHole p.blocks poolId b.addr (alignedAddr - b.addr)
            else some p.blocks
          match lead with
          | none => (-enospc, p, none)
          | some blocks =>
              -- trailing hole after the allocation
              let allocEnd := alignedAddr + needed
              let trail :=
                if allocEnd < b.endAddr then addHole blocks poolId allocEnd (b.endAddr - allocEnd)
                else some blocks
              match trail with
              | none => (-enospc, { p with blocks }, none)
              | some blocks =>
                  (0, { p with
                    blocks :=
                      blocks.set i { b with addr := alignedAddr, size := needed, inUse := true }
                    used := p.used + needed }, some (alignedAddr, needed))

/-- `spmp_alloc`, with the allocation it fills in. -/
def spmpAlloc (s : Spmp) (poolId : Nat) (size alignment : Size) :
    Int × Spmp × Option SpmpAllocation :=
  if ¬ s.initialized then (-enodev, s, none)
  else
    match s.poolGet poolId with
    | none => (-einval, s, none)
    | some p =>
        match p.alloc poolId size alignment with
        | (_, p', some (addr, needed)) =>
            (0, { s.setPool poolId p' with allocs := s.allocs + 1 },
              some ⟨addr, needed, poolId, p.cfg.encrypt⟩)
        | (ret, p', none) => (ret, s.setPool poolId p', none)

/-! ### Freeing -/

/-- One round of the inner loop of `pool_coalesce`. -/
def mergeAt (i : Nat) (blocks : List SpmpBlock) (j : Nat) : List SpmpBlock :=
  let a := blocks.getD i .tombstone
  let bb := blocks.getD j .tombstone
  if j = i then blocks
  else if bb.inUse then blocks
  else if a.endAddr = bb.addr then
    (blocks.set i { a with size := a.size + bb.size }).set j .tombstone
  else if bb.endAddr = a.addr then
    (blocks.set j { bb with size := bb.size + a.size }).set i .tombstone
  else blocks

/-- One round of the outer loop. -/
def coalesceRow (n : Nat) (blocks : List SpmpBlock) (i : Nat) : List SpmpBlock :=
  if (blocks.getD i .tombstone).inUse then blocks
  else (List.range n).foldl (mergeAt i) blocks

def poolCoalesce (blocks : List SpmpBlock) : List SpmpBlock :=
  (List.range blocks.length).foldl (coalesceRow blocks.length) blocks

/-- The part of `spmp_free` that works on the pool. -/
def SpmpPool.free (p : SpmpPool) (addr size : Size) : Int × SpmpPool :=
  match p.blocks.findIdx? fun b => b.inUse && b.addr = addr && b.size = size with
  | none => (-enoent, p)
  | some i =>
      let b := p.blocks.getD i .tombstone
      (0, { p with
        blocks := poolCoalesce (p.blocks.set i { b with inUse := false, encrypted := false })
        used := p.used - b.size })

/-- `spmp_free`, with what it leaves of the caller's allocation. -/
def spmpFree (s : Spmp) (alloc : SpmpAllocation) : Int × Spmp × SpmpAllocation :=
  if ¬ s.initialized then (-enodev, s, alloc)
  else if alloc.addr = 0 then (-einval, s, alloc)
  else
    match s.poolGet alloc.poolId with
    | none => (-einval, s, alloc)
    | some p =>
        match p.free alloc.addr alloc.size with
        | (0, p') => (0, { s.setPool alloc.poolId p' with frees := s.frees + 1 }, .zero)
        | (ret, _) => (ret, s, alloc)

/-! ### Mappings -/

/-- The test `map_find` makes on one mapping. -/
def SpmpMapEntry.meets (m : SpmpMapEntry) (addr size : Size) : Bool :=
  m.active && addr < m.addr + m.size && m.addr < addr + size

/-- `map_find`: the index of the first mapping that meets the range. -/
def mapFind (maps : List SpmpMapEntry) (addr size : Size) : Option Nat :=
  maps.findIdx? fun m => m.meets addr size

/-- `spmp_map`, with the node it stores. -/
def spmpMap (s : Spmp) (addr size : Size) : Int × Spmp × Option Nat :=
  if ¬ s.initialized then (-enodev, s, none)
  else if addr = 0 ∨ size = 0 then (-einval, s, none)
  else if (mapFind s.maps addr size).isSome then (-eexist, s, none)
  else if spmpMaxMaps ≤ s.maps.length then (-enospc, s, none)
  else
    let node := s.maps.length
    (0, { s with maps := s.maps ++ [⟨addr, size, node, true⟩], mapsDone := s.mapsDone + 1 },
      some node)

def spmpUnmap (s : Spmp) (addr size : Size) : Int × Spmp :=
  if ¬ s.initialized then (-enodev, s)
  else if addr = 0 ∨ size = 0 then (-einval, s)
  else
    match mapFind s.maps addr size with
    | none => (-enoent, s)
    | some i =>
        (0, { s with
          maps := s.maps.modify i fun m => { m with active := false }
          unmapsDone := s.unmapsDone + 1 })

def spmpPrefetch (s : Spmp) (addr size : Size) : Int × Spmp :=
  if ¬ s.initialized then (-enodev, s)
  else if addr = 0 ∨ size = 0 then (-einval, s)
  else if (mapFind s.maps addr size).isSome then
    (0, { s with prefetchHits := s.prefetchHits + 1 })
  else (0, { s with prefetchMisses := s.prefetchMisses + 1 })

/-! ### Encryption -/

/-- The test `block_containing` makes on one block. -/
def SpmpBlock.contains (b : SpmpBlock) (addr : Size) : Bool :=
  b.inUse && b.addr ≤ addr && addr < b.addr + b.size

/-- `block_containing`: the pool and the slot of the first block in use that contains the
address. -/
def blockContaining (addr : Size) : List SpmpPool → Option (Nat × Nat)
  | [] => none
  | p :: pools =>
      match p.blocks.findIdx? fun b => b.contains addr with
      | some j => some (0, j)
      | none => (blockContaining addr pools).map fun found => (found.1 + 1, found.2)

/-- `spmp_encrypt` and `spmp_decrypt`, which store one value and the other. -/
def spmpSetEncrypted (value : Bool) (s : Spmp) (addr size : Size) : Int × Spmp :=
  if ¬ s.initialized then (-enodev, s)
  else if addr = 0 ∨ size = 0 then (-einval, s)
  else
    match blockContaining addr s.pools with
    | none => (-enoent, s)
    | some (i, j) =>
        (0, { s with
          pools := s.pools.modify i fun p =>
            { p with blocks := p.blocks.modify j fun b => { b with encrypted := value } } })

def spmpEncrypt : Spmp → Size → Size → Int × Spmp := spmpSetEncrypted true

def spmpDecrypt : Spmp → Size → Size → Int × Spmp := spmpSetEncrypted false

/-! ### Statistics -/

/-- What `spmp_query_stats` reports of a pool. -/
structure SpmpPoolStats where
  used : Size
  total : Size
  fragPct : BitVec 32

def spmpFragPct (blocks : List SpmpBlock) : BitVec 32 :=
  let free := blocks.filter fun b => !b.inUse
  let freeTotal := free.foldl (fun n b => n + b.size) 0
  let largest := free.foldl (fun n b => if n < b.size then b.size else n) 0
  if freeTotal = 0 then 0 else (100 * (freeTotal - largest) / freeTotal).setWidth 32

def spmpQueryStats (s : Spmp) (poolId : Nat) : Except Int SpmpPoolStats :=
  if ¬ s.initialized then .error (-enodev)
  else
    match s.poolGet poolId with
    | none => .error (-einval)
    | some p => .ok ⟨p.used, p.cfg.size, spmpFragPct p.blocks⟩

end BradVector
