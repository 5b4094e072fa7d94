import BradVector.Isa
import Mathlib.Logic.Function.Basic

/-!
# The cache emulator

`brad_cache_emu.c`: a set-associative cache over its line table, and the hierarchy of private L1
caches, L2 and L3. The table is kept byte by byte, as it is allocated, since a write copies into a
line as many bytes as it is given. What looks at the table says at which sets and ways.
-/

namespace BradVector

open CSem

def bradCacheLineBits : Nat := 6
def bradCacheLineSize : Nat := 2 ^ bradCacheLineBits

inductive BradCacheLevel where
  | l1i
  | l1d
  | l2
  | l3
  deriving DecidableEq, Repr

/-- `struct brad_cache`. `lines` is the memory from the line table on, which has room for
`allocated` lines; the pointer is null if that is 0. -/
structure BradCache where
  level : BradCacheLevel
  sets : Nat
  ways : Nat
  lineSize : Nat
  latencyHit : Word
  latencyMiss : Word
  lines : Nat → Byte
  allocated : Nat
  hits : BitVec 64
  misses : BitVec 64

/-- A cache that has not been initialised. -/
def BradCache.zero : BradCache := ⟨.l1i, 0, 0, 0, 0, 0, fun _ => 0, 0, 0, 0⟩

def bradCacheInit (cache : BradCache) (level : BradCacheLevel)
    (sizeKb ways latencyHit latencyMiss : Word) :
    Int × BradCache :=
  if ways = 0 ∨ sizeKb = 0 then (-einval, cache)
  else
    let totalBytes := sizeKb.toNat * 1024
    let numLines := totalBytes / bradCacheLineSize % 2 ^ 32
    let sets := numLines / ways.toNat
    if sets = 0 then (-einval, cache)
    else
      (0,
        { level
          sets
          ways := ways.toNat
          lineSize := bradCacheLineSize
          latencyHit
          latencyMiss
          lines := fun _ => 0
          allocated := numLines
          hits := 0
          misses := 0 })

/-! ### Lines -/

namespace BradCache

/-- `sizeof(struct brad_cache_line)`: three bytes, one of padding, the tag and the data. -/
def lineBytes : Nat := 8 + bradCacheLineSize

variable (c : BradCache) (line : Nat)

def valid : Byte := c.lines (lineBytes * line)
def dirty : Byte := c.lines (lineBytes * line + 1)
def lru : Byte := c.lines (lineBytes * line + 2)
def tag : Word := wordAt c.lines (lineBytes * line + 4)

/-- Where the data of a line are. -/
def dataAt : Nat := lineBytes * line + 8

def setByte (at' : Nat) (v : Byte) : BradCache := { c with lines := Function.update c.lines at' v }

/-- A line cleared and given to `tag`. -/
def fill (tag : Word) (forWrite : Bool) : BradCache :=
  { c with
    lines :=
      writeBytes c.lines (lineBytes * line)
        ([1, if forWrite then 1 else 0, 0, 0] ++ toLE 4 tag.toNat ++
          List.replicate bradCacheLineSize 0) }

end BradCache

/-! ### Lookup -/

/-- The loop that counts how often the number of sets can be halved, with fuel for 32 bits. -/
def countHalvings : Nat → Nat → Nat
  | 0, _ => 0
  | fuel + 1, temp => if temp / 2 = 0 then 0 else countHalvings fuel (temp / 2) + 1

def BradCache.setBits (c : BradCache) : Nat := countHalvings 32 c.sets

def BradCache.setOf (c : BradCache) (addr : Word) : Nat :=
  ((addr >>> bradCacheLineBits) &&& (((1 : Word) <<< c.setBits) - 1)).toNat

def BradCache.tagOf (c : BradCache) (addr : Word) : Word := addr >>> (bradCacheLineBits + c.setBits)

/-- The loop of `find_line` over the ways of a set, with the way it would replace so far: the way
that is hit, if any, the way to be replaced, and the ways looked at. -/
def searchWays (c : BradCache) (set : Nat) (tag : Word) :
    List Nat → Nat → Byte → Option Nat × Nat × List Nat
  | [], lruWay, _ => (none, lruWay, [])
  | i :: is, lruWay, lruVal =>
      let line := set * c.ways + i
      if c.valid line ≠ 0 ∧ c.tag line = tag then (some i, lruWay, [i])
      else
        let rest :=
          if lruVal < c.lru line then searchWays c set tag is i (c.lru line)
          else searchWays c set tag is lruWay lruVal
        (rest.1, rest.2.1, i :: rest.2.2)

/-- What `find_line` leaves: the cache, the line, or none, and the sets and ways it has looked
at. -/
structure Found where
  cache : BradCache
  line : Option Nat
  touched : List (Nat × Nat)

def findLine (c : BradCache) (addr : Word) (forWrite : Bool) : Found :=
  let set := c.setOf addr
  let tag := c.tagOf addr
  if c.sets ≤ set then ⟨c, none, []⟩
  else
    let search := searchWays c set tag (List.range c.ways) 0 (c.lru (set * c.ways))
    let touched := (set, 0) :: search.2.2.map fun i => (set, i)
    match search.1 with
    | some i =>
        let line := set * c.ways + i
        let c := c.setByte (BradCache.lineBytes * line + 2) 0
        ⟨{ c with hits := c.hits + 1 }, some line, touched⟩
    | none =>
        let line := set * c.ways + search.2.1
        let c := c.fill line tag forWrite
        ⟨{ c with misses := c.misses + 1 }, some line, touched⟩

/-! ### Operations -/

/-- `(int)size`. -/
def sizeToInt (size : Nat) : Int := (BitVec.ofNat 32 size).toInt

/-- `brad_cache_read`, with the bytes it copies out. -/
def bradCacheRead (c : BradCache) (addr : Word) (size : Nat) : Int × BradCache × List Byte :=
  let f := findLine c addr false
  match f.line with
  | none => (-efault, f.cache, [])
  | some line => (sizeToInt size, f.cache, readBytes f.cache.lines (BradCache.dataAt line) size)

/-- `brad_cache_write` of the bytes of a buffer. -/
def bradCacheWrite (c : BradCache) (addr : Word) (buf : List Byte) : Int × BradCache :=
  let f := findLine c addr true
  match f.line with
  | none => (-efault, f.cache)
  | some line =>
      let c := f.cache.setByte (BradCache.lineBytes * line + 1) 1
      (sizeToInt buf.length, { c with lines := writeBytes c.lines (BradCache.dataAt line) buf })

def bradCacheFlush (c : BradCache) : Int × BradCache :=
  if c.allocated = 0 then (-einval, c)
  else
    (0,
      (List.range (c.sets * c.ways)).foldl
        (fun c i =>
          ((c.setByte (BradCache.lineBytes * i) 0).setByte (BradCache.lineBytes * i + 1) 0).setByte
            (BradCache.lineBytes * i + 2) 0)
        c)

/-- `brad_cache_flush_addr`, with the sets and ways it has looked at. It replaces nothing. -/
def bradCacheFlushAddr (c : BradCache) (addr : Word) : Int × BradCache × List (Nat × Nat) :=
  let set := c.setOf addr
  let tag := c.tagOf addr
  if c.sets ≤ set then (-einval, c, [])
  else
    let search := searchWays c set tag (List.range c.ways) 0 0
    let touched := search.2.2.map fun i => (set, i)
    match search.1 with
    | some i =>
        let line := set * c.ways + i
        (0, (c.setByte (BradCache.lineBytes * line) 0).setByte (BradCache.lineBytes * line + 1) 0,
          touched)
    | none => (0, c, touched)

/-! ### The hierarchy -/

def bradMaxClusters : Nat := 4
def bradCoresPerCluster : Nat := 8

structure BradCacheHierarchy where
  l1i : Nat → Nat → BradCache
  l1d : Nat → Nat → BradCache
  l2 : Nat → BradCache
  l3 : BradCache

def bradHierarchyInit (h : BradCacheHierarchy) (numClusters coresPerCluster : Nat) :
    Int × BradCacheHierarchy :=
  if bradMaxClusters < numClusters then (-einval, h)
  else if bradCoresPerCluster < coresPerCluster then (-einval, h)
  else
    (0,
      { l1i := fun c i =>
          if c < numClusters ∧ i < coresPerCluster then (bradCacheInit .zero .l1i 32 4 1 8).2
            else .zero
        l1d := fun c i =>
          if c < numClusters ∧ i < coresPerCluster then (bradCacheInit .zero .l1d 32 8 2 10).2
            else .zero
        l2 := fun c => if c < numClusters then (bradCacheInit .zero .l2 512 8 8 25).2 else .zero
        l3 := (bradCacheInit .zero .l3 8192 16 25 80).2 })

/-- The L1 cache of a core. -/
def BradCacheHierarchy.l1 (h : BradCacheHierarchy) (isData : Bool) (cluster core : Nat) :
    BradCache :=
  if isData then h.l1d cluster core else h.l1i cluster core

def BradCacheHierarchy.setL1 (h : BradCacheHierarchy) (isData : Bool) (cluster core : Nat)
    (cache : BradCache) : BradCacheHierarchy :=
  if isData then
    { h with l1d := Function.update h.l1d cluster (Function.update (h.l1d cluster) core cache) }
  else { h with l1i := Function.update h.l1i cluster (Function.update (h.l1i cluster) core cache) }

/-- `brad_hierarchy_read`, with the bytes it copies out. -/
def bradHierarchyRead (h : BradCacheHierarchy) (cluster core : Nat) (isData : Bool) (addr : Word)
    (size : Nat) : Int × BradCacheHierarchy × List Byte :=
  let r1 := bradCacheRead (h.l1 isData cluster core) addr size
  let h := h.setL1 isData cluster core r1.2.1
  if 0 ≤ r1.1 then (r1.1, h, r1.2.2)
  else
    let r2 := bradCacheRead (h.l2 cluster) addr size
    let h := { h with l2 := Function.update h.l2 cluster r2.2.1 }
    if 0 ≤ r2.1 then (sizeToInt size, h, r2.2.2)
    else
      let r3 := bradCacheRead h.l3 addr size
      let h := { h with l3 := r3.2.1 }
      if 0 ≤ r3.1 then (sizeToInt size, h, r3.2.2)
      else (sizeToInt size, h, List.replicate size 0)

def bradHierarchyWrite (h : BradCacheHierarchy) (cluster core : Nat) (addr : Word)
    (buf : List Byte) :
    Int × BradCacheHierarchy :=
  let w := bradCacheWrite (h.l1d cluster core) addr buf
  (sizeToInt buf.length, h.setL1 true cluster core w.2)

end BradVector
