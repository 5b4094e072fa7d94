import BradVector.Bvml
import BradVector.Bvn
import BradVector.Bradgdb
import BradVector.Library.Arena
import BradVector.WasmShim

/-!
# The bridge of the browser build

The arena of `wasm_shim.c` and the calls `wasm_bridge.c` exports, as far as they allocate: which
blocks of the arena the globals point to, directly or through what they point to. What the blocks
hold is left out.
-/

namespace BradVector.Wasm

open CSem

/-! ### Sizes for wasm32 -/

def sizeofImage : Nat :=
  4 + 4 + bvbcMaxKernels * (bvbcMaxName + 4 + 4) + 4 + 4 + 4 + 4 + stringPoolSize + 4

/-- `struct bradlib_program`: the image and the pointer to its instructions. -/
def sizeofProgram : Nat := sizeofImage + 4

def sizeofWarp : Nat :=
  4 + 4 + 4 * (warpSize * scalarRegs) + 4 * (warpSize * vecRegs * vecLanes) + 4 *
    (warpSize * predRegs) + 4 * (warpSize * bvrtMaxRet) + warpSize + 4

/-- `struct bvrt_device`, with the padding at its end. -/
def sizeofDevice : Nat := sizeofImage + sizeofWarp + 4 + 4 + 8 + 4 + 4 + 4 + 4

/-- `struct bradgdb`, with the padding at its end. -/
def sizeofGdb : Nat := 4 + bradgdbMaxBreak * 12 + 4 + 8 + 4 + 4

/-- `struct bradlib_session`, with the padding at its end. -/
def sizeofSession : Nat := 4 + 4 + sizeofGdb + 4 + 4 + 4 + 4

/-- `struct bvml_context` and `struct bvn_context`. -/
def sizeofContext : Nat := 4 + 4 + 4

/-! ### What the globals point to -/

structure ProgramAt where
  self : Block
  insns : Block
  deriving DecidableEq, Repr

structure DeviceAt where
  self : Block
  mem : Block
  deriving DecidableEq, Repr

/-- A session keeps the program it was created from, also when `g_prog` has another one. -/
structure SessionAt where
  self : Block
  prog : ProgramAt
  dev : DeviceAt
  deriving DecidableEq, Repr

structure ContextAt where
  self : Block
  prog : ProgramAt
  sess : SessionAt
  deriving DecidableEq, Repr

def ProgramAt.blocks (p : ProgramAt) : List Block := [p.self, p.insns]

def DeviceAt.blocks (d : DeviceAt) : List Block := [d.self, d.mem]

def SessionAt.blocks (s : SessionAt) : List Block := s.self :: (s.prog.blocks ++ s.dev.blocks)

def ContextAt.blocks (c : ContextAt) : List Block := c.self :: (c.prog.blocks ++ c.sess.blocks)

/-- A block the allocator handed out, and the blocks the globals led to at that time. -/
structure Handed where
  block : Block
  held : List Block
  deriving DecidableEq, Repr

/-- `g_hb` and the globals. `handed` is what the allocator has handed out so far; no code reads
it. -/
structure Bridge where
  hb : Nat
  prog : Option ProgramAt
  sess : Option SessionAt
  bvml : Option ContextAt
  bvn : Option ContextAt
  handed : List Handed
  deriving DecidableEq, Repr

def Bridge.start : Bridge := ⟨0, none, none, none, none, []⟩

/-- The blocks an exported call can come to. -/
def Bridge.reachable (b : Bridge) : List Block :=
  (b.prog.toList.flatMap ProgramAt.blocks) ++ (b.sess.toList.flatMap SessionAt.blocks) ++
    (b.bvml.toList.flatMap ContextAt.blocks) ++ (b.bvn.toList.flatMap ContextAt.blocks)

/-! ### The allocator -/

def arenaSize : Nat := 6 * 1024 * 1024

/-- A number as the `size_t` of this build, which has 32 bits. -/
def sizeT (n : Nat) : Nat := n % 2 ^ 32

/-- Code that may give up with a null pointer; what it has allocated until then stays allocated,
since `free` does nothing. -/
abbrev BridgeM := OptionT (StateM Bridge)

def Bridge.after {α : Type} (b : Bridge) (x : BridgeM α) : Bridge := (x.run b).2

/-- `malloc`: `(n + 15UL) & ~15UL` bytes from the break on. -/
def malloc (n : Nat) : BridgeM Block := do
  let b ← get
  let n := sizeT (n + 15) / 16 * 16
  if arenaSize < sizeT (b.hb + n) then throw ()
  else
    let r : Block := ⟨b.hb, n⟩
    set ({ b with
      hb := sizeT (b.hb + n)
      handed := b.handed ++ [⟨r, b.reachable⟩] } : Bridge)
    return r

def calloc (n s : Nat) : BridgeM Block := malloc (sizeT (n * s))

/-- `wasm_reset_arena`. -/
def wasmResetArena (b : Bridge) : Bridge := { b with hb := 0 }

/-! ### What is allocated together -/

/-- Whether `bradc_assemble`, with the library of this build, takes the source. -/
def accepts (source : List Byte) : Bool :=
  (@bradcAssemble browserLibc source
    { BvbcImage.zero with insns := .array (List.replicate bvbcMaxInsn 0) }).isOk

def bradlibCompile (source : List Byte) : BridgeM ProgramAt := do
  let self ← calloc 1 sizeofProgram
  let insns ← calloc bvbcMaxInsn insnSize
  if accepts source then return ⟨self, insns⟩ else throw ()

def bvrtCreate (memBytes : Nat) : BridgeM DeviceAt := do
  let memBytes := if memBytes = 0 then 1 else memBytes
  let memBytes := if bvrtMaxMem < memBytes then bvrtMaxMem else memBytes
  let self ← calloc 1 sizeofDevice
  let mem ← malloc memBytes
  return ⟨self, mem⟩

/-- `bradlib_create`; loading the image and attaching the debugger do not fail. -/
def bradlibCreate (prog : ProgramAt) (memBytes : Nat) : BridgeM SessionAt := do
  let self ← calloc 1 sizeofSession
  let dev ← bvrtCreate memBytes
  return ⟨self, prog, dev⟩

/-- `bvml_open` and `bvn_open`. -/
def bvlibOpen (kernelSrc : List Byte) (memBytes : Nat) : BridgeM ContextAt := do
  let self ← calloc 1 sizeofContext
  let prog ← bradlibCompile kernelSrc
  let sess ← bradlibCreate prog memBytes
  return ⟨self, prog, sess⟩

/-! ### The exported calls -/

inductive BvmlCall where
  | saxpy | dot | gemm
  deriving DecidableEq, Repr

inductive BvnCall where
  | relu | affine | softmax | gelu | silu
  deriving DecidableEq, Repr

/-- The calls that neither allocate nor assign a global. -/
inductive Query where
  | out | outLen | errorLine | errorMsg | errorMsgLen | kernelCount | kernelName | insnCount |
    disasm
  | launch | exec | step | continue | breakpoint | pc | cycles | readS | readV | readP | mem |
    memSize
  deriving DecidableEq, Repr

inductive Call where
  | assemble
  | run
  | gdb
  | compile (source : List Byte)
  | create (memBytes : Word)
  | bvml (f : BvmlCall)
  | bvn (f : BvnCall)
  | libCheck
  | query (q : Query)
  deriving DecidableEq, Repr

/-- `sizeof(g_src)`. -/
def srcSize : Nat := 64 * 1024

/-- The 1 MiB of device memory the demo and the libraries ask for. -/
def demoMem : Nat := 2 ^ 20

def bvmlCtx (b : Bridge) : Bridge :=
  match b.bvml with
  | some _ => b
  | none =>
      let (c, b) := (bvlibOpen bvmlKernelSrc demoMem).run b
      { b with bvml := c }

def bvnCtx (b : Bridge) : Bridge :=
  match b.bvn with
  | some _ => b
  | none =>
      let (c, b) := (bvlibOpen bvnKernelSrc demoMem).run b
      { b with bvn := c }

/-- The contexts are dropped with the arena, `g_prog` and `g_sess` are not. -/
def bradWasmAssemble (b : Bridge) : Bridge := { b with hb := 0, bvml := none, bvn := none }

/-- `run_bvrt` and `run_gdb` work on a device of their own, which they drop. -/
def bradWasmRun (b : Bridge) : Bridge := b.after (bvrtCreate demoMem)

def bradWasmCompile (source : List Byte) (b : Bridge) : Bridge :=
  if srcSize ≤ source.length then b
  else
    match (bradlibCompile source).run b with
    | (none, b) => b
    | (some np, b) => { b with prog := some np }

def bradWasmCreate (memBytes : Word) (b : Bridge) : Bridge :=
  match b.prog with
  | none => b
  | some prog =>
      match (bradlibCreate prog memBytes.toNat).run b with
      | (none, b) => b
      | (some ns, b) => { b with sess := some ns }

def Bridge.call (b : Bridge) : Call → Bridge
  | .assemble => bradWasmAssemble b
  | .run | .gdb => bradWasmRun b
  | .compile source => bradWasmCompile source b
  | .create memBytes => bradWasmCreate memBytes b
  | .bvml _ => bvmlCtx b
  | .bvn _ => bvnCtx b
  | .libCheck => bvnCtx (bvmlCtx b)
  | .query _ => b

end BradVector.Wasm
