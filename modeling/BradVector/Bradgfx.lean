import BradVector.Isa
import BradVector.Library.Counters
import BradVector.Library.Polling

/-!
# The graphics driver

The buffers and shaders of `bradgfx.c`. A shader lives in the slot of a freed buffer: `struct
gfx_shader` has fields of the same widths as `struct gfx_buffer`, and the driver writes through
both. The performance counters are read in halves, the status register is polled.
-/

namespace BradVector

open CSem

def gfxPageSize : Size := 65536
def gfxMaxBuffers : Nat := 256

/-- The start value of `next_addr`. -/
def gfxBufferMem : Size := 0x10000000
def gfxShaderMem : Size := 0x20000000

/-- `struct gfx_buffer`. -/
structure GfxBuffer where
  addr : Size
  size : Size
  flags : Word
  refcount : Word
  deriving DecidableEq, Repr

/-- `struct gfx_shader`. -/
structure GfxShader where
  handle : Size
  codeAddr : Size
  codeSize : Word
  numWarps : Word
  deriving DecidableEq, Repr

/-- The cast from one to the other. -/
def GfxBuffer.asShader (b : GfxBuffer) : GfxShader := ⟨b.addr, b.size, b.flags, b.refcount⟩
def GfxShader.asBuffer (sh : GfxShader) : GfxBuffer :=
  ⟨sh.handle, sh.codeAddr, sh.codeSize, sh.numWarps⟩

/-- `struct gfx_driver`, as far as the functions here read it, with their static variables. -/
structure GfxDriver where
  buffers : Nat → GfxBuffer
  numBuffers : Nat
  nextAddr : Size
  nextHandle : Size

/-- `gfx_driver_init`, in a process that has not called the other functions yet; `buffers` is what
the caller's memory happens to hold. -/
def gfxDriverInit (buffers : Nat → GfxBuffer) : GfxDriver where
  buffers
  numBuffers := 0
  nextAddr := gfxBufferMem
  nextHandle := 1

/-- `(size + PAGE_SIZE - 1) & ~(PAGE_SIZE - 1)`. -/
def gfxPages (size : Size) : Size := (size + gfxPageSize - 1) &&& ~~~(gfxPageSize - 1)

def GfxDriver.setBuffer (drv : GfxDriver) (i : Nat) (b : GfxBuffer) : GfxDriver :=
  { drv with buffers := Function.update drv.buffers i b }

/-- A pointer to a buffer or a shader is the index of its slot. -/
def gfxAllocBuffer (drv : GfxDriver) (size : Size) (flags : Word) : Option Nat × GfxDriver :=
  let allocSize := gfxPages size
  if gfxMaxBuffers ≤ drv.numBuffers then (none, drv)
  else
    let buf := ⟨drv.nextAddr, allocSize, flags, 1⟩
    (some drv.numBuffers,
      { drv.setBuffer drv.numBuffers buf with
        numBuffers := drv.numBuffers + 1
        nextAddr := drv.nextAddr + allocSize })

def gfxFreeBuffer (drv : GfxDriver) : Option Nat → Int × GfxDriver
  | none => (-1, drv)
  | some i => (0, drv.setBuffer i { drv.buffers i with refcount := 0 })

/-- The slot that the loop of `gfx_create_shader` finds. -/
def GfxDriver.freeSlot (drv : GfxDriver) : Option Nat :=
  (List.range drv.numBuffers).find? fun i => (drv.buffers i).refcount = 0

/-- The shader, `code` being a pointer that is only compared with null. -/
def gfxCreateShader (drv : GfxDriver) (code : Size) (size : Word) : Option Nat × GfxDriver :=
  if code = 0 ∨ size = 0 then (none, drv)
  else
    match drv.freeSlot with
    | none => (none, drv)
    | some i =>
        let drv := drv.setBuffer i
          ⟨gfxShaderMem + BitVec.ofNat 64 i * 0x100000, gfxPages (size.setWidth 64), 0, 1⟩
        let sh := { (drv.buffers i).asShader with
          handle := drv.nextHandle
          codeAddr := gfxShaderMem
          codeSize := size
          numWarps := 8 }
        (some i, { drv.setBuffer i sh.asBuffer with nextHandle := drv.nextHandle + 1 })

/-! ### Performance counters -/

def gfxPerfCntr0 : Size := 0x0044
def gfxPerfCntr1 : Size := 0x004C

def gfxPerfCntr (counter : Int) : Size := if counter = 0 then gfxPerfCntr0 else gfxPerfCntr1

/-- `gfx_read_perf_counter` from the read `t` on: its result, what it stores through `value` and the
next read. -/
def gfxReadPerfCounter (m : Registers) (mmioBase : Size) (counter : Int) (value : Size) (t : Nat) :
    Int × Option Size × Nat :=
  if value = 0 then (-1, none, t)
  else
    let off := gfxPerfCntr counter
    let lo := m t (mmioBase + off)
    let hi := m (t + 1) (mmioBase + off + 4)
    (0, some (joinWords hi lo), t + 2)

/-! ### Waits -/

def gfxOk : Int := 0
def gfxErrTimeout : Int := -2

def gfxStatusBusy : Word := 1 <<< 0
def gfxStatusReady : Word := 1 <<< 1

/-- The start value of `timeout` in `gfx_driver_init`. -/
def gfxReadyTimeout : Word := 1000000

/-- The wait of `gfx_driver_init`, with what the function then returns, and the number of polls.
Poll `k` reads the word `status k`. -/
def gfxWaitReady (status : Nat → Word) : Int × Nat :=
  let p := poll (fun k => status k &&& gfxStatusReady ≠ 0) gfxReadyTimeout
  (if p.timeout = 0 then gfxErrTimeout else gfxOk, p.polls)

/-- `gfx_wait_idle`, with the number of polls. Between two polls `timer_delay_us(1)` lets time
pass. -/
def gfxWaitIdle (status : Nat → Word) (timeoutUs : Size) : Int × Nat :=
  let p := poll (fun k => status k &&& gfxStatusBusy = 0) timeoutUs
  (if p.seen then gfxOk else gfxErrTimeout, p.polls)

end BradVector
