import BradVector.Bvrt
import BradVector.Bradc

/-!
# What the host libraries share

`bvml.c` and `bvn.c` are built alike: a context is a compiled program, a session of the platform API
and the memory size asked for, and an operation copies its operands into device memory, launches a
kernel and copies the result back. Host arrays of floats are functions from the element index to its
bit pattern. The part of the platform API in between (`bradlib.c`) only passes on to the assembler
and the interpreter.
-/

namespace BradVector

open CSem

abbrev HostArray := Nat → Word

/-! ### The platform API -/

/-- The bytes of a text, every line with its newline. -/
def linesText (lines : List String) : List Byte := lines.flatMap fun l => cstr l ++ [ch '\n']

/-- `bradlib_compile`, which assembles into a zeroed image over a zeroed instruction array. -/
def bradlibCompile (source : List Byte) : Option BvbcImage :=
  (bradcAssemble source
    { BvbcImage.zero with insns := .array (List.replicate bvbcMaxInsn 0) }).toOption

/-- The device of `bradlib_create`; `init` is what its memory happens to hold. -/
def bradlibCreate (img : BvbcImage) (memBytes : Nat) (init : Nat → Byte) : Device :=
  bvrtLoad (bvrtCreate memBytes init) img

/-! ### Contexts -/

/-- `struct bvml_context` and `struct bvn_context`. -/
structure BvlibContext where
  prog : BvbcImage
  dev : Device
  mem : Size

/-- `bvml_open` and `bvn_open`; `granted` says whether the system grants its allocations. -/
def bvlibOpen (kernelSrc : List Byte) (granted : Bool) (memBytes : Size) (init : Nat → Byte) :
    Option BvlibContext :=
  if memBytes = 0 ∨ ¬ granted then none
  else
    match bradlibCompile kernelSrc with
    | none => none
    | some prog => some ⟨prog, bradlibCreate prog memBytes.toNat init, memBytes⟩

def bvlibMaxInsns : Nat := 100000000

/-- What makes a call undefined: a copy between host and device that leaves the device's memory, or
an access of a kernel. -/
inductive BvlibFault where
  | memcpy (off len : Nat)
  | kernel (a : Access)
  deriving DecidableEq, Repr

/-- `stop` is a return of a nonzero code, with the context as it is then. -/
abbrev BvlibOutcome (α : Type) := Outcome BvlibFault (Int × BvlibContext) α

/-- `launch1`, which runs a kernel to its end. -/
def launch1 (F : HostMath) (ctx : BvlibContext) (kernel : List Byte) (args : List Word) :
    BvlibOutcome BvlibContext :=
  match bvrtLaunch ctx.dev kernel args with
  | none => .stop (-3, ctx)
  | some dev =>
      match bvrtRun F dev bvlibMaxInsns with
      | .ok (.halt, dev) => .ok { ctx with dev }
      | .ok (_, dev) => .stop (-4, { ctx with dev })
      | .error a => .undefined (.kernel a)

/-! ### Host and device memory -/

/-- The bytes of the first `n` floats of a host array. -/
def floatBytes (x : HostArray) (n : Nat) : List Byte :=
  (List.range n).flatMap fun i => toLE 4 (x i).toNat

/-- `memcpy(mem + off, x, len)`, where `len` is a number of whole floats. -/
def copyIn (x : HostArray) (off len : Size) (ctx : BvlibContext) : BvlibOutcome BvlibContext :=
  if off.toNat + len.toNat ≤ ctx.dev.mem.size then
    .ok { ctx with dev := { ctx.dev with mem := { ctx.dev.mem with
      bytes := writeBytes ctx.dev.mem.bytes off.toNat (floatBytes x (len.toNat / 4)) } } }
  else .undefined (.memcpy off.toNat len.toNat)

/-- `memcpy(x, mem + off, len)`. -/
def copyOut (x : HostArray) (off len : Size) (ctx : BvlibContext) : BvlibOutcome HostArray :=
  if off.toNat + len.toNat ≤ ctx.dev.mem.size then
    .ok fun i => if i < len.toNat / 4 then wordAt ctx.dev.mem.bytes (off.toNat + 4 * i) else x i
  else .undefined (.memcpy off.toNat len.toNat)

def align16 (n : Size) : Size := (n + 15) &&& ~~~15

/-- What a call returns and leaves: its status, the caller's array and the context. -/
structure CallResult where
  ret : Int
  out : HostArray
  ctx : BvlibContext

/-- A call that has passed its tests: on an early return the caller's array is as it was. -/
def callResult (out : HostArray) (body : BvlibOutcome (HostArray × BvlibContext)) :
    Except BvlibFault CallResult :=
  match body with
  | .ok (out, ctx) => .ok ⟨0, out, ctx⟩
  | .stop (ret, ctx) => .ok ⟨ret, out, ctx⟩
  | .undefined a => .error a

end BradVector
