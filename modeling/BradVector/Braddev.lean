import BradVector.Bradc
import BradVector.Bvrt

/-!
# The developer tool

`braddev cvt` assembles a source file into a container, `braddev run` loads a container and runs one
of its kernels. Files are their bytes, and what a buffer holds before it is written is arbitrary.
-/

namespace BradVector

open CSem

def maxSourceSize : Nat := 4 * 1024 * 1024

/-- `cmd_cvt` for a source that is a file: the bytes of the container it writes. `words` is what
`insn_buf` holds, and `fill` what the buffer for the container does. -/
def cmdCvt [Libc] (words : List (BitVec 64)) (fill : Nat → Byte) (source : List Byte) :
    Outcome Nat Unit (List Byte) :=
  if source.length = 0 ∨ maxSourceSize < source.length then .stop ()
  else
    match bradcAssemble source { BvbcImage.zero with insns := .array words } with
    | .error _ => .stop ()
    | .ok img => bvbcPack img ((List.range (bvbcSerializeSize img)).map fill)

/-- `load_image`. -/
def loadImage (file : List Byte) : Outcome Nat Unit BvbcImage :=
  if file.length = 0 ∨ bvrtMaxMem < file.length then .stop ()
  else do
    let img ← bvbcUnpack file
    if img.ninsn = 0 then .stop () else .ok img

/-- A program is loaded into a device, one of its kernels is launched, the first one if none is
named, and run. Without a result the kernel is unknown. -/
def runImage (F : HostMath) (d : Device) (kernel : Option (List Byte)) (args : List Word)
    (maxInsns : Nat) (img : BvbcImage) : Option StepResult :=
  let name := kernel.getD (img.kernels.getD 0 ⟨[], 0, 0⟩).name
  (bvrtLaunch (bvrtLoad d img) name args).map fun d => bvrtRun F d maxInsns

/-- `cmd_run` behind its arguments, as far as the end of the run. -/
def cmdRun (F : HostMath) (init : Nat → Byte) (kernel : Option (List Byte)) (args : List Word)
    (file : List Byte) : Outcome Nat Unit (Option StepResult) := do
  let img ← loadImage file
  return runImage F (bvrtCreate bvrtMaxMem init) kernel args (2 ^ 30) img

end BradVector
