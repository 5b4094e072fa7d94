import BradVector.Isa
import BradVector.Library.Outcome

/-!
# The `.bvbc` container

The in-memory image of `bvbc.h` and the functions of `bvbc.c` over it: adding kernels and
instructions, writing an image into a buffer and reading one back. Offsets are those the C code
computes, each write and each read goes through a bounds check, and a check that fails is undefined
behaviour naming the offending offset.
-/

namespace BradVector

open CSem

def bvbcMagic : Nat := 0x3130303043425642
def bvbcVersion : Nat := 1
def bvbcHeaderSize : Nat := 32
def bvbcMaxKernels : Nat := 256
def bvbcMaxInsn : Nat := 65536
def bvbcMaxName : Nat := 64
def stringPoolSize : Nat := 4096

/-! ### The image -/

/-- The bytes of an array up to its first NUL. -/
def cstrOf (a : List Byte) : List Byte := a.takeWhile (· ≠ 0)

def strlen (a : List Byte) : Nat := (cstrOf a).length

/-- `struct bvbc_kernel`; `name` is the whole 64-byte array. -/
structure BvbcKernel where
  name : List Byte
  entry : Word
  nargs : Word
  deriving DecidableEq, Repr

/-- A `const char *`: the object it points into and the offset there. -/
structure BytePtr where
  obj : List Byte
  off : Nat
  deriving DecidableEq, Repr

/-- The `n` bytes at a pointer, when they all lie in the object. -/
def BytePtr.read (p : BytePtr) (n : Nat) : Outcome Nat Unit (List Byte) :=
  if p.off + n ≤ p.obj.length then .ok ((p.obj.drop p.off).take n) else .undefined (p.off + n)

/-- What `insns` points at: the caller's array of words, or a place in a packed buffer, read as
little-endian words. -/
inductive InsnStream where
  | array (words : List (BitVec 64))
  | view (buf : List Byte) (off : Nat)
  deriving DecidableEq, Repr

def InsnStream.get : InsnStream → Nat → BitVec 64
  | array words, i => words.getD i 0
  | view buf off, i => BitVec.ofNat 64 (ofLE ((buf.drop (off + i * insnSize)).take insnSize))

def InsnStream.set : InsnStream → Nat → BitVec 64 → InsnStream
  | array words, i, w => array (words.take i ++ w :: words.drop (i + 1))
  | view buf off, i, w => view (writeAt buf (off + i * insnSize) (toLE insnSize w.toNat)) off

/-- `struct bvbc_image`. `kernels` holds the `nkernels` slots in use and `stringPool` the `pool_len`
bytes in use. -/
structure BvbcImage where
  version : Word
  kernels : List BvbcKernel
  constBlob : BytePtr
  nconst : Nat
  insns : InsnStream
  ninsn : Nat
  stringPool : List Byte
  deriving DecidableEq, Repr

/-- A zeroed image over an empty instruction array. -/
def BvbcImage.zero : BvbcImage where
  version := 0
  kernels := []
  constBlob := ⟨[], 0⟩
  nconst := 0
  insns := .array []
  ninsn := 0
  stringPool := []

def BvbcImage.insn (img : BvbcImage) (i : Nat) : BitVec 64 := img.insns.get i

/-! ### In-memory assembly -/

/-- The name array after `strncpy(k->name, name, 63); k->name[63] = 0`. -/
def kernelName (name : List Byte) : List Byte :=
  cstrOf name ++ List.replicate (bvbcMaxName - strlen name) 0

def bvbcAddKernel (img : BvbcImage) (name : List Byte) (entry nargs : Word) : Option BvbcImage :=
  if bvbcMaxKernels ≤ img.kernels.length then none
  else if strlen name = 0 ∨ bvbcMaxName ≤ strlen name then none
  else if stringPoolSize < img.stringPool.length + strlen name + 1 then none
  else some { img with
    stringPool := img.stringPool ++ (cstrOf name ++ [0])
    kernels := img.kernels ++ [{ name := kernelName name, entry, nargs }] }

def bvbcAddInsn32 (img : BvbcImage) (lo32 hi32 : Word) : Option BvbcImage :=
  if bvbcMaxInsn ≤ img.ninsn then none
  else some { img with
    insns := img.insns.set img.ninsn (lo32.setWidth 64 ||| (hi32.setWidth 64 <<< 32))
    ninsn := img.ninsn + 1 }

def bvbcEmit (img : BvbcImage) (insn : BitVec 64) : Option BvbcImage :=
  bvbcAddInsn32 img (insn.setWidth 32) ((insn >>> 32).setWidth 32)

/-- The index of the kernel called `name`, by `strcmp` over the name arrays. -/
def bvbcFindKernel (img : BvbcImage) (name : List Byte) : Option Nat :=
  img.kernels.findIdx? fun k => cstrOf k.name = cstrOf name

/-! ### Writing a container -/

def kernelTableSize (img : BvbcImage) : Nat := 16 * img.kernels.length

/-- The bytes the first `ki` kernel names take, each with its NUL. -/
def kernelNameOff (img : BvbcImage) (ki : Nat) : Nat :=
  ((img.kernels.take ki).map fun k => strlen k.name + 1).sum

/-- `size_t` arithmetic. -/
def bvbcSerializeSize (img : BvbcImage) : Nat :=
  (bvbcHeaderSize + kernelTableSize img + img.stringPool.length + img.nconst +
    img.ninsn * insnSize) % 2 ^ 64

/-- A `memcpy` into the packed buffer. -/
def bufWrite (off : Nat) (bs buf : List Byte) : Outcome Nat Unit (List Byte) :=
  if off + bs.length ≤ buf.length then .ok (writeAt buf off bs) else .undefined (off + bs.length)

/-- `wr32`: the low 32 bits of `v`. -/
def wr32 (off v : Nat) : List Byte → Outcome Nat Unit (List Byte) := bufWrite off (toLE 4 v)

def wr64 (off v : Nat) : List Byte → Outcome Nat Unit (List Byte) := bufWrite off (toLE 8 v)

def packHeader (img : BvbcImage) (buf : List Byte) : Outcome Nat Unit (List Byte) := do
  let buf ← wr64 0 bvbcMagic buf
  let buf ← wr32 8 bvbcVersion buf
  let buf ← wr32 12 0 buf
  let buf ← wr32 16 img.kernels.length buf
  let buf ← wr32 20 (img.stringPool.length + img.nconst) buf
  let buf ← wr32 24 img.ninsn buf
  wr32 28 0 buf

/-- One entry of the kernel table, at the running offset `p`. -/
def packKernel (img : BvbcImage) (i : Fin img.kernels.length) (buf : List Byte) :
    Outcome Nat Unit (List Byte) := do
  let p := bvbcHeaderSize + 16 * i
  let buf ← wr32 p (kernelNameOff img i) buf
  let buf ← wr32 (p + 4) (img.kernels[i].entry.toNat * insnSize) buf
  let buf ← wr32 (p + 8) img.kernels[i].nargs.toNat buf
  wr32 (p + 12) 0 buf

/-- `bvbc_pack`; a buffer that is too small is the only refusal. -/
def bvbcPack (img : BvbcImage) (buf : List Byte) : Outcome Nat Unit (List Byte) :=
  if buf.length < bvbcSerializeSize img then .stop ()
  else do
    let c0 := bvbcHeaderSize + kernelTableSize img
    let buf ← packHeader img buf
    let buf ← Outcome.forRange img.kernels.length (packKernel img) buf
    let buf ← bufWrite c0 img.stringPool buf
    let consts ← img.constBlob.read img.nconst
    let buf ← bufWrite (c0 + img.stringPool.length) consts buf
    Outcome.forRange img.ninsn (fun i buf =>
      wr64 (c0 + img.stringPool.length + img.nconst + i * insnSize) (img.insn i).toNat buf) buf

/-! ### Reading a container -/

/-- `n` bytes of the packed buffer. -/
def rdBytes (buf : List Byte) (off n : Nat) : Outcome Nat Unit (List Byte) :=
  if off + n ≤ buf.length then .ok ((buf.drop off).take n) else .undefined (off + n)

def rd32 (buf : List Byte) (off : Nat) : Outcome Nat Unit Nat := do
  let bs ← rdBytes buf off 4
  return ofLE bs

/-- `while (nl < limit && nsrc[nl] && nl < BVBC_MAX_NAME - 1) nl++`, with `fuel` iterations left. -/
def scanName (buf : List Byte) (nsrc limit : Nat) : Nat → Nat → Outcome Nat Unit Nat
  | 0, nl => .ok nl
  | fuel + 1, nl =>
      if nl < limit then do
        let b ← rdBytes buf (nsrc + nl) 1
        if b ≠ [0] ∧ nl < bvbcMaxName - 1 then scanName buf nsrc limit fuel (nl + 1) else .ok nl
      else .ok nl

/-- One entry of the kernel table of a buffer whose constant region starts at `c0`. -/
def unpackKernel (buf : List Byte) (c0 nconst i : Nat) : Outcome Nat Unit BvbcKernel := do
  let e := bvbcHeaderSize + i * 16
  let noff ← rd32 buf e
  let eoff ← rd32 buf (e + 4)
  let narg ← rd32 buf (e + 8)
  if nconst ≤ noff then .stop ()
  else if eoff % insnSize ≠ 0 then .stop ()
  else do
    let nl ← scanName buf (c0 + noff) (nconst - noff) bvbcMaxName 0
    let name ← rdBytes buf (c0 + noff) nl
    return { name := name ++ List.replicate (bvbcMaxName - nl) 0
             entry := BitVec.ofNat 32 (eoff / insnSize)
             nargs := BitVec.ofNat 32 narg }

def namesLen (kernels : List BvbcKernel) : Nat := (kernels.map fun k => strlen k.name + 1).sum

/-- `bvbc_unpack`; `stop` is the return value -1. -/
def bvbcUnpack (buf : List Byte) : Outcome Nat Unit BvbcImage :=
  if buf.length < bvbcHeaderSize then .stop ()
  else do
    let magic ← rdBytes buf 0 8
    if magic ≠ toLE 8 bvbcMagic then .stop ()
    else do
      let _ver ← rd32 buf 8
      let nkern ← rd32 buf 16
      let nconst ← rd32 buf 20
      let ninsn ← rd32 buf 24
      if bvbcMaxKernels < nkern ∨ bvbcMaxInsn < ninsn then .stop ()
      else
        let c0 := bvbcHeaderSize + 16 * nkern
        if buf.length < c0 + nconst + ninsn * insnSize then .stop ()
        else do
          let kernels ← Outcome.forRange nkern (fun i ks => do
            let k ← unpackKernel buf c0 nconst i
            return ks ++ [k]) []
          if nconst < namesLen kernels then .stop ()
          else return {
            version := 1
            kernels
            constBlob := ⟨buf, c0 + namesLen kernels⟩
            nconst
            insns := .view buf (c0 + nconst)
            ninsn
            stringPool := [] }

end BradVector
