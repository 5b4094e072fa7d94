import BradVector.Bvlibs

/-!
# BVN, neural-network primitives on the interpreter

The operations of `bvn.c` and the kernel texts it compiles when a context is opened. All of them map
one vector to one vector, and they differ in the kernel and its arguments only.
-/

namespace BradVector

open CSem

/-! ### Kernels -/

def bvnReluLines : List String := [
  "; bvn_relu — out[i] = max(0, x[i])",
  "; args: S16=xbase S17=outbase S18=count S19=step(4) S20=one(1)",
  ".kernel relu",
  "    MOV S21, S16",
  "    MOV S22, S17",
  "    MOV S23, S18",
  "    ADDi S24, S0, 0",
  "rloop:",
  "    LOAD S1, S21, 0",
  "    MAX S2, S1, S24",
  "    STORE S22, S2, 0",
  "    IADD S21, S21, S19",
  "    IADD S22, S22, S19",
  "    ISUB S23, S23, S20",
  "    CMP P0, S23, S0",
  "    BR_COND@P0 rdone",
  "    BR rloop",
  "rdone:",
  "    EXIT",
  ".end"]

def bvnAffineLines : List String := [
  "; bvn_affine — out[i] = x[i]*scale + bias",
  "; args: S16=xbase S17=outbase S18=scale S19=bias S20=count S21=step(4) S22=one(1)",
  ".kernel affine",
  "    MOV S23, S16",
  "    MOV S24, S17",
  "    MOV S25, S20",
  "aloop:",
  "    LOAD S1, S23, 0",
  "    MUL S2, S1, S18",
  "    ADD S2, S2, S19",
  "    STORE S24, S2, 0",
  "    IADD S23, S23, S21",
  "    IADD S24, S24, S21",
  "    ISUB S25, S25, S22",
  "    CMP P0, S25, S0",
  "    BR_COND@P0 adone",
  "    BR aloop",
  "adone:",
  "    EXIT",
  ".end"]

def bvnSoftmaxLines : List String := [
  "; bvn_softmax — out[i] = exp(x[i]-max) / sum(exp(x[j]-max))",
  "; Stable softmax: subtract the max before exponentiating.",
  "; args: S16=xbase S17=outbase S18=count S19=step(4) S20=one(1) S21=log2e",
  ".kernel softmax",
  "    MOV S22, S16",
  "    MOV S23, S17",
  "    MOV S24, S18",
  "    LOAD S25, S22, 0",
  "    MOV S26, S16",
  "    MOV S27, S18",
  "smaxloop:",
  "    LOAD S1, S26, 0",
  "    MAX S25, S1, S25",
  "    IADD S26, S26, S19",
  "    ISUB S27, S27, S20",
  "    CMP P0, S27, S0",
  "    BR_COND@P0 smaxdone",
  "    BR smaxloop",
  "smaxdone:",
  "    ADDi S26, S0, 0",
  "    MOV S22, S16",
  "    MOV S27, S18",
  "ssumloop:",
  "    LOAD S1, S22, 0",
  "    SUB S2, S1, S25",
  "    MUL S2, S2, S21",
  "    EXP2 S3, S2",
  "    ADD S26, S26, S3",
  "    STORE S23, S3, 0",
  "    IADD S22, S22, S19",
  "    IADD S23, S23, S19",
  "    ISUB S27, S27, S20",
  "    CMP P0, S27, S0",
  "    BR_COND@P0 ssumdone",
  "    BR ssumloop",
  "ssumdone:",
  "    RCP S21, S26",
  "    MOV S23, S17",
  "    MOV S27, S18",
  "sdivloop:",
  "    LOAD S1, S23, 0",
  "    MUL S2, S1, S21",
  "    STORE S23, S2, 0",
  "    IADD S23, S23, S19",
  "    ISUB S27, S27, S20",
  "    CMP P0, S27, S0",
  "    BR_COND@P0 sdivdone",
  "    BR sdivloop",
  "sdivdone:",
  "    EXIT",
  ".end"]

def bvnSigmulLines : List String := [
  "; bvn_sigmul — out[i] = x[i] / (1 + exp2(x[i]*c))",
  "; Swish family: c = -1.702*log2(e) gives GELU (sigmoid approx);",
  "; c = -log2(e) gives SiLU.  exp(-z) is computed as exp2(-z*log2e).",
  "; args: S16=xbase S17=outbase S18=count S19=step(4) S20=one(1) S21=c",
  ".kernel sigmul",
  "    MOV S22, S16",
  "    MOV S23, S17",
  "    MOV S24, S18",
  "gloop:",
  "    LOAD S1, S22, 0",
  "    MUL S2, S1, S21",
  "    EXP2 S2, S2",
  "    ADDi S3, S2, 1",
  "    RCP S3, S3",
  "    MUL S3, S3, S1",
  "    STORE S23, S3, 0",
  "    IADD S22, S22, S19",
  "    IADD S23, S23, S19",
  "    ISUB S24, S24, S20",
  "    CMP P0, S24, S0",
  "    BR_COND@P0 gdone",
  "    BR gloop",
  "gdone:",
  "    EXIT",
  ".end"]

/-- `KERNEL_SRC`: the four files, which end in a newline, with a newline behind each. -/
def bvnKernelSrc : List Byte :=
  linesText bvnReluLines ++ [ch '\n'] ++ linesText bvnAffineLines ++ [ch '\n'] ++
    linesText bvnSoftmaxLines ++ [ch '\n'] ++ linesText bvnSigmulLines ++ [ch '\n']

def bvnOpen : Bool → Size → (Nat → Byte) → Option BvlibContext := bvlibOpen bvnKernelSrc

/-! ### Operations -/

/-- Where the operations put their result; the operand is at 0. -/
def unaryOoff (n : Size) : Size := align16 (n * sizeofFloat)

/-- What all operations of the library do, with their kernel and the arguments they launch it
with. -/
def bvnUnary (F : HostMath) (kernel : List Byte) (args : List Word) (ctx : BvlibContext)
    (x out : HostArray) (n : Size) : Except BvlibFault CallResult :=
  if n = 0 then .ok ⟨0, out, ctx⟩
  else if ctx.mem < unaryOoff n + n * sizeofFloat then .ok ⟨-2, out, ctx⟩
  else callResult out (do
    let ctx ← copyIn x 0 (n * sizeofFloat) ctx
    let ctx ← launch1 F ctx kernel args
    let out ← copyOut out (unaryOoff n) (n * sizeofFloat) ctx
    return (out, ctx))

def bvnRelu (F : HostMath) (ctx : BvlibContext) (x out : HostArray) (n : Size) :
    Except BvlibFault CallResult :=
  bvnUnary F (cstr "relu") [0, (unaryOoff n).setWidth 32, n.setWidth 32, 4, 1] ctx x out n

def bvnAffine (F : HostMath) (ctx : BvlibContext) (scale bias : Word) (x out : HostArray)
    (n : Size) : Except BvlibFault CallResult :=
  bvnUnary F (cstr "affine") [0, (unaryOoff n).setWidth 32, scale, bias, n.setWidth 32, 4, 1]
    ctx x out n

/-- `BVN_LOG2E` and its negation. -/
def bvnLog2e : Word := 0x3FB8AA3B

def bvnNegLog2e : Word := 0xBFB8AA3B

/-- `-1.702f * BVN_LOG2E`, rounded to nearest. -/
def bvnGeluFactor : Word := 0xC01D265F

def sigmul (F : HostMath) (ctx : BvlibContext) (c : Word) (x out : HostArray) (n : Size) :
    Except BvlibFault CallResult :=
  bvnUnary F (cstr "sigmul") [0, (unaryOoff n).setWidth 32, n.setWidth 32, 4, 1, c] ctx x out n

def bvnGelu (F : HostMath) (ctx : BvlibContext) (x out : HostArray) (n : Size) :
    Except BvlibFault CallResult :=
  sigmul F ctx bvnGeluFactor x out n

def bvnSilu (F : HostMath) (ctx : BvlibContext) (x out : HostArray) (n : Size) :
    Except BvlibFault CallResult :=
  sigmul F ctx bvnNegLog2e x out n

def bvnSoftmax (F : HostMath) (ctx : BvlibContext) (x out : HostArray) (n : Size) :
    Except BvlibFault CallResult :=
  bvnUnary F (cstr "softmax") [0, (unaryOoff n).setWidth 32, n.setWidth 32, 4, 1, bvnLog2e]
    ctx x out n

end BradVector
