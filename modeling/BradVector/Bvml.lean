import BradVector.Bvlibs

/-!
# BVML, linear algebra on the interpreter

The operations of `bvml.c` and the kernel texts it compiles when a context is opened. `bvml_gemm`
launches its kernel once for every element of the result.
-/

namespace BradVector

open CSem

/-! ### Kernels -/

def bvmlSaxpyLines : List String := [
  "; bvml_saxpy — out[i] = a*x[i] + y[i]",
  "; args: S16=xbase S17=ybase S18=outbase S19=a(float bits)",
  ";       S20=count S21=step(4) S22=one(1)",
  ".kernel saxpy",
  "    MOV S23, S16",
  "    MOV S24, S17",
  "    MOV S25, S18",
  "    MOV S26, S20",
  "loop:",
  "    LOAD S1, S23, 0",
  "    LOAD S2, S24, 0",
  "    MUL S3, S19, S1",
  "    ADD S3, S3, S2",
  "    STORE S25, S3, 0",
  "    IADD S23, S23, S21",
  "    IADD S24, S24, S21",
  "    IADD S25, S25, S21",
  "    ISUB S26, S26, S22",
  "    CMP P0, S26, S0",
  "    BR_COND@P0 done",
  "    BR loop",
  "done:",
  "    EXIT",
  ".end"]

def bvmlDotLines : List String := [
  "; bvml_dot — out[0] = sum(x[i]*y[i])",
  "; args: S16=xbase S17=ybase S18=outbase S19=count",
  ";       S20=step(4) S21=one(1)",
  ".kernel dot",
  "    MOV S23, S16",
  "    MOV S24, S17",
  "    MOV S25, S19",
  "    ADDi S26, S0, 0",
  "dloop:",
  "    LOAD S1, S23, 0",
  "    LOAD S2, S24, 0",
  "    MAD S26, S1, S2",
  "    IADD S23, S23, S20",
  "    IADD S24, S24, S20",
  "    ISUB S25, S25, S21",
  "    CMP P0, S25, S0",
  "    BR_COND@P0 ddone",
  "    BR dloop",
  "ddone:",
  "    STORE S18, S26, 0",
  "    EXIT",
  ".end"]

def bvmlGemmLines : List String := [
  "; bvml_gemm — C[r][c] = alpha * sum_over_k(A[r][k]*B[k][c]) + beta*C[r][c]",
  "; Per-element launch (row-major A[M,K], B[K,N], C[M,N]).",
  "; args: S16=Arow S17=Bcol S18=outptr S19=count(K) S20=stepA(4)",
  ";       S21=stepB(N*4) S22=one(1) S23=alpha(bits) S24=beta(bits)",
  ".kernel gemm",
  "    MOV S1, S0",
  "    MOV S2, S16",
  "    MOV S3, S17",
  "    MOV S4, S19",
  "gloop:",
  "    CMP P0, S4, S0",
  "    BR_COND@P0 gdone",
  "    LOAD S5, S2, 0",
  "    LOAD S6, S3, 0",
  "    MAD S1, S5, S6",
  "    IADD S2, S2, S20",
  "    IADD S3, S3, S21",
  "    ISUB S4, S4, S22",
  "    BR gloop",
  "gdone:",
  "    MUL S1, S1, S23",
  "    LOAD S7, S18, 0",
  "    MUL S10, S24, S7",
  "    ADD S1, S1, S10",
  "    STORE S18, S1, 0",
  "    EXIT",
  ".end"]

/-- `KERNEL_SRC`: the three files with a newline behind each. The last file does not end in one. -/
def bvmlKernelSrc : List Byte :=
  linesText bvmlSaxpyLines ++ [ch '\n'] ++ linesText bvmlDotLines ++ [ch '\n'] ++
    linesText bvmlGemmLines

def bvmlOpen : Bool → Size → (Nat → Byte) → Option BvlibContext := bvlibOpen bvmlKernelSrc

/-! ### Vectors -/

/-- Where `bvml_saxpy` and `bvml_dot` put the second operand and the result; the first is at 0. -/
def vectorYoff (n : Size) : Size := align16 (n * sizeofFloat)

def vectorOoff (n : Size) : Size := align16 (vectorYoff n + n * sizeofFloat)

/-- Both operands go to the device, one launch, and `outLen` bytes come back. -/
def vectorBody (F : HostMath) (kernel : List Byte) (args : List Word) (x y out : HostArray)
    (n outLen : Size) (ctx : BvlibContext) : BvlibOutcome (HostArray × BvlibContext) := do
  let ctx ← copyIn x 0 (n * sizeofFloat) ctx
  let ctx ← copyIn y (vectorYoff n) (n * sizeofFloat) ctx
  let ctx ← launch1 F ctx kernel args
  let out ← copyOut out (vectorOoff n) outLen ctx
  return (out, ctx)

def bvmlSaxpy (F : HostMath) (ctx : BvlibContext) (a : Word) (x y out : HostArray) (n : Size) :
    Except BvlibFault CallResult :=
  if n = 0 then .ok ⟨0, out, ctx⟩
  else if ctx.mem < vectorOoff n + n * sizeofFloat then .ok ⟨-2, out, ctx⟩
  else
    let args := [0, (vectorYoff n).setWidth 32, (vectorOoff n).setWidth 32, a, n.setWidth 32, 4, 1]
    callResult out (vectorBody F (cstr "saxpy") args x y out n (n * sizeofFloat) ctx)

def bvmlDot (F : HostMath) (ctx : BvlibContext) (x y out : HostArray) (n : Size) :
    Except BvlibFault CallResult :=
  if n = 0 then .ok ⟨0, Function.update out 0 0, ctx⟩
  else if ctx.mem < vectorOoff n + sizeofFloat then .ok ⟨-2, out, ctx⟩
  else
    let args := [0, (vectorYoff n).setWidth 32, (vectorOoff n).setWidth 32, n.setWidth 32, 4, 1]
    callResult out (vectorBody F (cstr "dot") args x y out n sizeofFloat ctx)

/-! ### Matrices -/

/-- Where `bvml_gemm` puts `B` and `C`; `A` is at 0. -/
def gemmBoff (M K : Size) : Size := align16 (M * K * sizeofFloat)

def gemmCoff (M N K : Size) : Size := align16 (gemmBoff M K + K * N * sizeofFloat)

/-- The arguments of the launch for row `r` and column `c`. -/
def gemmArgs (alpha beta : Word) (M N K : Size) (r c : Nat) : List Word :=
  let rs := BitVec.ofNat 64 r
  let cs := BitVec.ofNat 64 c
  [(0 + rs * K * sizeofFloat).setWidth 32,
    (gemmBoff M K + cs * sizeofFloat).setWidth 32,
    (gemmCoff M N K + (rs * N + cs) * sizeofFloat).setWidth 32,
    K.setWidth 32, 4, (N * sizeofFloat).setWidth 32, 1, alpha, beta]

/-- One operand, if it has any elements. -/
def gemmCopyIn (x : HostArray) (off count : Size) (ctx : BvlibContext) :
    BvlibOutcome BvlibContext :=
  if count ≠ 0 then copyIn x off (count * sizeofFloat) ctx else .ok ctx

/-- `bvml_gemm` behind its tests: the operands go to the device, and every element has its
launch. -/
def gemmBody (F : HostMath) (alpha : Word) (A B : HostArray) (beta : Word) (C : HostArray)
    (M N K : Size) (ctx : BvlibContext) : BvlibOutcome (HostArray × BvlibContext) := do
  let ctx ← gemmCopyIn A 0 (M * K) ctx
  let ctx ← gemmCopyIn B (gemmBoff M K) (K * N) ctx
  let ctx ← gemmCopyIn C (gemmCoff M N K) (M * N) ctx
  let ctx ← Outcome.forRange M.toNat (fun r => Outcome.forRange N.toNat fun c ctx =>
    launch1 F ctx (cstr "gemm") (gemmArgs alpha beta M N K r c)) ctx
  let C ← copyOut C (gemmCoff M N K) (M * N * sizeofFloat) ctx
  return (C, ctx)

def bvmlGemm (F : HostMath) (ctx : BvlibContext) (alpha : Word) (A B : HostArray) (beta : Word)
    (C : HostArray) (M N K : Size) : Except BvlibFault CallResult :=
  if M = 0 ∨ N = 0 then .ok ⟨0, C, ctx⟩
  else if ctx.mem < gemmCoff M N K + M * N * sizeofFloat then .ok ⟨-2, C, ctx⟩
  else callResult C (gemmBody F alpha A B beta C M N K ctx)

end BradVector
