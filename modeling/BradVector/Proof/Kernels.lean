import BradVector.Bvml
import BradVector.Bvn
import BradVector.Proof.Counting

/-!
# The code of the kernels

What the assembler makes of the kernel texts of BVML and BVN, as lists of instructions.
-/

namespace BradVector

open CSem

/-! ### `bvml_saxpy` -/

def saxpyPrologue : List BvInsn := [mov 23 16, mov 24 17, mov 25 18, mov 26 20]

def saxpyLoop : List BvInsn := [plain .load 1 23 0, plain .load 2 24 0, plain .mul 3 19 1,
  plain .add 3 3 2, plain .store 3 25 0, plain .iadd 23 23 21, plain .iadd 24 24 21,
  plain .iadd 25 25 21, plain .isub 26 26 22]

/-! ### `bvml_dot` -/

def dotPrologue : List BvInsn := [mov 23 16, mov 24 17, mov 25 19, mov 26 0]

def dotLoop : List BvInsn := [plain .load 1 23 0, plain .load 2 24 0, plain .mad 26 1 2,
  plain .iadd 23 23 20, plain .iadd 24 24 20, plain .isub 25 25 21]

/-! ### `bvml_gemm` -/

def gemmPrologue : List BvInsn := [mov 1 0, mov 2 16, mov 3 17, mov 4 19]

def gemmLoop : List BvInsn := [plain .load 5 2 0, plain .load 6 3 0, plain .mad 1 5 6,
  plain .iadd 2 2 20, plain .iadd 3 3 21, plain .isub 4 4 22]

def gemmEpilogue : List BvInsn := [plain .mul 1 1 23, plain .load 7 18 0, plain .mul 10 24 7,
  plain .add 1 1 10, plain .store 1 18 0]

/-! ### `bvn_relu` -/

def reluPrologue : List BvInsn := [mov 21 16, mov 22 17, mov 23 18, mov 24 0]

def reluLoop : List BvInsn := [plain .load 1 21 0, plain .max 2 1 24, plain .store 2 22 0,
  plain .iadd 21 21 19, plain .iadd 22 22 19, plain .isub 23 23 20]

/-! ### `bvn_affine` -/

def affinePrologue : List BvInsn := [mov 23 16, mov 24 17, mov 25 20]

def affineLoop : List BvInsn := [plain .load 1 23 0, plain .mul 2 1 18, plain .add 2 2 19,
  plain .store 2 24 0, plain .iadd 23 23 21, plain .iadd 24 24 21, plain .isub 25 25 22]

/-! ### `bvn_softmax` -/

def softmaxPrologue : List BvInsn := [mov 22 16, mov 23 17, mov 24 18, plain .load 25 22 0,
  mov 26 16, mov 27 18]

def softmaxMaxLoop : List BvInsn := [plain .load 1 26 0, plain .max 25 1 25, plain .iadd 26 26 19,
  plain .isub 27 27 20]

def softmaxMiddle : List BvInsn := [mov 26 0, mov 22 16, mov 27 18]

def softmaxSumLoop : List BvInsn := [plain .load 1 22 0, plain .sub 2 1 25, plain .mul 2 2 21,
  plain .exp2 3 2 0, plain .add 26 26 3, plain .store 3 23 0, plain .iadd 22 22 19,
  plain .iadd 23 23 19, plain .isub 27 27 20]

def softmaxEnd : List BvInsn := [plain .rcp 21 26 0, mov 23 17, mov 27 18]

def softmaxDivLoop : List BvInsn := [plain .load 1 23 0, plain .mul 2 1 21, plain .store 2 23 0,
  plain .iadd 23 23 19, plain .isub 27 27 20]

/-! ### `bvn_sigmul` -/

def sigmulPrologue : List BvInsn := [mov 22 16, mov 23 17, mov 24 18]

def sigmulLoop : List BvInsn := [plain .load 1 22 0, plain .mul 2 1 21, plain .exp2 2 2 0,
  addImm 3 2 1, plain .rcp 3 3 0, plain .mul 3 3 1, plain .store 3 23 0, plain .iadd 22 22 19,
  plain .iadd 23 23 19, plain .isub 24 24 20]

/-! ### The images -/

def exitInsn : BvInsn := plain .exit 0 0 0

def bvmlCode : List BvInsn :=
  saxpyPrologue ++ saxpyLoop ++ countdown 26 0xF4 ++ [exitInsn] ++
    dotPrologue ++ dotLoop ++ countdown 25 0xF7 ++ [plain .store 26 18 0, exitInsn] ++
      gemmPrologue ++ [plain .cmp 0 4 0, branchP0 7] ++ gemmLoop ++ [branch 0xF7] ++ gemmEpilogue ++
        [exitInsn]

def bvnCode : List BvInsn :=
  reluPrologue ++ reluLoop ++ countdown 23 0xF7 ++ [exitInsn] ++
    affinePrologue ++ affineLoop ++ countdown 25 0xF6 ++ [exitInsn] ++
      softmaxPrologue ++ softmaxMaxLoop ++ countdown 27 0xF9 ++ softmaxMiddle ++ softmaxSumLoop ++
        countdown 27 0xF4 ++ softmaxEnd ++ softmaxDivLoop ++ countdown 27 0xF8 ++ [exitInsn] ++
          sigmulPrologue ++ sigmulLoop ++ countdown 24 0xF3 ++ [exitInsn]

/-- What matters of an image: its instructions and where the kernels start. -/
def BvbcImage.summary (img : BvbcImage) : List BvInsn × List (List Byte × Word) :=
  ((List.range img.ninsn).map fun k => bvDecode (img.insn k),
    img.kernels.map fun k => (cstrOf k.name, k.entry))

def bvmlSummary : List BvInsn × List (List Byte × Word) :=
  (bvmlCode, [(cstr "saxpy", 0), (cstr "dot", 17), (cstr "gemm", 32)])

def bvnSummary : List BvInsn × List (List Byte × Word) :=
  (bvnCode, [(cstr "relu", 0), (cstr "affine", 14), (cstr "softmax", 28), (cstr "sigmul", 68)])

theorem bradlibCompile_bvml :
    (bradlibCompile bvmlKernelSrc).map BvbcImage.summary = some bvmlSummary := by
  decide +kernel

theorem bradlibCompile_bvn :
    (bradlibCompile bvnKernelSrc).map BvbcImage.summary = some bvnSummary := by
  decide +kernel

section Images

variable {img : BvbcImage} {code : List BvInsn} {entries : List (List Byte × Word)}

theorem holds_of_summary {pc : Nat} {block : List BvInsn} (h : img.summary = (code, entries))
    (hmax : code.length ≤ bvbcMaxInsn) (hblock : (code.drop pc).take block.length = block) :
    img.Holds pc block := by
  have hcode : (List.range img.ninsn).map (fun k => bvDecode (img.insn k)) = code :=
    congrArg Prod.fst h
  have hlen : img.ninsn = code.length := by simpa using congrArg List.length hcode
  intro k hk
  have hlt : pc + k < code.length := by
    have htake := congrArg List.length hblock
    rw [List.length_take, List.length_drop] at htake
    omega
  refine ⟨hlen ▸ hlt, hlen ▸ hmax, ?_⟩
  have hget : code[pc + k] = block[k] := by
    have := List.getElem_of_eq hblock.symm hk
    simpa using this.symm
  rw [← hget]
  simp [← hcode]

theorem entry_of_summary {kernel : List Byte} {pc : Nat} (h : img.summary = (code, entries))
    (hfind : (entries.find? fun e => e.1 = cstrOf kernel).map Prod.snd =
      some (BitVec.ofNat 32 pc)) : img.Entry kernel pc := by
  have hentries : img.kernels.map (fun k => (cstrOf k.name, k.entry)) = entries :=
    congrArg Prod.snd h
  rw [← hentries] at hfind
  unfold BvbcImage.Entry bvbcFindKernel
  rw [← hfind]
  generalize img.kernels = ks
  induction ks with
  | nil => rfl
  | cons k ks ih =>
      rw [List.findIdx?_cons, List.map_cons, List.find?_cons]
      by_cases hk : cstrOf k.name = cstrOf kernel
      · simp [hk]
      · simpa [hk, Option.map_map, Function.comp_def] using ih

end Images

end BradVector
