import BradVector.Proof.AsmBranches
import BradVector.Proof.CoreSteps

/-!
# Calls and returns

A call leaves its return address in the link register. The word that the assembler has for `RET`
names no register, and the emulator takes the first of its register fields, which is zero, for the
number of the one that holds the address: a return goes where R0 says.
-/

namespace BradVector

open CSem CSem.Machine Bradasm CoreEmu

/-! ### The words of the assembler -/

/-- The operation of the instruction that the second pass stands at. -/
def Bradasm.Pass2.op? (s : Pass2) : Option BradOp :=
  let lx := lexNext s.lx
  match lx.head, lx.tok.kind with
  | .stmt, .op op => some op
  | _, _ => none

/-- The second pass comes, outside of `.compress`, to an instruction `op` that it encodes as `w`. -/
def Bradasm.Emits (source : List Byte) (op : BradOp) (w : Word) : Prop :=
  ∃ n s, after (pass2Step (pass1 source)) n (pass2Init source) = .ok s ∧ s.compress = false ∧
    s.op? = some op ∧ s.stmt? (pass1 source) = some (.insn32 w)

section Words

variable {source : List Byte} {op : BradOp} {w : Word}

theorem emits_parse (h : Emits source op w) :
    ∃ ec lx lx', parseOp op false ec lx = .ok (.insn32 w, lx') := by
  obtain ⟨n, s, -, hplain, hop, hstmt⟩ := h
  unfold Pass2.op? at hop
  unfold Pass2.stmt? at hstmt
  dsimp only at hop hstmt
  split at hop
  case h_2 => cases hop
  case h_1 op' hhead hkind =>
    obtain rfl := Option.some.inj hop
    rw [hplain] at hstmt
    cases hparse : parseOp op' false ⟨pass1 source, s.pc⟩ (lexNext (lexNext s.lx)) with
    | error e => simp [hhead, parseStmt, hkind, hparse] at hstmt
    | ok res =>
        obtain ⟨stmt, lx'⟩ := res
        simp only [hhead, parseStmt, hkind, hparse, Option.some.injEq] at hstmt
        subst hstmt
        exact ⟨_, _, _, hparse⟩

theorem emits_ret (h : Emits source .ret w) : w = bradRetRaw := by
  obtain ⟨ec, lx, lx', hparse⟩ := emits_parse h
  simp only [parseOp, Bool.false_eq_true, if_false, pure, Except.pure, Except.ok.injEq,
    Prod.mk.injEq, Stmt.insn32.injEq] at hparse
  exact hparse.1.symm

theorem emits_call (h : Emits source .call w) : (bradIsaDecode w).opcode = .call := by
  obtain ⟨ec, lx, lx', hparse⟩ := emits_parse h
  cases heval : evalExpr ec lx with
  | error e => simp [parseOp, heval, orErr, Except.mapError, bind, Except.bind] at hparse
  | ok res =>
      simp only [parseOp, heval, orErr, Except.mapError, bind, Except.bind, pure, Except.pure,
        Bool.false_eq_true, if_false, Except.ok.injEq, Prod.mk.injEq, Stmt.insn32.injEq] at hparse
      rw [← hparse.1, bradJMP_eq, bradIsaDecode_encodedWord]

end Words

/-! ### The steps of the emulator -/

namespace CoreEmu

/-- The core goes on at `a`: nothing is on the way through the pipeline, and the next fetch is
there. -/
structure Emu.ResumesAt (s : Emu) (a : Word) : Prop where
  pc : s.core.pc = a
  empty : s.core.pipeline.isEmpty = true

section Steps

variable {s : Emu} {memSize : Nat} {pc : Word} {d : BradInsn}

theorem flush_empty (core : CoreState) : core.flush.pipeline.isEmpty = true := by
  apply isEmpty_iff.mpr
  intro i hi
  simp only [CoreState.flush, pipelineFlush]
  split_ifs
  · rfl
  · rfl
  · exact absurd hi ‹_›

/-- A step that takes a branch leaves the core at its target. -/
theorem resumesAt_of_taken (h : s.executing = some (pc, d))
    (htaken : (s.effect memSize pc d).taken = true) :
    (coreEmuStep s memSize).ResumesAt (s.effect memSize pc d).core.pc := by
  rcases coreEmuStep_cases (running_of_executing h) memSize with
    ⟨hidle, -⟩ | ⟨pc', d', retires, hexecuting, ⟨-, hstep⟩ | ⟨hnot, -⟩⟩
  · rw [h] at hidle
    cases hidle
  · cases h.symm.trans hexecuting
    obtain ⟨pipeline, hleave⟩ := leave_frame (s.effect memSize pc d).core retires
    rw [hstep, hleave]
    exact ⟨rfl, flush_empty _⟩
  · cases h.symm.trans hexecuting
    rw [htaken] at hnot
    cases hnot

theorem link_of_call (h : s.executing = some (pc, d)) (hop : d.opcode = .call) :
    (coreEmuStep s memSize).core.regs bradRegLr = pc + 4 := by
  rw [coreEmuStep_regs h, Emu.effect, execute]
  simp only [hop]
  exact Function.update_self bradRegLr (pc + 4) s.core.regs

/-- **A return** goes where the register with the number 0 says. -/
theorem resumesAt_of_ret (hret : s.executing = some (pc, bradIsaDecode bradRetRaw)) :
    (coreEmuStep s memSize).ResumesAt (s.core.regs 0) := by
  have hop : (bradIsaDecode bradRetRaw).opcode = .ret := rfl
  have htaken : (s.effect memSize pc (bradIsaDecode bradRetRaw)).taken = true := by
    rw [Emu.effect, execute]
    simp only [hop]
    rfl
  have hpc : (s.effect memSize pc (bradIsaDecode bradRetRaw)).core.pc = s.core.regs 0 := by
    rw [Emu.effect, execute]
    simp only [hop]
    have hreg : (0 : BitVec 4).toNat < s.core.model.numRegs := by
      cases s.core.model <;> decide
    exact if_pos hreg
  have hresumes : (coreEmuStep s memSize).ResumesAt _ := resumesAt_of_taken hret htaken
  rwa [hpc] at hresumes

end Steps

end CoreEmu

theorem ret_resumes_after_call_iff {source : List Byte} {callWord retWord : Word}
    (hcallWord : Emits source .call callWord) (hretWord : Emits source .ret retWord)
    (s : Emu) (memSize i j : Nat) (callPc retPc : Word)
    (hcall : (s.run memSize i).executing = some (callPc, bradIsaDecode callWord))
    (hret : (s.run memSize j).executing = some (retPc, bradIsaDecode retWord))
    (hkept : (s.run memSize j).core.regs bradRegLr = (s.run memSize (i + 1)).core.regs bradRegLr) :
    (s.run memSize (j + 1)).ResumesAt (callPc + 4) ↔
      (s.run memSize j).core.regs 0 = (s.run memSize j).core.regs bradRegLr := by
  obtain rfl := emits_ret hretWord
  have hlink : (s.run memSize j).core.regs bradRegLr = callPc + 4 := by
    rw [hkept, run_succ]
    exact link_of_call hcall (emits_call hcallWord)
  have hresumes : (coreEmuStep (s.run memSize j) memSize).ResumesAt _ := resumesAt_of_ret hret
  rw [← run_succ] at hresumes
  rw [hlink]
  constructor
  · intro h
    exact hresumes.pc.symm.trans h.pc
  · intro h
    rwa [h] at hresumes

/-! ### Two short programs -/

/-- A core about to run the words from address 0 on. -/
def loadedAtZero (code : List Word) : Emu :=
  ⟨coreInit .falcon 0 0, writeBytes (fun _ => 0) 0 (code.flatMap fun w => toLE 4 w.toNat)⟩

/-- A routine that has its return address in R0 when it returns. -/
def callMoveRet : List Byte := cstr "CALL f\nf:\nADDI r0, r14, 0\nRET\n"

theorem callMoveRet_call : Emits callMoveRet .call 0xE0000000 :=
  ⟨0, pass2Init _, rfl, rfl, rfl, rfl⟩

theorem callMoveRet_ret : Emits callMoveRet .ret 0xF0000000 :=
  ⟨3, ⟨⟨cstr "RET\n", 4, .plain .newline⟩, 8, false, ⟨[0xE0000000, 0x80E00000], none⟩, 0⟩, rfl, rfl,
    rfl, rfl⟩

theorem ret_resumes_after_call_iff_moved :
    ((loadedAtZero [0xE0000000, 0x80E00000, 0xF0000000]).run 12 9).ResumesAt 4 :=
  (ret_resumes_after_call_iff callMoveRet_call callMoveRet_ret
    (loadedAtZero [0xE0000000, 0x80E00000, 0xF0000000]) 12 3 8 0 8 (by decide) (by decide)
      (by decide)).mpr (by decide)

/-- A routine that returns at once. -/
def callRet : List Byte := cstr "CALL f\nf:\nRET\n"

theorem callRet_call : Emits callRet .call 0xE0000000 := ⟨0, pass2Init _, rfl, rfl, rfl, rfl⟩

theorem callRet_ret : Emits callRet .ret 0xF0000000 :=
  ⟨2, ⟨⟨cstr "RET\n", 3, .plain .newline⟩, 4, false, ⟨[0xE0000000], none⟩, 0⟩, rfl, rfl, rfl, rfl⟩

/-- It returns to the call. -/
theorem ret_not_after_call :
    ¬ ∀ (source : List Byte) (callWord retWord : Word), Emits source .call callWord →
      Emits source .ret retWord → ∀ (s : Emu) (memSize i j : Nat) (callPc retPc : Word),
        s.core.model ≠ .falconLite → i < j →
          (s.run memSize i).executing = some (callPc, bradIsaDecode callWord) →
            (s.run memSize j).executing = some (retPc, bradIsaDecode retWord) →
              (s.run memSize j).core.regs bradRegLr = (s.run memSize (i + 1)).core.regs bradRegLr →
                (s.run memSize (j + 1)).ResumesAt (callPc + 4) := by
  intro h
  have hresumes := h callRet 0xE0000000 0xF0000000 callRet_call callRet_ret
    (loadedAtZero [0xE0000000, 0xF0000000]) 8 3 7 0 4 (by decide) (by decide) (by decide)
      (by decide) (by decide)
  have hpc := hresumes.pc
  revert hpc
  decide

end BradVector
