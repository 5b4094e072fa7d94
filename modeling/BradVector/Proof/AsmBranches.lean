import BradVector.Proof.AsmLabels
import BradVector.Proof.Encodings

/-!
# Branches to labels

In a source of 32-bit instructions and words the location counter is the offset in the output, so
that a branch is encoded with the distance the emulator adds. The encoding keeps sixteen bits of it
without a check, and a branch over a longer distance goes elsewhere.
-/

namespace BradVector.Bradasm

open CSem CSem.Machine

/-! ### Sources of whole words -/

/-- A statement that asks for one whole word: a 32-bit instruction or `.word`. -/
def Stmt.IsWord : Stmt → Prop
  | .insn32 _ => True
  | .data _ size => size = 4
  | _ => False

/-- Every statement the second pass meets asks for one whole word. -/
def OnlyWords (source : List Byte) : Prop :=
  Along (pass2Step (pass1 source))
    (fun s => ∀ stmt, s.stmt? (pass1 source) = some stmt → stmt.IsWord) (pass2Init source)

/-- The second pass among whole words: the location counter is the length of the output, as long as
there is room. -/
structure Pass2.InWords (s : Pass2) : Prop where
  plain : s.compress = false
  whole : s.out.half = none
  counted : s.out.Full ∨ s.pc = (4 * s.out.code.length : Nat)

theorem Stmt.IsWord.perform {s u : Pass2} {stmt : Stmt} (hword : stmt.IsWord) (hs : s.InWords)
    (h : s.perform stmt = some u) : u.InWords := by
  have hemit : ∀ w : Word, u = { s with out := s.out.emitWord w, pc := s.pc + 4 } → u.InWords := by
    rintro w rfl
    have hflush := Emitter.flushHalf_of_none hs.whole
    unfold Emitter.emitWord
    dsimp only
    rw [hflush]
    split_ifs with hroom
    · refine ⟨hs.plain, hs.whole, .inr ?_⟩
      have hpc := hs.counted.resolve_left (Nat.not_le.mpr hroom)
      dsimp only
      rw [hpc, List.length_append, List.length_singleton, Nat.mul_add, Nat.cast_add]
      rfl
    · exact ⟨hs.plain, hs.whole, .inl (Nat.le_of_not_lt hroom)⟩
  cases stmt with
  | insn32 insn => exact hemit insn (Option.some.inj h).symm
  | data value size =>
      obtain rfl : size = 4 := hword
      exact hemit value (Option.some.inj h).symm
  | org | entry | compress | nocompress | half | insn16 => exact hword.elim

theorem inWords_along {source : List Byte} (h : OnlyWords source) :
    Along (pass2Step (pass1 source)) Pass2.InWords (pass2Init source) := by
  apply h.invariant (Q := Pass2.InWords) ⟨rfl, rfl, .inr rfl⟩
  intro s t hwords hs hstep
  obtain ⟨_, lx, rfl⟩ | ⟨stmt, u, lx, hstands, hperform, rfl⟩ := pass2Step_cases hstep
  · exact ⟨hs.plain, hs.whole, hs.counted⟩
  · have hu : u.InWords := (hwords stmt hstands).perform hs hperform
    exact ⟨hu.plain, hu.whole, hu.counted⟩

/-- An item that is placed among whole words stands at the location counter. -/
theorem Pass2.InWords.offset {symbols : List Symbol} {s : Pass2} {stmt : Stmt} {offset : Nat}
    (hs : s.InWords) (h : s.Places symbols stmt offset) :
    offset = 4 * s.out.code.length ∧ s.pc = offset ∧ ¬ s.out.Full := by
  obtain ⟨_, hfull, hoffset⟩ := Stmt.place_eq_some h.placed
  have hbase : stmt.base s.out = s.out := by
    obtain hbase | hbase := Stmt.base_eq s.out stmt
    · exact hbase
    · exact hbase.trans (Emitter.flushHalf_of_none hs.whole)
  rw [hbase] at hfull hoffset
  have hbytes : s.out.bytes = 4 * s.out.code.length := by
    rw [Emitter.bytes_eq, Emitter.pad, hs.whole]
    rfl
  rw [hbytes] at hoffset
  exact ⟨hoffset.symm, hoffset ▸ hs.counted.resolve_left hfull, hfull⟩

/-! ### Branches -/

/-- The operand of a branch that names its target: for `BZ` and `BNZ` the one behind the
register. -/
def branchOperand (op : BradOp) (lx : Lexer) : Option Lexer :=
  match op with
  | .bz | .bnz =>
      match parseReg lx with
      | .ok (_, lx) => some (skipComma lx)
      | .error _ => none
  | .jmp | .call => some lx
  | _ => none

/-- The branch to a label that the second pass stands at: its operation and the label's address. -/
def Pass2.branch? (symbols : List Symbol) (s : Pass2) : Option (BradOp × Word) :=
  let lx := lexNext s.lx
  match lx.head, lx.tok.kind with
  | .stmt, .op op =>
      match branchOperand op (lexNext lx) with
      | some lx =>
          if lx.tok.kind = .id then
            (EvalCtx.find? ⟨symbols, s.pc⟩ lx.tok.text).map fun addr => (op, addr)
          else none
      | none => none
  | _, _ => none

/-- The operations whose operand is a target. -/
def BranchOp (op : BradOp) : Prop := op = .bz ∨ op = .bnz ∨ op = .jmp ∨ op = .call

theorem branchOp_of_operand {op : BradOp} {lx lx' : Lexer} (h : branchOperand op lx = some lx') :
    BranchOp op := by
  unfold BranchOp
  cases op <;> simp_all [branchOperand]

theorem evalExpr_of_id {ec : EvalCtx} {lx : Lexer} {addr : Word} (hid : lx.tok.kind = .id)
    (hfind : ec.find? lx.tok.text = some addr) : evalExpr ec lx = .ok (addr, lexNext lx) := by
  simp [evalExpr, hid, hfind]

theorem parseReg_lt {lx lx' : Lexer} {r : Word} (h : parseReg lx = .ok (r, lx')) : r < 16 := by
  unfold parseReg at h
  dsimp only at h
  split_ifs at h with hreg hlt
  obtain ⟨rfl, _⟩ := Prod.mk.inj (Except.ok.inj h)
  exact hlt

/-- What is emitted for a branch of `op` at `pc` to `target`, with the register that it tests. -/
def branchWord (op : BradOp) (rs1 : BitVec 4) (target pc : Word) : Word :=
  encodedWord op.nibble 0 rs1 0 ((branchOffset 4 target pc * 4).setWidth 16)

theorem parseRegImm_branch {ec : EvalCtx} {lx lx' : Lexer} {target : Word}
    (hoperand : branchOperand .bz lx = some lx') (hid : lx'.tok.kind = .id)
    (hfind : ec.find? lx'.tok.text = some target) :
    ∃ rs1, rs1 < 16 ∧ parseRegImm ec lx = .ok ((rs1, target), lexNext lx') := by
  unfold branchOperand at hoperand
  cases hreg : parseReg lx with
  | error e => simp [hreg] at hoperand
  | ok res =>
      obtain ⟨rs1, lx₁⟩ := res
      simp only [hreg, Option.some.injEq] at hoperand
      subst hoperand
      refine ⟨rs1, parseReg_lt hreg, ?_⟩
      simp [parseRegImm, hreg, evalExpr_of_id hid hfind, bind, Except.bind, pure, Except.pure]

theorem parseOp_branch {op : BradOp} {ec : EvalCtx} {lx lx' : Lexer} {target : Word}
    (hoperand : branchOperand op lx = some lx') (hid : lx'.tok.kind = .id)
    (hfind : ec.find? lx'.tok.text = some target) :
    ∃ rs1, parseOp op false ec lx = .ok (.insn32 (branchWord op rs1 target ec.pc),
      lexNext lx') := by
  have heval := evalExpr_of_id hid hfind
  obtain rfl | rfl | rfl | rfl := branchOp_of_operand hoperand
  case inl | inr.inl =>
    obtain ⟨rs1, hlt, hparse⟩ := parseRegImm_branch hoperand hid hfind
    refine ⟨rs1.setWidth 4, ?_⟩
    simp [parseOp, hparse, orErr, Except.mapError, bind, Except.bind, pure, Except.pure, branchWord,
      bradBR_eq _ _ hlt]
  case inr.inr.inl | inr.inr.inr =>
    obtain rfl := Option.some.inj hoperand
    refine ⟨0, ?_⟩
    simp [parseOp, heval, orErr, Except.mapError, bind, Except.bind, pure, Except.pure, branchWord,
      bradJMP_eq]

/-- Outside of `.compress` a branch to a label is encoded with the offset to it. -/
theorem Pass2.branch_stands {symbols : List Symbol} {s : Pass2} {op : BradOp} {target : Word}
    (hplain : s.compress = false) (h : s.branch? symbols = some (op, target)) :
    BranchOp op ∧ ∃ rs1, s.stmt? symbols = some (.insn32 (branchWord op rs1 target s.pc)) := by
  unfold Pass2.branch? at h
  unfold Pass2.stmt?
  dsimp only at h ⊢
  split at h
  case h_2 => cases h
  case h_1 op' hhead hkind =>
    cases hoperand : branchOperand op' (lexNext (lexNext s.lx)) with
    | none => simp [hoperand] at h
    | some lx =>
        simp only [hoperand] at h
        split_ifs at h with hid
        obtain ⟨addr, hfind, hpair⟩ := Option.map_eq_some_iff.mp h
        obtain ⟨rfl, rfl⟩ := Prod.mk.inj hpair
        obtain ⟨rs1, hparse⟩ := parseOp_branch hoperand hid hfind
        refine ⟨branchOp_of_operand hoperand, rs1, ?_⟩
        simp [hhead, parseStmt, hkind, hplain, hparse]

/-! ### Branches of the output -/

/-- After some rounds the second pass stands at a branch `op` to a label with the address `target`,
whose word it places at `offset`. -/
def BranchPlaced (source : List Byte) (op : BradOp) (target : Word) (offset : Nat) : Prop :=
  ∃ n s stmt, after (pass2Step (pass1 source)) n (pass2Init source) = .ok s ∧
    s.branch? (pass1 source) = some (op, target) ∧ s.Places (pass1 source) stmt offset

/-- The instruction at `offset` of the output. -/
def Output.insnAt (out : Output) (offset : Nat) : BradInsn :=
  bradIsaDecode (out.code.getD (offset / 4) 0)

/-- The branch at `offset`, taken by the emulator, goes to `target`, wherever the output is
loaded. -/
def Output.Reaches (out : Output) (offset : Nat) (target : Word) : Prop :=
  ∀ core mem memSize base,
    let e := CoreEmu.execute core (out.insnAt offset) mem memSize (base + offset)
    e.taken = true → e.core.pc = base + target

/-- Every branch to a label reaches it, and none is encoded whose distance does not fit. -/
structure BranchesHonoured (source : List Byte) (out : Output) : Prop where
  reaches : ∀ op target offset, BranchPlaced source op target offset → out.Reaches offset target
  rejected : ∀ op target offset, BranchPlaced source op target offset →
    FitsOffset (target - (offset + 4))

/-- Where the second pass has room for a branch to a label, the label is at most 32768 bytes before
the instruction behind the branch or at most 32767 after it, and some words from it. -/
def LabelsNear (source : List Byte) : Prop :=
  ∀ n s op target, after (pass2Step (pass1 source)) n (pass2Init source) = .ok s →
    s.branch? (pass1 source) = some (op, target) → ¬ s.out.Full → FitsOffset (target - (s.pc + 4))

theorem halvesOf_injective {w w' : Word} (h : halvesOf w = halvesOf w') : w = w' := by
  obtain ⟨hlo, hhi⟩ : w.setWidth 16 = w'.setWidth 16 ∧ (w >>> 16).setWidth 16 =
      (w' >>> 16).setWidth 16 := by
    simpa [halvesOf] using h
  apply BitVec.eq_of_toNat_eq
  have hlo' := congrArg BitVec.toNat hlo
  have hhi' := congrArg BitVec.toNat hhi
  simp only [BitVec.toNat_setWidth, BitVec.toNat_ushiftRight,
    Nat.shiftRight_eq_div_pow] at hlo' hhi'
  omega

theorem drop_flatMap_halvesOf (code : List Word) (k : Nat) :
    (code.flatMap halvesOf).drop (2 * k) = (code.drop k).flatMap halvesOf := by
  induction k generalizing code with
  | zero => rfl
  | succ k ih =>
      cases code with
      | nil => simp
      | cons w code => exact ih code

theorem getD_of_halves {code : List Word} {k : Nat} {w : Word}
    (h : halvesOf w <+: (code.flatMap halvesOf).drop (2 * k)) : code.getD k 0 = w := by
  rw [drop_flatMap_halvesOf] at h
  have hhead : code.getD k 0 = (code.drop k).headD 0 := by
    rw [List.getD_eq_getElem?_getD, List.headD_eq_head?_getD, List.head?_drop]
  rw [hhead]
  cases hdrop : code.drop k with
  | nil =>
      rw [hdrop] at h
      exact absurd (List.prefix_nil.mp h) (halvesOf_ne_nil w)
  | cons w' rest =>
      rw [hdrop, List.flatMap_cons] at h
      exact (halvesOf_injective (List.prefix_iff_eq_take.mp h)).symm

/-- A branch that is placed stands in the output as it was encoded. -/
theorem BranchPlaced.insnAt {source : List Byte} {out : Output} {op : BradOp} {target : Word}
    {offset : Nat} (h : BranchPlaced source op target offset)
    (hout : bradAsAssemble source = .ok out) (hwords : OnlyWords source) :
    BranchOp op ∧ (out.insnAt offset).opcode = op ∧
      (out.insnAt offset).immediate = (branchOffset 4 target offset * 4).setWidth 16 := by
  obtain ⟨n, s, stmt, hs, hbranch, hplaces⟩ := h
  have hin := inWords_along hwords n s hs
  obtain ⟨hoffset, hpc, _⟩ := hin.offset hplaces
  obtain ⟨hop, rs1, hstands⟩ := Pass2.branch_stands hin.plain hbranch
  obtain rfl := Option.some.inj (hplaces.stands.symm.trans hstands)
  have hitem := placed_in_output hout hs hplaces
  have hhalf : offset / 2 = 2 * s.out.code.length := by omega
  have hquarter : offset / 4 = s.out.code.length := by omega
  rw [hhalf] at hitem
  have hword : out.insnAt offset = bradIsaDecode (branchWord op rs1 target s.pc) := by
    rw [Output.insnAt, hquarter, getD_of_halves hitem]
  rw [hword, branchWord, bradIsaDecode_encodedWord, hpc]
  exact ⟨hop, rfl, rfl⟩

/-! ### Branches of the emulator -/

section Execution

open CoreEmu

variable {core : CoreState} {d : BradInsn} {mem : Nat → Byte} {memSize : Nat} {insnPc : Word}

theorem execute_branch_pc (hop : BranchOp d.opcode)
    (htaken : (execute core d mem memSize insnPc).taken = true) :
    (execute core d mem memSize insnPc).core.pc = insnPc + 4 + d.imm := by
  unfold execute at htaken ⊢
  obtain hop | hop | hop | hop := hop <;> simp only [hop] at htaken ⊢
  · split_ifs at htaken ⊢
    rfl
  · split_ifs at htaken ⊢
    rfl
  · rfl
  · rfl

/-- Every branch is taken by some core. -/
theorem exists_taken (mem : Nat → Byte) (memSize : Nat) (insnPc : Word) (hop : BranchOp d.opcode) :
    ∃ core, (execute core d mem memSize insnPc).taken = true := by
  obtain hop | hop | hop | hop := hop
  · refine ⟨{ coreInit .phoenix 0 0 with regs := fun _ => 0 }, ?_⟩
    simp [execute, hop, CoreState.count, CoreState.regVal, Executed.jump]
  · refine ⟨{ coreInit .phoenix 0 0 with regs := fun _ => 1 }, ?_⟩
    have hreg : d.rs1.toNat < 16 := d.rs1.isLt
    simp [execute, hop, CoreState.count, CoreState.regVal, Executed.jump, coreInit,
      PipelineModel.numRegs, hreg]
  · exact ⟨coreInit .phoenix 0 0, by simp [execute, hop, Executed.jump]⟩
  · exact ⟨coreInit .phoenix 0 0, by simp [execute, hop, Executed.jump]⟩

end Execution

/-- A branch reaches its label exactly if the distance fits the offset field. -/
theorem BranchPlaced.reaches_iff {source : List Byte} {out : Output} {op : BradOp} {target : Word}
    {offset : Nat} (h : BranchPlaced source op target offset)
    (hout : bradAsAssemble source = .ok out) (hwords : OnlyWords source) :
    out.Reaches offset target ↔ FitsOffset (target - (offset + 4)) := by
  obtain ⟨hop, hopcode, himm⟩ := h.insnAt hout hwords
  have hbranch : BranchOp (out.insnAt offset).opcode := hopcode.symm ▸ hop
  have hreturns := offset_returns_iff target offset
  rw [← himm] at hreturns
  rw [← hreturns]
  constructor
  · intro hreaches
    obtain ⟨core, htaken⟩ := exists_taken (fun _ => 0) 0 offset hbranch
    have hpc := hreaches core (fun _ => 0) 0 0
    rw [zero_add, zero_add] at hpc
    have heq := (execute_branch_pc hbranch htaken).symm.trans (hpc htaken)
    rw [← heq]
    exact (add_sub_cancel_left _ _).symm
  · intro heq core mem memSize base e htaken
    rw [execute_branch_pc hbranch htaken, BradInsn.imm, heq]
    ring

theorem labelsNear_iff {source : List Byte} (hwords : OnlyWords source) :
    LabelsNear source ↔ ∀ op target offset, BranchPlaced source op target offset →
      FitsOffset (target - (offset + 4)) := by
  constructor
  · rintro hnear op target offset ⟨n, s, stmt, hs, hbranch, hplaces⟩
    obtain ⟨_, hpc, hfull⟩ := (inWords_along hwords n s hs).offset hplaces
    have hfits := hnear n s op target hs hbranch hfull
    rwa [hpc] at hfits
  · intro hfits n s op target hs hbranch hfull
    have hin := inWords_along hwords n s hs
    obtain ⟨_, rs1, hstands⟩ := Pass2.branch_stands hin.plain hbranch
    have hplaces : s.Places (pass1 source)
        (.insn32 (branchWord op rs1 target s.pc)) s.out.bytes := by
      refine ⟨hstands, ?_⟩
      have hbase := Emitter.flushHalf_of_none hin.whole
      simp [Stmt.place, Stmt.item, Stmt.base, hbase, halvesOf_ne_nil, hfull]
    obtain ⟨_, hpc, _⟩ := hin.offset hplaces
    rw [hpc]
    exact hfits op target _ ⟨n, s, _, hs, hbranch, hplaces⟩

/-! ### Jumps over words -/

/-- Lines of `.word 0`. -/
def zeroWords : Nat → List Byte → List Byte
  | 0, rest => rest
  | n + 1, rest => cstr ".word 0\n" ++ zeroWords n rest

/-- A jump over `n` words. -/
def jumpOver (n : Nat) : List Byte := cstr "JMP far\n" ++ zeroWords n (cstr "far:\n")

/-- The table of a source whose one label has the given address. -/
def farAt (addr : Word) : List Symbol := [⟨cstr "far", addr⟩]

section JumpOver

variable (symbols : List Symbol) (rest : List Byte) (line n : Nat) (tok : Token) (pc : Word)
  (out : Emitter)

/-- The first pass at the start of a line. -/
def pass1At : Pass1 := ⟨⟨rest, line, tok⟩, pc, false, []⟩

/-- The second pass at the start of a line. -/
def pass2At : Pass2 := ⟨⟨rest, line, tok⟩, pc, false, out, 0⟩

theorem pass1Step_zero : pass1Step (pass1At (cstr ".word 0\n" ++ rest) line tok pc) =
    .ok (pass1At rest (line + 1) (.plain .newline) (pc + 4)) := rfl

theorem pass2Step_zero : pass2Step symbols (pass2At (cstr ".word 0\n" ++ rest) line tok pc out) =
    .ok (pass2At rest (line + 1) (.plain .newline) (pc + 4) (out.emitWord 0)) := rfl

theorem pass1_zeroWords : EndsWith pass1Step (pass1At (zeroWords n (cstr "far:\n")) line tok pc)
    (farAt (pc + 4 * (n : Word))) := by
  induction n generalizing line tok pc with
  | zero =>
      rw [Nat.cast_zero, mul_zero, add_zero]
      exact ⟨1, _, rfl, rfl⟩
  | succ n ih =>
      have hrest := ih (line + 1) (.plain .newline) (pc + 4)
      have hpc : pc + 4 + 4 * (n : Word) = pc + 4 * ((n + 1 : Nat) : Word) := by
        rw [Nat.cast_succ, mul_add, mul_one, add_assoc, add_comm (4 : Word)]
      rw [hpc] at hrest
      exact hrest.prepend (after_one.trans (pass1Step_zero _ line tok pc))

theorem pass1_jumpOver : pass1 (jumpOver n) = farAt (4 + 4 * (n : Word)) := by
  apply (pass1_ends (jumpOver n)).unique
  have hjump : pass1Step (pass1Init (jumpOver n)) =
      .ok (pass1At (zeroWords n (cstr "far:\n")) 2 (.plain .newline) 4) := rfl
  exact (pass1_zeroWords 2 n (.plain .newline) 4).prepend (after_one.trans hjump)

theorem pass2_zeroWords : ∃ code,
    EndsWith (pass2Step symbols) (pass2At (zeroWords n (cstr "far:\n")) line tok pc out)
      (.ok ⟨code, 0, symbols⟩) := by
  induction n generalizing line tok pc out with
  | zero => exact ⟨_, 1, _, rfl, rfl⟩
  | succ n ih =>
      obtain ⟨code, hrest⟩ := ih (line + 1) (.plain .newline) (pc + 4) (out.emitWord 0)
      exact ⟨code, hrest.prepend (after_one.trans (pass2Step_zero symbols _ line tok pc out))⟩

theorem jumpOver_accepted : ∃ out, bradAsAssemble (jumpOver n) = .ok out := by
  have hsymbols := pass1_jumpOver n
  have hends := pass2_ends (jumpOver n)
  rw [hsymbols] at hends
  have hjump : pass2Step (farAt (4 + 4 * (n : Word))) (pass2Init (jumpOver n)) =
      .ok (pass2At (zeroWords n (cstr "far:\n")) 2 (.plain .newline) 4
        (Emitter.init.emitWord (bradJMP .jmp (branchOffset 4 (4 + 4 * (n : Word)) 0)))) := rfl
  obtain ⟨code, hrest⟩ := pass2_zeroWords (farAt (4 + 4 * (n : Word))) 2 n (.plain .newline) 4
    (Emitter.init.emitWord (bradJMP .jmp (branchOffset 4 (4 + 4 * (n : Word)) 0)))
  exact ⟨_, hends.unique (hrest.prepend (after_one.trans hjump))⟩

/-- The statement of the second pass, if it stands at one, asks for a whole word. -/
def AtWord (s : Pass2) : Prop := ∀ stmt, s.stmt? symbols = some stmt → stmt.IsWord

variable {symbols} in
theorem atWord_of_stands {s : Pass2} {stmt : Stmt} (h : s.stmt? symbols = some stmt)
    (hword : stmt.IsWord) : AtWord symbols s := by
  intro stmt' hstmt
  obtain rfl := Option.some.inj (h.symm.trans hstmt)
  exact hword

variable {symbols} in
theorem atWord_of_none {s : Pass2} (h : s.stmt? symbols = none) : AtWord symbols s := by
  intro stmt hstmt
  rw [h] at hstmt
  cases hstmt

theorem atWord_zeroWords : Along (pass2Step symbols) (AtWord symbols)
    (pass2At (zeroWords n (cstr "far:\n")) line tok pc out) := by
  induction n generalizing line tok pc out with
  | zero =>
      -- the line of the label, and the end of the text
      apply along_of_step (atWord_of_none rfl)
      intro t ht
      obtain rfl : pass2At [] (line + 1) (.plain .newline) pc out = t := Except.ok.inj ht
      apply along_of_step (atWord_of_none rfl)
      intro u hu
      cases hu
  | succ n ih =>
      have hstands : (pass2At (zeroWords (n + 1) (cstr "far:\n")) line tok pc out).stmt? symbols =
          some (.data 0 4) := rfl
      apply along_of_step (atWord_of_stands hstands rfl)
      intro t ht
      obtain rfl := Except.ok.inj ((pass2Step_zero symbols _ line tok pc out).symm.trans ht)
      exact ih (line + 1) (.plain .newline) (pc + 4) (out.emitWord 0)

theorem jumpOver_onlyWords : OnlyWords (jumpOver n) := by
  unfold OnlyWords
  rw [pass1_jumpOver]
  generalize hsymbols : farAt (4 + 4 * (n : Word)) = symbols
  have hstands : (pass2Init (jumpOver n)).stmt? symbols =
      some (.insn32 (bradJMP .jmp (branchOffset 4 (4 + 4 * (n : Word)) 0))) := by
    rw [← hsymbols]
    rfl
  apply along_of_step (atWord_of_stands hstands trivial)
  intro t ht
  rw [← hsymbols] at ht ⊢
  obtain rfl := Except.ok.inj ht
  exact atWord_zeroWords _ _ n _ _ _

theorem jumpOver_placed : BranchPlaced (jumpOver n) .jmp (4 + 4 * (n : Word)) 0 := by
  unfold BranchPlaced
  rw [pass1_jumpOver]
  exact ⟨0, pass2Init (jumpOver n), _, rfl, rfl, rfl, rfl⟩

end JumpOver

/-- An accepted source of 32-bit instructions and words has every branch to a label go there, or be
refused, exactly if no label is too far away. -/
theorem branches_honoured_iff {source : List Byte} {out : Output}
    (h : bradAsAssemble source = .ok out)
    (hwords : OnlyWords source) : BranchesHonoured source out ↔ LabelsNear source := by
  rw [labelsNear_iff hwords]
  constructor
  · exact BranchesHonoured.rejected
  · intro hfits
    refine ⟨?_, hfits⟩
    intro op target offset hplaced
    exact (hplaced.reaches_iff h hwords).mpr (hfits op target offset hplaced)

theorem branches_honoured_iff_near :
    BranchesHonoured (jumpOver 1) ⟨[0xD0000004, 0], 0, farAt 8⟩ ↔ LabelsNear (jumpOver 1) :=
  branches_honoured_iff rfl (jumpOver_onlyWords 1)

/-- Over 8192 words a jump is one byte too far. -/
theorem farLabel_not_reached :
    ¬ ∀ source out, bradAsAssemble source = .ok out → OnlyWords source →
      BranchesHonoured source out := by
  intro hall
  obtain ⟨out, hout⟩ := jumpOver_accepted 8192
  have hwords := jumpOver_onlyWords 8192
  have hplaced := jumpOver_placed 8192
  have hreaches := (hall _ out hout hwords).reaches _ _ _ hplaced
  have hfits := (hplaced.reaches_iff hout hwords).mp hreaches
  exact absurd hfits.2.1 (by decide)

end BradVector.Bradasm
