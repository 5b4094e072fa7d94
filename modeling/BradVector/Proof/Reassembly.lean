import BradVector.Proof.AsmTokens
import BradVector.Proof.Encodings

/-!
# Listings

The emulator's disassembler prints instructions in the assembler's syntax, except that a branch
shows its distance where the assembler reads a target. So a listing always assembles, and what comes
back is the code it was made from as long as no line is a branch and no unprinted field is set.
-/

namespace BradVector.Bradasm

open CSem CSem.Machine CoreEmu

/-! ### The rest of a line -/

theorem StaysOnLine.eq_of_atLineEnd {lx lx' : Lexer} (h : StaysOnLine lx lx')
    (hend : lx.AtLineEnd) :
    lx = lx' := by
  cases h.cases_head with
  | inl heq => exact heq
  | inr hstep =>
      obtain ⟨_, ⟨hline, _⟩, _⟩ := hstep
      exact absurd hend hline

theorem skipLoop_of_stays {lx lx' : Lexer} (h : StaysOnLine lx lx') (hend : lx'.AtLineEnd) :
    ∀ fuel, lx.p.length < fuel → skipLoop fuel lx = lx' := by
  induction h using Relation.ReflTransGen.head_induction_on with
  | refl =>
      intro fuel hfuel
      obtain ⟨fuel, rfl⟩ := Nat.exists_eq_succ_of_ne_zero (by omega : fuel ≠ 0)
      exact if_pos hend
  | @head m m' hstep hrest ih =>
      obtain ⟨hline, rfl⟩ := hstep
      intro fuel hfuel
      obtain ⟨fuel, rfl⟩ := Nat.exists_eq_succ_of_ne_zero (by omega : fuel ≠ 0)
      rw [skipLoop, if_neg hline]
      by_cases heof : (lexNext m).tok.kind = .eof
      · obtain rfl := StaysOnLine.eq_of_atLineEnd hrest (.inr heof)
        cases fuel with
        | zero => rfl
        | succ fuel => exact if_pos hend
      · exact ih fuel (by have := lexNext_length_lt heof; omega)

theorem skipLine_of_stays {lx lx' : Lexer} (h : StaysOnLine lx lx') (hend : lx'.AtLineEnd) :
    skipLine lx = lx' :=
  skipLoop_of_stays h hend _ (by omega)

/-- The lexer at the first token of a text. -/
def lexAt (s : List Byte) (line : Nat) : Lexer := lexNext ⟨s, line, .plain .eof⟩

/-! ### Tokens of a printed line -/

section Tokens

variable (s : List Byte) (line : Nat) (tok : Token)

/-- The current token does not matter for the next one. -/
theorem lexNext_eq_lexAt : lexNext ⟨s, line, tok⟩ = lexAt s line := by
  unfold lexAt lexNext
  rfl

theorem lexAt_blank : lexAt (ch ' ' :: s) line = lexAt s line := by
  unfold lexAt lexNext
  rfl

theorem lexAt_minus : lexAt (ch '-' :: s) line = ⟨s, line, .plain .minus⟩ := rfl

/-- What ends a word or a numeral. -/
def Ends (c : Byte) : Prop := c = ch ' ' ∨ c = ch ',' ∨ c = ch ']' ∨ c = ch '\n'

variable {s line} {c : Byte}

theorem lexAt_op (hc : Ends c) (op : BradOp) :
    lexAt (cstr op.name ++ c :: s) line = ⟨c :: s, line, ⟨.op op, cstr op.name, 0⟩⟩ := by
  rcases hc with rfl | rfl | rfl | rfl <;> cases op <;> rfl

theorem lexAt_reg (hc : Ends c) (r : BitVec 4) :
    lexAt (regText r ++ c :: s) line = ⟨c :: s, line, ⟨.id, regText r, 0⟩⟩ := by
  have hword : ∀ b ∈ regText r, isWordChar b = true := by revert r; decide
  have hkind : wordKind (regText r) = .id := by revert r; decide
  have hstop : isWordChar c = false := by rcases hc with rfl | rfl | rfl | rfl <;> rfl
  have hlen : (regText r).length ≤ 63 := by revert r; decide
  have htext : ((regText r ++ c :: s).takeWhile isWordChar).take (tokTextSize - 1) = regText r := by
    rw [List.takeWhile_append_of_pos hword, List.takeWhile_cons_of_neg (by simp [hstop]),
      List.append_nil]
    exact List.take_of_length_le hlen
  have htake : lexAt (regText r ++ c :: s) line =
      (let text := ((regText r ++ c :: s).takeWhile isWordChar).take (tokTextSize - 1)
       ⟨(regText r ++ c :: s).drop text.length, line, ⟨wordKind text, text, 0⟩⟩) := rfl
  rw [htake, htext]
  dsimp only
  rw [hkind, List.drop_left]

theorem takeNumber_digits {ds : List Byte} (hds : ∀ d ∈ ds, isDigit d = true) (hc : Ends c) :
    takeNumber (ds ++ c :: s) = ds := by
  induction ds with
  | nil => rcases hc with rfl | rfl | rfl | rfl <;> rfl
  | cons d ds ih =>
      rw [List.cons_append, takeNumber, if_pos (.inl (hds d List.mem_cons_self)),
        ih fun b hb => hds b (List.mem_cons_of_mem d hb)]

theorem lexAt_digits {ds : List Byte} (hds : ∀ d ∈ ds, isDigit d = true) (hne : ds ≠ [])
    (hc : Ends c) :
    lexAt (ds ++ c :: s) line =
      ⟨c :: s, line, ⟨.num, [], BitVec.ofInt 32 (strtol (ds.take (dirTextSize - 1)) 0).1⟩⟩ := by
  have hdigit : ∀ d : Byte, isDigit d = true → d = ch '0' ∨ d = ch '1' ∨ d = ch '2' ∨ d = ch '3' ∨
      d = ch '4' ∨ d = ch '5' ∨ d = ch '6' ∨ d = ch '7' ∨ d = ch '8' ∨ d = ch '9' := by decide
  obtain ⟨d, ds, rfl⟩ := List.exists_cons_of_ne_nil hne
  have htake : lexAt (d :: ds ++ c :: s) line =
      (let number := takeNumber (d :: ds ++ c :: s)
       let value := (strtol (number.take (dirTextSize - 1)) 0).1
       ⟨(d :: ds ++ c :: s).drop number.length, line, ⟨.num, [], BitVec.ofInt 32 value⟩⟩) := by
    rcases hdigit d (hds d List.mem_cons_self) with
      rfl | rfl | rfl | rfl | rfl | rfl | rfl | rfl | rfl | rfl <;> rfl
  rw [htake, takeNumber_digits hds hc]
  dsimp only
  rw [List.drop_left]

theorem lexAt_number (hc : Ends c) {n : Nat} (hn : n < 10 ^ 5) :
    lexAt (decimalDigits n ++ c :: s) line = ⟨c :: s, line, ⟨.num, [], BitVec.ofNat 32 n⟩⟩ := by
  have hlen := length_decimalDigits_le (by decide : 0 < 5) hn
  have hvalue : strtol (decimalDigits n) 0 = ((n : Int), []) := by
    have h : strtol (decimal (n : Int) ++ []) 0 = ((n : Int), []) :=
      strtol_decimal (.inl rfl) (by unfold longMin; omega) (by unfold longMax; omega) rfl
    rwa [decimal, if_neg (by omega), Int.natAbs_natCast, List.append_nil] at h
  rw [lexAt_digits (fun _ => isDigit_of_mem_decimalDigits) (decimalDigits_ne_nil n) hc,
    List.take_of_length_le (by unfold dirTextSize; omega), hvalue, BitVec.ofInt_natCast]

theorem parseReg_regText (r : BitVec 4) :
    parseReg ⟨s, line, ⟨.id, regText r, 0⟩⟩ = .ok (r.setWidth 32, lexAt s line) := by
  have hvalue : BitVec.ofInt 32 (strtol ((regText r).drop 1) 10).1 = r.setWidth 32 := by
    revert r; decide
  have hlt : r.setWidth 32 < (16 : Word) := by revert r; decide
  have hrest : (regText r).drop 1 ≠ [] := decimalDigits_ne_nil _
  unfold parseReg
  dsimp only
  rw [if_pos ⟨rfl, rfl, hrest⟩, hvalue, if_pos hlt, lexNext_eq_lexAt]

theorem evalExpr_decimal (ec : EvalCtx) (hc : Ends c) (imm : Hword) :
    evalExpr ec (lexAt (decimal imm.toInt ++ c :: s) line) =
      .ok (imm.signExtend 32, lexAt (c :: s) line) := by
  have hbounds := imm.toInt_lt
  have hbounds' := imm.le_toInt
  have hvalue : imm.signExtend 32 = BitVec.ofInt 32 imm.toInt := by
    rw [← signExtend_toInt, BitVec.ofInt_toInt]
  have hnumber : lexAt (decimalDigits imm.toInt.natAbs ++ c :: s) line =
      ⟨c :: s, line, ⟨.num, [], BitVec.ofNat 32 imm.toInt.natAbs⟩⟩ := lexAt_number hc (by omega)
  unfold decimal
  by_cases hneg : imm.toInt < 0
  · have hminus : evalExpr ec ⟨decimalDigits imm.toInt.natAbs ++ c :: s, line, .plain .minus⟩ =
        .ok (-BitVec.ofNat 32 imm.toInt.natAbs, lexAt (c :: s) line) := by
      unfold evalExpr
      dsimp only
      rw [if_pos (.inr rfl), lexNext_eq_lexAt, hnumber]
      dsimp only
      rw [lexNext_eq_lexAt]
      rfl
    have hneg' : imm.toInt = -(imm.toInt.natAbs : Int) := by omega
    rw [if_pos hneg, List.cons_append, lexAt_minus, hminus, hvalue]
    conv_rhs => rw [hneg', BitVec.ofInt_neg, BitVec.ofInt_natCast]
  · have hneg' : imm.toInt = (imm.toInt.natAbs : Int) := by omega
    rw [if_neg hneg, hnumber, hvalue]
    unfold evalExpr
    dsimp only
    rw [if_neg (by decide)]
    dsimp only
    rw [lexNext_eq_lexAt]
    conv_rhs => rw [hneg', BitVec.ofInt_natCast]
    rfl

/-! ### Operands -/

theorem parseReg_lexAt (hc : Ends c) (r : BitVec 4) :
    parseReg (lexAt (regText r ++ c :: s) line) = .ok (r.setWidth 32, lexAt (c :: s) line) := by
  rw [lexAt_reg hc, parseReg_regText]

theorem skipComma_lexAt : skipComma (lexAt (cstr ", " ++ s) line) = lexAt s line := by
  have htok : skipComma (lexAt (cstr ", " ++ s) line) = lexNext
    ⟨ch ' ' :: s, line, .plain .comma⟩ := rfl
  rw [htok, lexNext_eq_lexAt, lexAt_blank]

theorem ends_comma : Ends (ch ',') := .inr (.inl rfl)
theorem ends_newline : Ends (ch '\n') := .inr (.inr (.inr rfl))

theorem parseReg_comma (r : BitVec 4) :
    parseReg (lexAt (regText r ++ (cstr ", " ++ s)) line) =
      .ok (r.setWidth 32, lexAt (cstr ", " ++ s) line) :=
  parseReg_lexAt ends_comma r

section Operands

variable (ec : EvalCtx) (rd rs1 rs2 : BitVec 4) (imm : Hword)

theorem parseRegs_text :
    parseRegs (lexAt (regText rd ++ (cstr ", " ++ (regText rs1 ++ (cstr ", " ++ (regText rs2 ++
        ch '\n' :: s))))) line) =
      .ok ((rd.setWidth 32, rs1.setWidth 32, rs2.setWidth 32), lexAt (ch '\n' :: s) line) := by
  unfold parseRegs
  rw [parseReg_comma]
  simp only [bind, Except.bind, skipComma_lexAt, parseReg_comma, parseReg_lexAt ends_newline, pure,
    Except.pure]

theorem parseRegImm_text :
    parseRegImm ec (lexAt (regText rd ++ (cstr ", " ++ (decimal imm.toInt ++ ch '\n' :: s))) line) =
      .ok ((rd.setWidth 32, imm.signExtend 32), lexAt (ch '\n' :: s) line) := by
  unfold parseRegImm
  simp only [bind, Except.bind, skipComma_lexAt, parseReg_comma, evalExpr_decimal ec ends_newline,
    pure, Except.pure]

theorem parseRegsImm_text :
    parseRegsImm ec (lexAt (regText rd ++ (cstr ", " ++ (regText rs1 ++ (cstr ", " ++
        (decimal imm.toInt ++ ch '\n' :: s))))) line) =
      .ok ((rd.setWidth 32, rs1.setWidth 32, imm.signExtend 32), lexAt (ch '\n' :: s) line) := by
  unfold parseRegsImm
  simp only [bind, Except.bind, skipComma_lexAt, parseReg_comma, evalExpr_decimal ec ends_newline,
    pure, Except.pure]

theorem parseMem_text :
    parseMem ec (lexAt (regText rd ++ (cstr ", [" ++ (regText rs1 ++ (cstr " + " ++
        (decimal imm.toInt ++ (cstr "]" ++ ch '\n' :: s)))))) line) =
      .ok ((rd.setWidth 32, rs1.setWidth 32, imm.signExtend 32), lexAt (ch '\n' :: s) line) := by
  have hcomma : cstr ", [" = cstr ", " ++ cstr "[" := rfl
  have hplus : ∀ t, lexAt (cstr " + " ++ t) line = ⟨ch ' ' :: t, line, .plain .plus⟩ := fun _ => rfl
  have hbrack : ∀ t, lexAt (cstr "[" ++ t) line = ⟨t, line, .plain .lbrack⟩ := fun _ => rfl
  have hreg : ∀ t, parseReg (lexAt (regText rs1 ++ (cstr " + " ++ t)) line) =
      .ok (rs1.setWidth 32, lexAt (cstr " + " ++ t) line) := fun t => parseReg_lexAt (.inl rfl) rs1
  have hval : ∀ t, evalExpr ec (lexAt (decimal imm.toInt ++ (cstr "]" ++ t)) line) =
      .ok (imm.signExtend 32, lexAt (cstr "]" ++ t) line) := fun t =>
    evalExpr_decimal ec (.inr (.inr (.inl rfl))) imm
  have hclose : ∀ t, lexAt (cstr "]" ++ t) line = ⟨t, line, .plain .rbrack⟩ := fun _ => rfl
  unfold parseMem
  rw [hcomma, List.append_assoc]
  simp only [bind, Except.bind, skipComma_lexAt, parseReg_comma, pure, Except.pure, hbrack, hreg,
    hplus, hval, hclose, Token.plain, if_true, true_or, lexNext_eq_lexAt, lexAt_blank]

end Operands

end Tokens

/-! ### Words -/

/-- The immediate of a branch, taken for the address it goes to, as the distance the assembler makes
of it. -/
def relocated (pc : Word) (imm : Hword) : Hword :=
  (branchOffset 4 (imm.signExtend 32) pc * 4).setWidth 16

/-- What the assembler makes of the line of an instruction at an address. -/
def reassembled (pc : Word) (d : BradInsn) : Word :=
  match d.opcode with
  | .add | .sub | .mul | .and | .or | .xor | .shl | .shr =>
      encodedWord d.opcode.nibble d.rd d.rs1 d.rs2 0
  | .addi | .ldw => encodedWord d.opcode.nibble d.rd d.rs1 0 d.immediate
  | .stw => encodedWord d.opcode.nibble 0 d.rs1 d.rs2 d.immediate
  | .bz | .bnz => encodedWord d.opcode.nibble 0 d.rs1 0 (relocated pc d.immediate)
  | .jmp | .call => encodedWord d.opcode.nibble 0 0 0 (relocated pc d.immediate)
  | .ret => encodedWord d.opcode.nibble 0 0 0 0

section Words

variable (op : BradOp) (rd rs1 rs2 : BitVec 4) (imm : Hword)

theorem signExtend_low : (imm.signExtend 32).setWidth 16 = imm := by
  ext i hi
  simp only [BitVec.getElem_setWidth, BitVec.getLsbD_signExtend, BitVec.getLsbD_eq_getElem hi, hi,
    if_true]
  simp [show i < 32 by omega]

theorem bradRRR_eq :
    bradRRR op (rd.setWidth 32) (rs1.setWidth 32) (rs2.setWidth 32) =
      encodedWord op.nibble rd rs1 rs2 0 := by
  unfold bradRRR encodedWord
  rw [BradOp.toWord_eq]
  simp

theorem bradRI_eq :
    bradRI op (rd.setWidth 32) (rs1.setWidth 32) (imm.signExtend 32) =
      encodedWord op.nibble rd rs1 0 imm := by
  unfold bradRI encodedWord
  rw [show imm.signExtend 32 &&& 0xFFFF = _ from and_mask (by decide : 16 ≤ 32) _, signExtend_low,
    BradOp.toWord_eq]
  simp

theorem bradStore_eq :
    bradStore (rs2.setWidth 32) (rs1.setWidth 32) (imm.signExtend 32) =
      encodedWord BradOp.stw.nibble 0 rs1 rs2 imm := by
  unfold bradStore encodedWord
  rw [show imm.signExtend 32 &&& 0xFFFF = _ from and_mask (by decide : 16 ≤ 32) _, signExtend_low,
    BradOp.toWord_eq]
  simp

/-! ### Lines -/

theorem bradBR_relocated (pc : Word) :
    bradBR op (rs1.setWidth 32) (branchOffset 4 (imm.signExtend 32) pc) =
      encodedWord op.nibble 0 rs1 0 (relocated pc imm) := by
  have hrs1 : rs1.setWidth 32 < (16 : Word) := by
    rw [BitVec.lt_def, BitVec.toNat_setWidth]
    exact (Nat.mod_le _ _).trans_lt rs1.isLt
  rw [bradBR_eq op _ hrs1, BitVec.setWidth_setWidth_of_le _ (by decide), BitVec.setWidth_eq,
    relocated]

theorem bradJMP_relocated (pc : Word) :
    bradJMP op (branchOffset 4 (imm.signExtend 32) pc) =
      encodedWord op.nibble 0 0 0 (relocated pc imm) :=
  bradJMP_eq op _

end Words

section Lines

variable {s : List Byte} {line : Nat}

theorem lexAt_op_blank (op : BradOp) :
    lexAt (cstr op.name ++ (cstr " " ++ s)) line = ⟨ch ' ' :: s, line, ⟨.op op, cstr op.name, 0⟩⟩ :=
  lexAt_op (.inl rfl) op

/-- A line of the disassembler is a statement of the assembler. -/
theorem parseStmt_disasmText (ec : EvalCtx) (d : BradInsn) :
    parseStmt false ec (lexAt (disasmText d ++ ch '\n' :: s) line) =
      .ok (.insn32 (reassembled ec.pc d), lexAt (ch '\n' :: s) line) := by
  unfold disasmText reassembled
  cases hop : d.opcode
  case ret =>
    dsimp only
    rw [lexAt_op ends_newline, parseStmt]
    dsimp only
    rw [parseOp, lexNext_eq_lexAt]
    rfl
  all_goals
    simp only [List.append_assoc, lexAt_op_blank, parseStmt, lexNext_eq_lexAt, lexAt_blank, parseOp,
      parseRegs_text, parseRegsImm_text, parseRegImm_text, parseMem_text, orErr, Except.mapError,
      evalExpr_decimal ec ends_newline, bind, Except.bind, pure, Except.pure, bradRRR_eq, bradRI_eq,
      bradStore_eq, bradBR_relocated, bradJMP_relocated, Bool.false_eq_true, if_false]

theorem disasmText_kind (d : BradInsn) :
    (lexAt (disasmText d ++ ch '\n' :: s) line).tok.kind = .op d.opcode := by
  unfold disasmText
  cases d.opcode
  case ret => rw [lexAt_op ends_newline]
  all_goals simp only [List.append_assoc, lexAt_op_blank]

theorem disasmText_head (d : BradInsn) :
    (lexAt (disasmText d ++ ch '\n' :: s) line).head = .stmt := by
  simp [Lexer.head, Lexer.AtLabel, disasmText_kind]

/-- From the operation on, the tokens of a line lead to its end. -/
theorem skipLine_disasmText (d : BradInsn) :
    skipLine (lexAt (disasmText d ++ ch '\n' :: s) line) = ⟨s, line + 1, .plain .newline⟩ := by
  have hstart : ¬ (lexAt (disasmText d ++ ch '\n' :: s) line).AtLineEnd :=
    Lexer.not_atLineEnd_of_head (disasmText_head d)
  have hline := parseStmt_onLine hstart false ⟨[], 0⟩ _ _ (parseStmt_disasmText ⟨[], 0⟩ d)
  exact skipLine_of_stays hline (.inl rfl)

theorem length_disasmText_lt (w : Word) : (disasmText (bradIsaDecode w)).length < 32 := by
  have hreg : ∀ r, (regText r).length ≤ 3 := by decide
  have hdec : ∀ imm : Hword, (decimal imm.toInt).length ≤ 6 := by
    intro imm
    have hbounds := imm.toInt_lt
    have hbounds' := imm.le_toInt
    have hlen := length_decimalDigits_le (by decide : 0 < 5) (by omega : imm.toInt.natAbs < 10 ^ 5)
    unfold decimal
    split_ifs
    · exact Nat.succ_le_succ hlen
    · exact hlen.trans (by decide)
  generalize bradIsaDecode w = d
  have hrd := hreg d.rd
  have hrs1 := hreg d.rs1
  have hrs2 := hreg d.rs2
  have himm := hdec d.immediate
  have hname : ∀ op : BradOp, (cstr op.name).length ≤ 4 := by intro op; cases op <;> decide
  have hop := hname d.opcode
  have hlens : (cstr " ").length = 1 ∧ (cstr ", ").length = 2 ∧ (cstr ", [").length = 3 ∧
      (cstr " + ").length = 3 ∧ (cstr "]").length = 1 := ⟨rfl, rfl, rfl, rfl, rfl⟩
  obtain ⟨h1, h2, h3, h4, h5⟩ := hlens
  unfold disasmText
  cases heq : d.opcode <;> rw [heq] at hop <;> simp only [List.length_append] <;> omega

end Lines

/-! ### Whole listings -/

/-- The lines of a piece of code, each printed into a buffer of `bufSize` bytes. -/
def listing (bufSize : Nat) : List Word → Except Int (List Byte)
  | [] => .ok []
  | w :: ws => do
      let text ← coreEmuDisasm w bufSize
      let rest ← listing bufSize ws
      return text ++ cstr "\n" ++ rest

/-- The texts of a listing, which a buffer of 32 bytes has room for. -/
def listingText : List Word → List Byte
  | [] => []
  | w :: ws => disasmText (bradIsaDecode w) ++ ch '\n' :: listingText ws

theorem listing_eq {bufSize : Nat} (h : 32 ≤ bufSize) (ws : List Word) :
    listing bufSize ws = .ok (listingText ws) := by
  induction ws with
  | nil => rfl
  | cons w ws ih =>
      have hlen := length_disasmText_lt w
      have htext : coreEmuDisasm w bufSize = .ok (disasmText (bradIsaDecode w)) := by
        rw [coreEmuDisasm, if_neg (by omega), List.take_of_length_le (by omega)]
      have hnl : cstr "\n" = [ch '\n'] := rfl
      simp only [listing, htext, ih, bind, Except.bind, pure, Except.pure, listingText, hnl,
        List.append_assoc, List.singleton_append]

/-- The words a listing at an address is assembled into. -/
def reassembledFrom (pc : Word) : List Word → List Word
  | [] => []
  | w :: ws => reassembled pc (bradIsaDecode w) :: reassembledFrom (pc + 4) ws

section Runs

variable (line : Nat) (tok : Token) (pc : Word)

theorem pass1_listingText (ws : List Word) :
    EndsWith pass1Step ⟨⟨listingText ws, line, tok⟩, pc, false, []⟩ [] := by
  induction ws generalizing line tok pc with
  | nil => exact ⟨0, _, rfl, rfl⟩
  | cons w ws ih =>
      refine (ih (line + 1) (.plain .newline) (pc + 4)).prepend (after_one.trans ?_)
      unfold pass1Step
      simp only [listingText, lexNext_eq_lexAt, disasmText_head, pass1Stmt, disasmText_kind,
        skipLine_disasmText, insnSize, Bool.false_eq_true, if_false]

theorem emitWord_take (code : List Word) (w : Word) :
    Emitter.emitWord ⟨code.take asmMaxOutput, none⟩ w =
      ⟨(code ++ [w]).take asmMaxOutput, none⟩ := by
  unfold Emitter.emitWord Emitter.flushHalf
  dsimp only
  by_cases hroom : code.length < asmMaxOutput
  · rw [List.take_of_length_le (Nat.le_of_lt hroom), if_pos hroom,
      List.take_of_length_le (by simpa)]
  · rw [if_neg (by rw [List.length_take]; omega), List.take_append_of_le_length (not_lt.mp hroom)]

theorem pass2_listingText (ws code : List Word) :
    EndsWith (pass2Step [])
      ⟨⟨listingText ws, line, tok⟩, pc, false, ⟨code.take asmMaxOutput, none⟩, 0⟩
      (.ok ⟨(code ++ reassembledFrom pc ws).take asmMaxOutput, 0, []⟩) := by
  induction ws generalizing line tok pc code with
  | nil =>
      rw [reassembledFrom, List.append_nil]
      exact ⟨0, _, rfl, rfl⟩
  | cons w ws ih =>
      have hrest :=
        ih (line + 1) (.plain .newline) (pc + 4) (code ++ [reassembled pc (bradIsaDecode w)])
      rw [List.append_assoc, List.singleton_append] at hrest
      refine hrest.prepend (after_one.trans ?_)
      unfold pass2Step pass2Stmt
      have hend : skipLine (lexAt (ch '\n' :: listingText ws) line) =
          ⟨listingText ws, line + 1, .plain .newline⟩ := rfl
      simp only [listingText, lexNext_eq_lexAt, disasmText_head, parseStmt_disasmText, bind,
        Except.bind, Pass2.perform, emitWord_take, hend, Except.mapError, pure, Except.pure]

theorem bradAsAssemble_listingText (ws : List Word) :
    bradAsAssemble (listingText ws) = .ok ⟨(reassembledFrom 0 ws).take asmMaxOutput, 0, []⟩ := by
  have hsymbols : pass1 (listingText ws) = [] :=
    (pass1_ends (listingText ws)).unique (pass1_listingText 1 _ 0 ws)
  have hends := pass2_ends (listingText ws)
  rw [hsymbols] at hends
  exact hends.unique (pass2_listingText 1 _ 0 ws [])

end Runs

/-! ### What comes back -/

/-- The fields of an instruction its line does not show are zero. -/
def AllShown (d : BradInsn) : Prop :=
  match d.opcode with
  | .add | .sub | .mul | .and | .or | .xor | .shl | .shr => d.immediate = 0
  | .addi | .ldw => d.rs2 = 0
  | .stw => d.rd = 0
  | .bz | .bnz => d.rd = 0 ∧ d.rs2 = 0
  | .jmp | .call => d.rd = 0 ∧ d.rs1 = 0 ∧ d.rs2 = 0
  | .ret => d.rd = 0 ∧ d.rs1 = 0 ∧ d.rs2 = 0 ∧ d.immediate = 0

/-- The distance of a branch is the address it goes to, in the sixteen bits of the field. -/
def ShowsTarget (pc : Word) (d : BradInsn) : Prop :=
  d.opcode.isBranch = true → d.opcode ≠ .ret → d.immediate.toNat % 4 = 0 ∧
    (pc + 4).toNat % 65536 = 0

instance (d : BradInsn) : Decidable (AllShown d) := by
  unfold AllShown
  split <;> infer_instance

instance (pc : Word) (d : BradInsn) : Decidable (ShowsTarget pc d) := by
  unfold ShowsTarget
  infer_instance

theorem encodedWord_decode (w : Word) :
    encodedWord (bradIsaDecode w).opcode.nibble (bradIsaDecode w).rd (bradIsaDecode w).rs1
      (bradIsaDecode w).rs2 (bradIsaDecode w).immediate = w := by
  have hnibble : ∀ n : BitVec 4, (BradOp.ofNibble n).nibble = n := by decide
  unfold bradIsaDecode encodedWord
  dsimp only
  rw [hnibble]
  apply BitVec.eq_of_getLsbD_eq
  intro i hi
  simp only [BitVec.getLsbD_or, BitVec.getLsbD_shiftLeft, BitVec.getLsbD_setWidth,
    BitVec.getLsbD_extractLsb']
  have hcases : i < 16 ∨ (16 ≤ i ∧ i < 20) ∨ (20 ≤ i ∧ i < 24) ∨ (24 ≤ i ∧ i < 28) ∨
    28 ≤ i := by omega
  rcases hcases with h | h | h | h | h <;>
    simp (disch := omega) [hi, decide_eq_true, decide_eq_false]

theorem relocated_toNat_mod (pc : Word) (imm : Hword) : (relocated pc imm).toNat % 4 = 0 := by
  rw [relocated, BitVec.toNat_setWidth, BitVec.toNat_mul, show (4 : Word).toNat = 4 from rfl]
  omega

theorem relocated_eq_iff {pc : Word} (hpc : pc.toNat % 4 = 0) (imm : Hword) :
    relocated pc imm = imm ↔ imm.toNat % 4 = 0 ∧ (pc + 4).toNat % 65536 = 0 := by
  have himm : (imm.signExtend 32).toNat % 65536 = imm.toNat := by
    have h := congrArg BitVec.toNat (signExtend_low imm)
    rwa [BitVec.toNat_setWidth] at h
  have hpc' : (pc + 4).toNat % 4 = 0 := by
    rw [BitVec.toNat_add, show (4 : Word).toNat = 4 from rfl]
    omega
  have hdist : (imm.signExtend 32 - (pc + 4)).toNat =
      (2 ^ 32 - (pc + 4).toNat + (imm.signExtend 32).toNat) % 2 ^ 32 := BitVec.toNat_sub _ _
  have hlt := (pc + 4).isLt
  by_cases hmod : imm.toNat % 4 = 0
  · -- the distance is a multiple of 4, so that dividing and multiplying leave it as it is
    have hdiv : (imm.signExtend 32 - (pc + 4)).toInt % (4 : Word).toInt = 0 := by
      rw [BitVec.toInt_eq_toNat_bmod, show (4 : Word).toInt = 4 from rfl]
      unfold Int.bmod
      dsimp only
      split_ifs <;> omega
    have hoff := branchOffset_toInt (.inr rfl) (imm.signExtend 32) pc hdiv
    have hmul : branchOffset 4 (imm.signExtend 32) pc * 4 = imm.signExtend 32 - (pc + 4) := by
      apply BitVec.eq_of_toInt_eq
      rw [BitVec.toInt_mul, hoff, Int.ediv_mul_cancel (Int.dvd_of_emod_eq_zero hdiv),
        BitVec.toInt_bmod_cancel]
    rw [relocated, hmul, ← BitVec.toNat_inj, BitVec.toNat_setWidth, hdist]
    omega
  · refine iff_of_false (fun h => hmod ?_) fun h => hmod h.1
    rw [← h]
    exact relocated_toNat_mod pc imm

theorem encodedWord_inj {op : BradOp} {rd rs1 rs2 rd' rs1' rs2' : BitVec 4} {imm imm' : Hword} :
    encodedWord op.nibble rd rs1 rs2 imm = encodedWord op.nibble rd' rs1' rs2' imm' ↔
      rd = rd' ∧ rs1 = rs1' ∧ rs2 = rs2' ∧ imm = imm' := by
  constructor
  · intro h
    have hdecode := congrArg bradIsaDecode h
    rw [bradIsaDecode_encodedWord, bradIsaDecode_encodedWord] at hdecode
    simp only [BradInsn.mk.injEq] at hdecode
    exact hdecode.2.2
  · rintro ⟨rfl, rfl, rfl, rfl⟩
    rfl

/-- A word comes back from its line exactly if the line shows all of it, and a branch what the
assembler takes it to show. -/
theorem reassembled_eq_iff {pc : Word} (hpc : pc.toNat % 4 = 0) (w : Word) :
    reassembled pc (bradIsaDecode w) = w ↔
      AllShown (bradIsaDecode w) ∧ ShowsTarget pc (bradIsaDecode w) := by
  conv_lhs => rhs; rw [← encodedWord_decode w]
  generalize bradIsaDecode w = d
  have hrel := relocated_eq_iff hpc d.immediate
  unfold reassembled AllShown ShowsTarget
  cases d.opcode <;> dsimp only <;> rw [encodedWord_inj] <;>
    simp only [BradOp.isBranch, hrel, @eq_comm _ (0 : BitVec 4), @eq_comm _ (0 : Hword), true_and,
      and_true] <;> simp [and_assoc]

theorem getElem_reassembledFrom (pc : Word) (ws : List Word) (i : Nat) :
    (reassembledFrom pc ws)[i]? =
      ws[i]?.map fun w => reassembled (pc + 4 * (i : Word)) (bradIsaDecode w) := by
  induction ws generalizing pc i with
  | nil => rfl
  | cons w ws ih =>
      cases i with
      | zero => simp [reassembledFrom]
      | succ i =>
          have hpc : pc + 4 + 4 * (i : Word) = pc + 4 * ((i + 1 : Nat) : Word) := by
            rw [Nat.cast_succ, mul_add, mul_one, add_assoc, add_comm (4 : Word)]
          rw [reassembledFrom, List.getElem?_cons_succ, List.getElem?_cons_succ, ih, hpc]

/-- **Disassembling and assembling.** Every listing assembles, without a symbol and with one word
for each line as far as the output has room. It gives the code it was printed from exactly if every
word shows all of its fields and every branch stands where its distance is its target. -/
theorem coreEmuDisasm_reassembles {bufSize : Nat} (h : 32 ≤ bufSize) (ws : List Word) :
    ∃ source, listing bufSize ws = .ok source ∧
      bradAsAssemble source = .ok ⟨(reassembledFrom 0 ws).take asmMaxOutput, 0, []⟩ ∧
      (ws.length ≤ asmMaxOutput →
        (bradAsAssemble source = .ok ⟨ws, 0, []⟩ ↔ ∀ (i : Nat) w, ws[i]? = some w →
          AllShown (bradIsaDecode w) ∧ ShowsTarget (4 * (i : Word)) (bradIsaDecode w))) := by
  refine ⟨listingText ws, listing_eq h ws, bradAsAssemble_listingText ws, fun hlen => ?_⟩
  have hlength : (reassembledFrom 0 ws).length = ws.length := by
    generalize (0 : Word) = pc
    clear hlen
    induction ws generalizing pc with
    | nil => rfl
    | cons w ws ih => exact congrArg Nat.succ (ih _)
  rw [bradAsAssemble_listingText, List.take_of_length_le (hlength.trans_le hlen)]
  simp only [Except.ok.injEq, Output.mk.injEq, and_true]
  rw [List.ext_getElem?_iff]
  refine forall_congr' fun i => ?_
  rw [getElem_reassembledFrom, zero_add]
  cases hw : ws[i]? with
  | none => simp
  | some w =>
      have hpc : (4 * (i : Word)).toNat % 4 = 0 := by
        rw [BitVec.toNat_mul, show (4 : Word).toNat = 4 from rfl]
        omega
      simp only [Option.map_some, Option.some.injEq, forall_eq', reassembled_eq_iff hpc]

/-- `ADDI r1, r2, -5`, `STW r3, [r1 + 8]` and `RET` come back; with `BZ r1, 8` in front of them they
do not, as the branch goes to address 8. -/
theorem threeWords_reassemble :
    (∃ source, listing 32 [0x8120FFFB, 0xA0130008, 0xF0000000] = .ok source ∧
      bradAsAssemble source = .ok ⟨[0x8120FFFB, 0xA0130008, 0xF0000000], 0, []⟩) ∧
    ∃ source, listing 32 [0xB0100008, 0xF0000000] = .ok source ∧
      bradAsAssemble source = .ok ⟨[0xB0100004, 0xF0000000], 0, []⟩ := by
  obtain ⟨source, hlist, _, hiff⟩ :=
    coreEmuDisasm_reassembles (le_refl 32) [0x8120FFFB, 0xA0130008, 0xF0000000]
  refine ⟨⟨source, hlist, (hiff (by decide)).mpr fun i w hw => ?_⟩, ?_⟩
  · match i, hw with
    | 0, hw => obtain rfl := Option.some.inj hw; exact ⟨by decide, by decide⟩
    | 1, hw => obtain rfl := Option.some.inj hw; exact ⟨by decide, by decide⟩
    | 2, hw => obtain rfl := Option.some.inj hw; exact ⟨by decide, by decide⟩
  · obtain ⟨source, hlist, hout, _⟩ :=
      coreEmuDisasm_reassembles (le_refl 32) [0xB0100008, 0xF0000000]
    exact ⟨source, hlist, hout.trans (by decide)⟩

end BradVector.Bradasm
