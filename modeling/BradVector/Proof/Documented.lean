import BradVector.Proof.DocLines

/-!
# What the assembler makes of the documented forms

Row by row of the operand table, the word an instruction is assembled to or its refusal; then both
passes over a kernel of such instructions.
-/

namespace BradVector

open CSem

/-- The rows of the operand table that have an instruction behind them in the assembler. -/
def DocRow.assembled : DocRow → Bool
  | vectorLoad | atomic | vector | vectorScalar => false
  | _ => true

/-! ### Operands -/

section Operands

variable {offset : List Byte → Option Int} {c : OperandClass} {n : Nat}

/-- The register as `parse_operand` returns it. -/
def regOperand (c : OperandClass) (n : Nat) : Operand := ⟨true, c, BitVec.ofInt 32 (n : Int)⟩

theorem parseReg_reg (cls : OperandClass) (hc : letterClass c.letter = c) (hn : n < c.regs) :
    parseReg (DocOperand.reg c n).tok cls = if c = cls then some (regOperand c n) else none := by
  have hregs := c.regs_le
  have hstrtol : Libc.strtol ((DocOperand.reg c n).tok.text.drop 1) 10 = ((n : Int), []) :=
    strtol_index n (by omega)
  have hletter : letterClass ((DocOperand.reg c n).tok.text.headD 0) = c := hc
  rw [parseReg, if_neg (by simp [DocOperand.tok]), hletter]
  by_cases hcls : c = cls
  · subst hcls
    rw [if_neg (not_not.mpr rfl), if_pos rfl, hstrtol]
    exact if_neg (by simp; omega)
  · rw [if_pos hcls, if_neg hcls]

theorem parseOperand_reg (hc : letterClass c.letter = c) (hn : n < c.regs) :
    parseOperand (DocOperand.reg c n).tok = some (regOperand c n) := by
  have hkind : (DocOperand.reg c n).tok.kind = .id := rfl
  rw [parseOperand, hkind]
  simp only [parseReg_reg _ hc hn]
  cases c with
  | none => exact absurd hc (by decide)
  | _ => rfl

theorem regOperand_byte (hn : n < c.regs) : (regOperand c n).byte.toNat = n := by
  have hregs := c.regs_le
  simp only [regOperand, Operand.byte, BitVec.toNat_setWidth, BitVec.toNat_ofInt]
  omega

theorem DocInsn.predByte_toNat (i : DocInsn) :
    i.predByte.toNat = match i.pred with
      | none => 0
      | some p => p + 1 := by
  unfold DocInsn.predByte
  cases i.pred with
  | none => rfl
  | some p =>
      have hp : (p : Nat) < 16 := p.isLt
      have hone : (1 : BitVec 8).toNat = 1 := rfl
      simp only [BitVec.toNat_add, BitVec.toNat_ofInt, hone]
      omega

/-- A word whose fields are what is written, and zero where nothing is. -/
theorem DocInsn.readBack_bven (i : DocInsn) {dst src1 src2 imm : BitVec 8} {w : BitVec 64}
    (hw : w = bven i.op.toByte i.predByte dst src1 src2 imm 0 0)
    (hoperands : List.Forall₂ (Slot.Reads offset (bvDecode w)) i.row.slots i.operands)
    (hdst : (∀ c, .reg .dst c ∉ i.row.slots) → dst = 0)
    (hsrc1 : (∀ c, .reg .src1 c ∉ i.row.slots) → src1 = 0)
    (hsrc2 : (∀ c, .reg .src2 c ∉ i.row.slots) → src2 = 0)
    (himm : .imm ∉ i.row.slots → .target ∉ i.row.slots → imm = 0) :
    i.ReadBack offset (bvDecode w) := by
  refine ⟨?_, ?_, hoperands, fun f hf => ?_, fun h h' => ?_, ?_⟩
  · rw [hw, bvDecode_bven]
  · rw [hw, bvDecode_bven]
    exact i.predByte_toNat
  · rw [hw, bvDecode_bven]
    cases f with
    | dst => exact hdst hf
    | src1 => exact hsrc1 hf
    | src2 => exact hsrc2 hf
  · rw [hw, bvDecode_bven]
    exact himm h h'
  · rw [hw, bvDecode_bven]
    exact ⟨rfl, rfl⟩

end Operands

/-! ### The rows -/

theorem opOf_mnemonic : ∀ row : DocRow, row ≠ .atomic → ∀ e ∈ row.mnemonics,
    opOf e.1 = some e.2 := by
  intro row
  cases row <;> decide

theorem opOf_atomic : opOf (cstr "ATOMIC_ADD") = none := by decide

section Rows

variable {rest : List Byte} {line : Nat} {a : BradcAsm} {i : DocInsn}

theorem insnWord_plain (hop : opOf i.mn = some i.op) (hplain : i.op.isPlain) :
    insnWord a (i.head rest line) =
      .ok (operandsLexer rest line i.operands, bven i.op.toByte i.predByte 0 0 0 0 0 0) := by
  have hmn : (i.head rest line).t.text = i.mn := rfl
  simp only [insnWord, bind, Except.bind, parsePred_head, hmn, hop]
  exact if_pos hplain

theorem insnWord_jump {w : BitVec 64} (hop : opOf i.mn = some i.op) (hjump : i.op.isJump)
    (hw : branchWord a (operandsLexer rest line i.operands) i.op.toByte i.predByte = .ok w) :
    insnWord a (i.head rest line) = .ok (operandsLexer rest line i.operands, w) := by
  have hmn : (i.head rest line).t.text = i.mn := rfl
  have hplain : ¬ i.op.isPlain := by rcases hjump with h | h | h <;> rw [h] <;> decide
  simp only [insnWord, bind, Except.bind, parsePred_head, hmn, hop]
  rw [if_neg hplain, if_pos hjump, hw]
  rfl

theorem insnWord_special {d : Operand} (hop : opOf i.mn = some i.op) (hspecial : i.op.isSpecial)
    (hd : parseOperand (operandsLexer rest line i.operands).t = some d) (hcls : d.cls = .s) :
    insnWord a (i.head rest line) =
      .ok (operandsLexer rest line i.operands, bven i.op.toByte i.predByte d.byte 0 0 0 0 0) := by
  have hmn : (i.head rest line).t.text = i.mn := rfl
  have hplain : ¬ i.op.isPlain := by rcases hspecial with h | h | h <;> rw [h] <;> decide
  have hjump : ¬ i.op.isJump := by rcases hspecial with h | h | h <;> rw [h] <;> decide
  simp only [insnWord, bind, Except.bind, parsePred_head, hmn, hop]
  rw [if_neg hplain, if_neg hjump, if_pos hspecial, hd]
  exact if_neg (not_not.mpr hcls)

/-- The opcodes with a destination and a first source. -/
abbrev Opcode.HasSources (op : Opcode) : Prop := ¬ op.isPlain ∧ ¬ op.isJump ∧ ¬ op.isSpecial

theorem insnWord_sources {o₀ o₁ : DocOperand} {os : List DocOperand} {d a1 : Operand}
    (hop : opOf i.mn = some i.op) (hsources : i.op.HasSources)
    (hoperands : i.operands = o₀ :: o₁ :: os)
    (hd : parseOperand o₀.tok = some d) (hcls : d.cls = i.op.dstClass)
    (ha : parseOperand o₁.tok = some a1) :
    insnWord a (i.head rest line) =
      sourcesWord a (operandsLexer rest line (o₁ :: os)) i.mn i.op i.predByte d a1 := by
  have hmn : (i.head rest line).t.text = i.mn := rfl
  have hsmall : ∀ o ∈ o₁ :: os, o.Small := fun o ho =>
    i.small o (hoperands ▸ List.mem_cons_of_mem _ ho)
  simp only [insnWord, bind, Except.bind, parsePred_head, hmn, hop, hoperands]
  rw [if_neg hsources.1, if_neg hsources.2.1, if_neg hsources.2.2]
  simp only [operandsLexer, hd, nextSrc_moreText hsmall, ha, hcls, ne_eq, not_true_eq_false,
    if_false]

/-- A destination of the wrong class. -/
theorem insnWord_badDestination {o₀ : DocOperand} {os : List DocOperand} {d : Operand}
    (hop : opOf i.mn = some i.op) (hsources : i.op.HasSources) (hoperands : i.operands = o₀ :: os)
    (hd : parseOperand o₀.tok = some d) (hcls : d.cls ≠ i.op.dstClass) :
    ∀ r, insnWord a (i.head rest line) ≠ .ok r := by
  have hmn : (i.head rest line).t.text = i.mn := rfl
  intro r
  simp only [insnWord, bind, Except.bind, parsePred_head, hmn, hop, hoperands]
  rw [if_neg hsources.1, if_neg hsources.2.1, if_neg hsources.2.2]
  simp [operandsLexer, hd, hcls, bErr]

end Rows

/-! ### The operands behind the first two -/

section Sources

variable {a : BradcAsm} {lx src : Lexer} {mn : List Byte} {op : Opcode} {pred : BitVec 8}
  {d a1 : Operand}

theorem sourcesWord_compare {b2 : Operand} (hsrc : nextSrc lx = src)
    (hb : cmpSource src.t = some b2) :
    sourcesWord a lx mn .cmp pred d a1 =
      .ok (src, bven Opcode.cmp.toByte pred d.byte a1.byte b2.byte 0 0 0) := by
  simp only [sourcesWord, if_true, hsrc, hb]

/-- A memory access; a store has its base first. -/
theorem sourcesWord_memory {base val : Operand} (hsrc : nextSrc lx = src)
    (hmem : op.isMemory = true) (hbase : (if op = .store ∨ op = .storev then d else a1) = base)
    (hval : (if op = .store ∨ op = .storev then a1 else d) = val) (hbcls : base.cls = .s)
    (hvcls : val.cls = if op = .storev then .v else .s) (hnum : src.t.kind = .num) :
    sourcesWord a lx mn op pred d a1 =
      .ok (src, bven op.toByte pred val.byte base.byte 0 (src.t.ival.setWidth 8) 0 0) := by
  have hcmp : op ≠ .cmp := by
    rintro rfl
    exact absurd hmem (by decide)
  have hb : (if op = .store ∨ op = .storev then d.cls else a1.cls) = .s := by
    rw [← hbcls, ← hbase]
    split_ifs <;> rfl
  have hv : (if op = .store ∨ op = .storev then a1.cls else d.cls) = if op = .storev then .v
      else .s := by
    rw [← hvcls, ← hval]
    split_ifs <;> rfl
  have hdst : (if op = .store ∨ op = .storev then a1.byte else d.byte) = val.byte := by
    rw [← hval]
    split_ifs <;> rfl
  have hbyte : (if op = .store ∨ op = .storev then d.byte else a1.byte) = base.byte := by
    rw [← hbase]
    split_ifs <;> rfl
  simp only [sourcesWord, if_neg hcmp, hmem, if_true, hsrc, hb, hv, hnum, hdst, hbyte, ne_eq,
    not_true_eq_false, if_false]

theorem sourcesWord_vectorLoad (hd : d.cls = .v) :
    ∀ r, sourcesWord a lx mn .loadv pred d a1 ≠ .ok r := by
  intro r
  have hmem : Opcode.loadv.isMemory = true := by decide
  simp only [sourcesWord, hmem, hd, bErr]
  by_cases hbase : a1.cls = .s <;> simp [hbase]

theorem sourcesWord_move (hsrc : nextSrc lx = src) (hmn : mn = cstr "MOV") :
    sourcesWord a lx mn .addi pred d a1 =
      .ok (src, bven Opcode.addi.toByte pred d.byte a1.byte 0 0 0 0) := by
  have hmem : Opcode.addi.isMemory = false := by decide
  simp only [sourcesWord, hmem, hmn, hsrc]
  rfl

theorem sourcesWord_immediate (hsrc : nextSrc lx = src) (hmn : mn ≠ cstr "MOV")
    (hnum : src.t.kind = .num) :
    sourcesWord a lx mn .addi pred d a1 =
      .ok (src, bven Opcode.addi.toByte pred d.byte a1.byte 0 (src.t.ival.setWidth 8) 0 0) := by
  have hmem : Opcode.addi.isMemory = false := by decide
  simp only [sourcesWord, hmem, if_neg hmn, hsrc, hnum]
  rfl

theorem sourcesWord_oneSource (hcmp : op ≠ .cmp) (hmem : op.isMemory = false)
    (hmn : mn ≠ cstr "MOV") (haddi : op ≠ .addi) (hone : op.isOneSource = true) :
    sourcesWord a lx mn op pred d a1 = .ok (lx, bven op.toByte pred d.byte a1.byte 0 0 0 0) := by
  simp only [sourcesWord, if_neg hcmp, hmem, if_neg hmn, if_neg haddi, hone]
  rfl

theorem sourcesWord_twoSources {a2 : Operand} (hsrc : nextSrc lx = src) (hcmp : op ≠ .cmp)
    (hmem : op.isMemory = false) (hmn : mn ≠ cstr "MOV") (haddi : op ≠ .addi)
    (hone : op.isOneSource = false) (hvector : op.isVector = false) (hnum : src.t.kind ≠ .num)
    (hparse : parseOperand src.t = some a2) (hcls : a2.cls = .s) :
    sourcesWord a lx mn op pred d a1 =
      .ok (src, bven op.toByte pred d.byte a1.byte a2.byte 0 0 0) := by
  simp only [sourcesWord, if_neg hcmp, hmem, if_neg hmn, if_neg haddi, hone, hvector, hsrc,
    if_neg hnum, hparse, hcls, Bool.false_eq_true, if_false, false_and, ne_eq, not_true_eq_false]

end Sources

/-! ### Row by row -/

theorem takes_reg_iff {f : Field} {c : OperandClass} {o : DocOperand} :
    (Slot.reg f c).Takes o ↔ ∃ n < c.regs, o = .reg c n := by
  cases o with
  | reg c' n =>
      constructor
      · rintro ⟨rfl, hn⟩
        exact ⟨n, hn, rfl⟩
      · rintro ⟨m, hm, h⟩
        cases h
        exact ⟨rfl, hm⟩
  | _ => simp [Slot.Takes]

theorem takes_imm_iff {o : DocOperand} :
    Slot.imm.Takes o ↔ ∃ v : Int, (-128 ≤ v ∧ v ≤ 127) ∧ o = .imm v := by
  cases o with
  | imm v =>
      constructor
      · exact fun h => ⟨v, h, rfl⟩
      · rintro ⟨u, hu, h⟩
        cases h
        exact hu
  | _ => simp [Slot.Takes]

/-- The line of the instruction is assembled to a word that reads back. -/
def DocInsn.AssembledBy (i : DocInsn) (a : BradcAsm) (offset : List Byte → Option Int) : Prop :=
  ∀ rest line, ∃ lx' w, insnWord a (i.head rest line) = .ok (lx', w) ∧
    i.ReadBack offset (bvDecode w)

section ByRow

variable {a : BradcAsm} {i : DocInsn} {offset : List Byte → Option Int}

theorem reads_reg {f : Field} {c : OperandClass} {n : Nat} {d : BvInsn} (hn : n < c.regs)
    (hd : d.field f = (regOperand c n).byte) : (Slot.reg f c).Reads offset d (.reg c n) := by
  rw [Slot.Reads, hd, regOperand_byte hn]

theorem DocInsn.nextSrc_eq {rest : List Byte} {line : Nat} {o₀ o₁ : DocOperand}
    {os : List DocOperand} (hops : i.operands = o₀ :: o₁ :: os) :
    nextSrc (operandsLexer rest line (o₁ :: os)) = operandsLexer rest line os :=
  nextSrc_moreText fun o ho =>
    i.small o (hops ▸ List.mem_cons_of_mem _ (List.mem_cons_of_mem _ ho))

theorem DocInsn.opOf_mn (i : DocInsn) (hrow : i.row ≠ .atomic) : opOf i.mn = some i.op :=
  opOf_mnemonic i.row hrow _ i.mem

theorem DocInsn.mn_op_eq (i : DocInsn) {mn : List Byte} {op : Opcode}
    (h : i.row.mnemonics = [(mn, op)]) :
    i.mn = mn ∧ i.op = op := by
  have hmem := i.mem
  rwa [h, List.mem_singleton, Prod.mk.injEq] at hmem

theorem DocInsn.operands_two (i : DocInsn) {f₀ f₁ : Field} {c₀ c₁ : OperandClass}
    (h : i.row.slots = [.reg f₀ c₀, .reg f₁ c₁]) :
    ∃ n₀ < c₀.regs, ∃ n₁ < c₁.regs, i.operands = [.reg c₀ n₀, .reg c₁ n₁] := by
  have htakes := i.takes
  simp only [h, List.forall₂_cons_left_iff, List.forall₂_nil_left_iff, takes_reg_iff] at htakes
  obtain ⟨_, _, ⟨n₀, h₀, rfl⟩, ⟨_, _, ⟨n₁, h₁, rfl⟩, rfl, rfl⟩, hops⟩ := htakes
  exact ⟨n₀, h₀, n₁, h₁, hops⟩

theorem DocInsn.operands_three (i : DocInsn) {f₀ f₁ : Field} {c₀ c₁ : OperandClass} {slot : Slot}
    (h : i.row.slots = [.reg f₀ c₀, .reg f₁ c₁, slot]) :
    ∃ n₀ < c₀.regs, ∃ n₁ < c₁.regs, ∃ o, slot.Takes o ∧ i.operands =
      [.reg c₀ n₀, .reg c₁ n₁, o] := by
  have htakes := i.takes
  simp only [h, List.forall₂_cons_left_iff, List.forall₂_nil_left_iff, takes_reg_iff] at htakes
  obtain ⟨_, _, ⟨n₀, h₀, rfl⟩, ⟨_, _, ⟨n₁, h₁, rfl⟩, ⟨o, _, ho, rfl, rfl⟩, rfl⟩, hops⟩ := htakes
  exact ⟨n₀, h₀, n₁, h₁, o, ho, hops⟩

theorem assembled_threeRegister (hrow : i.row = .threeRegister) : i.AssembledBy a offset := by
  have hfacts : ∀ e ∈ DocRow.threeRegister.mnemonics, e.2.HasSources ∧ e.2.dstClass = .s ∧
      e.2 ≠ .cmp ∧ e.2.isMemory = false ∧ e.1 ≠ cstr "MOV" ∧ e.2 ≠ .addi ∧ e.2.isOneSource = false ∧
      e.2.isVector = false := by
    decide
  obtain ⟨hsources, hdst, hcmp, hmem, hmn, haddi, hone, hvector⟩ := hfacts _ (hrow ▸ i.mem)
  have hop := i.opOf_mn (by simp [hrow])
  obtain ⟨n₀, h₀, n₁, h₁, o, ho, hops⟩ := i.operands_three (congrArg DocRow.slots hrow)
  obtain ⟨n₂, h₂, rfl⟩ := takes_reg_iff.mp ho
  intro rest line
  have hword : insnWord a (i.head rest line) = _ :=
    insnWord_sources hop hsources hops (parseOperand_reg rfl h₀) hdst.symm (parseOperand_reg rfl h₁)
  rw [sourcesWord_twoSources (i.nextSrc_eq hops) hcmp hmem hmn haddi hone hvector nofun
    (parseOperand_reg rfl h₂) rfl] at hword
  refine ⟨_, _, hword, i.readBack_bven rfl ?_ ?_ ?_ ?_ ?_⟩
  · rw [bvDecode_bven, hrow, hops]
    exact .cons (reads_reg h₀ rfl) (.cons (reads_reg h₁ rfl) (.cons (reads_reg h₂ rfl) .nil))
  all_goals simp [hrow, DocRow.slots]

theorem reads_imm {v : Int} {d : BvInsn} (hv : -128 ≤ v ∧ v ≤ 127)
    (hd : d.imm = (DocOperand.imm v).tok.ival.setWidth 8) : Slot.imm.Reads offset d (.imm v) := by
  rw [Slot.Reads, hd]
  exact setWidth_ofInt_toInt hv.1 hv.2

theorem assembled_compare (hrow : i.row = .compare) : i.AssembledBy a offset := by
  obtain ⟨-, hcmp⟩ := i.mn_op_eq (congrArg DocRow.mnemonics hrow)
  have hop := i.opOf_mn (by simp [hrow])
  obtain ⟨n₀, h₀, n₁, h₁, o, ho, hops⟩ := i.operands_three (congrArg DocRow.slots hrow)
  obtain ⟨n₂, h₂, rfl⟩ := takes_reg_iff.mp ho
  intro rest line
  have hb : cmpSource (DocOperand.reg .s n₂).tok = some (regOperand .s n₂) := by
    rw [cmpSource, if_neg nofun, parseOperand_reg rfl h₂]
    exact if_neg (by simp [regOperand])
  have hword : insnWord a (i.head rest line) = _ :=
    insnWord_sources hop (by rw [hcmp]; decide) hops (parseOperand_reg rfl h₀) (by rw [hcmp]; rfl)
      (parseOperand_reg rfl h₁)
  rw [hcmp, sourcesWord_compare (i.nextSrc_eq hops) hb] at hword
  refine ⟨_, _, hword, i.readBack_bven (by rw [hcmp]) ?_ ?_ ?_ ?_ ?_⟩
  · rw [bvDecode_bven, hrow, hops]
    exact .cons (reads_reg h₀ rfl) (.cons (reads_reg h₁ rfl) (.cons (reads_reg h₂ rfl) .nil))
  all_goals simp [hrow, DocRow.slots]

theorem assembled_load (hrow : i.row = .load) : i.AssembledBy a offset := by
  obtain ⟨-, hload⟩ := i.mn_op_eq (congrArg DocRow.mnemonics hrow)
  have hop := i.opOf_mn (by simp [hrow])
  obtain ⟨n₀, h₀, n₁, h₁, o, ho, hops⟩ := i.operands_three (congrArg DocRow.slots hrow)
  obtain ⟨v, hv, rfl⟩ := takes_imm_iff.mp ho
  intro rest line
  have hword : insnWord a (i.head rest line) = _ :=
    insnWord_sources hop (by rw [hload]; decide) hops (parseOperand_reg rfl h₀) (by rw [hload]; rfl)
      (parseOperand_reg rfl h₁)
  rw [hload, sourcesWord_memory (i.nextSrc_eq hops) rfl rfl rfl rfl rfl rfl] at hword
  refine ⟨_, _, hword, i.readBack_bven (by rw [hload]) ?_ ?_ ?_ ?_ ?_⟩
  · rw [bvDecode_bven, hrow, hops]
    exact .cons (reads_reg h₀ rfl) (.cons (reads_reg h₁ rfl) (.cons (reads_imm hv rfl) .nil))
  all_goals simp [hrow, DocRow.slots]

theorem assembled_store (hrow : i.row = .store ∨ i.row = .vectorStore) :
    i.AssembledBy a offset := by
  obtain ⟨val, hslots, hstore, hval, hletter, hfacts⟩ : ∃ val : OperandClass,
      i.row.slots = [.reg .src1 .s, .reg .dst val, .imm] ∧ (i.op = .store ∨ i.op = .storev) ∧
        val = (if i.op = .storev then .v else .s) ∧ letterClass val.letter = val ∧
        i.op.HasSources ∧ i.op.isMemory = true ∧ i.op.dstClass = .s ∧ i.row ≠ .atomic := by
    have hmem := i.mem
    rcases hrow with hrow | hrow
    all_goals
      simp only [hrow, DocRow.mnemonics, List.mem_singleton, Prod.mk.injEq] at hmem
      rw [hmem.2, hrow]
    · exact ⟨.s, rfl, .inl rfl, rfl, rfl, by decide⟩
    · exact ⟨.v, rfl, .inr rfl, rfl, rfl, by decide⟩
  obtain ⟨hsources, hmem, hdst, hatomic⟩ := hfacts
  have hop := i.opOf_mn hatomic
  obtain ⟨n₀, h₀, n₁, h₁, o, ho, hops⟩ := i.operands_three hslots
  obtain ⟨v, hv, rfl⟩ := takes_imm_iff.mp ho
  intro rest line
  have hword : insnWord a (i.head rest line) = _ :=
    insnWord_sources hop hsources hops (parseOperand_reg rfl h₀) hdst.symm
      (parseOperand_reg hletter h₁)
  rw [sourcesWord_memory (i.nextSrc_eq hops) hmem (if_pos hstore) (if_pos hstore) rfl
    hval rfl] at hword
  refine ⟨_, _, hword, i.readBack_bven rfl ?_ ?_ ?_ ?_ ?_⟩
  · rw [bvDecode_bven, hslots, hops]
    exact .cons (reads_reg h₀ rfl) (.cons (reads_reg h₁ rfl) (.cons (reads_imm hv rfl) .nil))
  all_goals simp [hslots]

theorem assembled_immediate (hrow : i.row = .immediate) : i.AssembledBy a offset := by
  obtain ⟨hmn, haddi⟩ := i.mn_op_eq (congrArg DocRow.mnemonics hrow)
  have hmove : i.mn ≠ cstr "MOV" := by
    rw [hmn]
    decide
  have hop := i.opOf_mn (by simp [hrow])
  obtain ⟨n₀, h₀, n₁, h₁, o, ho, hops⟩ := i.operands_three (congrArg DocRow.slots hrow)
  obtain ⟨v, hv, rfl⟩ := takes_imm_iff.mp ho
  intro rest line
  have hword : insnWord a (i.head rest line) = _ :=
    insnWord_sources hop (by rw [haddi]; decide) hops (parseOperand_reg rfl h₀) (by rw [haddi]; rfl)
      (parseOperand_reg rfl h₁)
  rw [haddi, sourcesWord_immediate (i.nextSrc_eq hops) hmove rfl] at hword
  refine ⟨_, _, hword, i.readBack_bven (by rw [haddi]) ?_ ?_ ?_ ?_ ?_⟩
  · rw [bvDecode_bven, hrow, hops]
    exact .cons (reads_reg h₀ rfl) (.cons (reads_reg h₁ rfl) (.cons (reads_imm hv rfl) .nil))
  all_goals simp [hrow, DocRow.slots]

/-- `MOV` is `ADDi` with the immediate 0. -/
theorem assembled_move (hrow : i.row = .move) : i.AssembledBy a offset := by
  obtain ⟨hmn, haddi⟩ := i.mn_op_eq (congrArg DocRow.mnemonics hrow)
  have hop := i.opOf_mn (by simp [hrow])
  obtain ⟨n₀, h₀, n₁, h₁, hops⟩ := i.operands_two (congrArg DocRow.slots hrow)
  intro rest line
  have hword : insnWord a (i.head rest line) = _ :=
    insnWord_sources hop (by rw [haddi]; decide) hops (parseOperand_reg rfl h₀) (by rw [haddi]; rfl)
      (parseOperand_reg rfl h₁)
  rw [haddi, sourcesWord_move (i.nextSrc_eq hops) hmn] at hword
  refine ⟨_, _, hword, i.readBack_bven (by rw [haddi]) ?_ ?_ ?_ ?_ ?_⟩
  · rw [bvDecode_bven, hrow, hops]
    exact .cons (reads_reg h₀ rfl) (.cons (reads_reg h₁ rfl) .nil)
  all_goals simp [hrow, DocRow.slots]

theorem assembled_singleSource (hrow : i.row = .singleSource) : i.AssembledBy a offset := by
  have hfacts : ∀ e ∈ DocRow.singleSource.mnemonics, e.2.HasSources ∧ e.2.dstClass = .s ∧
      e.2 ≠ .cmp ∧ e.2.isMemory = false ∧ e.1 ≠ cstr "MOV" ∧ e.2 ≠ .addi ∧
        e.2.isOneSource = true := by
    decide
  obtain ⟨hsources, hdst, hcmp, hmem, hmn, haddi, hone⟩ := hfacts _ (hrow ▸ i.mem)
  have hop := i.opOf_mn (by simp [hrow])
  obtain ⟨n₀, h₀, n₁, h₁, hops⟩ := i.operands_two (congrArg DocRow.slots hrow)
  intro rest line
  have hword : insnWord a (i.head rest line) = _ :=
    insnWord_sources hop hsources hops (parseOperand_reg rfl h₀) hdst.symm (parseOperand_reg rfl h₁)
  rw [sourcesWord_oneSource hcmp hmem hmn haddi hone] at hword
  refine ⟨_, _, hword, i.readBack_bven rfl ?_ ?_ ?_ ?_ ?_⟩
  · rw [bvDecode_bven, hrow, hops]
    exact .cons (reads_reg h₀ rfl) (.cons (reads_reg h₁ rfl) .nil)
  all_goals simp [hrow, DocRow.slots]

theorem assembled_noOperand (hrow : i.row = .noOperand) : i.AssembledBy a offset := by
  have hfacts : ∀ e ∈ DocRow.noOperand.mnemonics, e.2.isPlain := by decide
  have hop := i.opOf_mn (by simp [hrow])
  have htakes := i.takes
  simp only [hrow, DocRow.slots, List.forall₂_nil_left_iff] at htakes
  intro rest line
  refine ⟨_, _, insnWord_plain hop (hfacts _ (hrow ▸ i.mem)), i.readBack_bven rfl ?_ ?_ ?_ ?_ ?_⟩
  · rw [hrow, htakes]
    exact .nil
  all_goals simp

theorem assembled_special (hrow : i.row = .special) : i.AssembledBy a offset := by
  have hfacts : ∀ e ∈ DocRow.special.mnemonics, e.2.isSpecial := by decide
  have hop := i.opOf_mn (by simp [hrow])
  have htakes := i.takes
  simp only [hrow, DocRow.slots, List.forall₂_cons_left_iff, List.forall₂_nil_left_iff,
    takes_reg_iff] at htakes
  obtain ⟨_, _, ⟨n₀, h₀, rfl⟩, rfl, hops⟩ := htakes
  intro rest line
  have hd : parseOperand (operandsLexer rest line i.operands).t = some (regOperand .s n₀) := by
    rw [hops]
    exact parseOperand_reg rfl h₀
  refine ⟨_, _, insnWord_special hop (hfacts _ (hrow ▸ i.mem)) hd rfl,
    i.readBack_bven rfl ?_ ?_ ?_ ?_ ?_⟩
  · rw [bvDecode_bven, hrow, hops]
    exact .cons (reads_reg h₀ rfl) .nil
  all_goals simp [hrow, DocRow.slots]

/-- A branch whose target is in the symbol table and in range. -/
theorem assembled_branch (hrow : i.row = .branch)
    (htarget : ∀ name, .label name ∈ i.operands → ∃ s, bFind a name.text = some s ∧
      offset name.text = some ((s.addr : Int) - (a.kpc + 1)) ∧ -128 ≤ (s.addr : Int) - (a.kpc + 1) ∧
        (s.addr : Int) - (a.kpc + 1) ≤ 127) : i.AssembledBy a offset := by
  have hfacts : ∀ e ∈ DocRow.branch.mnemonics, e.2.isJump := by decide
  have hop := i.opOf_mn (by simp [hrow])
  have htakes := i.takes
  simp only [hrow, DocRow.slots, List.forall₂_cons_left_iff, List.forall₂_nil_left_iff] at htakes
  obtain ⟨o, _, ho, rfl, hops⟩ := htakes
  intro rest line
  have hread (imm : BitVec 8) (himm : ∀ d : BvInsn, d.imm = imm → Slot.target.Reads offset d o)
      (hw : branchWord a (operandsLexer rest line i.operands) i.op.toByte i.predByte =
        .ok (bven i.op.toByte i.predByte 0 0 0 imm 0 0)) :
      ∃ lx' w, insnWord a (i.head rest line) = .ok (lx', w) ∧ i.ReadBack offset (bvDecode w) := by
    refine ⟨_, _, insnWord_jump hop (hfacts _ (hrow ▸ i.mem)) hw,
      i.readBack_bven rfl ?_ ?_ ?_ ?_ ?_⟩
    · rw [bvDecode_bven, hrow, hops]
      exact .cons (himm _ rfl) .nil
    all_goals simp [hrow, DocRow.slots]
  cases o with
  | reg => exact ho.elim
  | imm v =>
      refine hread ((DocOperand.imm v).tok.ival.setWidth 8) (fun d hd => ?_) (by rw [hops]; rfl)
      rw [Slot.Reads, hd]
      exact setWidth_ofInt_toInt ho.1 ho.2
  | label name =>
      obtain ⟨s, hfind, hoffset, hlo, hhi⟩ := htarget name (by simp [hops])
      refine hread (BitVec.ofInt 8 ((s.addr : Int) - (a.kpc + 1))) (fun d hd => ?_) ?_
      · rw [Slot.Reads, hd, toInt_ofInt_8 hlo hhi, hoffset]
      · have hkind : (operandsLexer rest line i.operands).t = ⟨.id, name.text, 0⟩ := by
          rw [hops]
          rfl
        simp only [branchWord, hkind, hfind]
        exact if_neg (by omega)

/-- The rows with an instruction behind them. -/
theorem DocInsn.assembledBy (hrow : i.row.assembled = true)
    (htarget : ∀ name, .label name ∈ i.operands → ∃ s, bFind a name.text = some s ∧
      offset name.text = some ((s.addr : Int) - (a.kpc + 1)) ∧ -128 ≤ (s.addr : Int) - (a.kpc + 1) ∧
        (s.addr : Int) - (a.kpc + 1) ≤ 127) : i.AssembledBy a offset := by
  cases h : i.row with
  | threeRegister => exact assembled_threeRegister h
  | immediate => exact assembled_immediate h
  | move => exact assembled_move h
  | singleSource => exact assembled_singleSource h
  | compare => exact assembled_compare h
  | load => exact assembled_load h
  | store => exact assembled_store (.inl h)
  | vectorStore => exact assembled_store (.inr h)
  | branch => exact assembled_branch h htarget
  | noOperand => exact assembled_noOperand h
  | special => exact assembled_special h
  | _ =>
      rw [h] at hrow
      cases hrow

section Refused

variable {rest : List Byte} {line : Nat}

/-- The table of opcodes has no row for `ATOMIC_ADD`. -/
theorem refused_atomic (hrow : i.row = .atomic) : ∀ r, insnWord a (i.head rest line) ≠ .ok r := by
  have hmem := i.mem
  simp only [hrow, DocRow.mnemonics, List.mem_singleton, Prod.mk.injEq] at hmem
  have hmn : (i.head rest line).t.text = cstr "ATOMIC_ADD" := hmem.1
  intro r
  simp only [insnWord, bind, Except.bind, parsePred_head, hmn, opOf_atomic]
  exact nofun

/-- The destination of `LOADV` has to be a vector and a scalar register. -/
theorem refused_vectorLoad (hrow : i.row = .vectorLoad) : ∀ r,
    insnWord a (i.head rest line) ≠ .ok r := by
  obtain ⟨-, hloadv⟩ := i.mn_op_eq (congrArg DocRow.mnemonics hrow)
  have hop := i.opOf_mn (by simp [hrow])
  have htakes := i.takes
  simp only [hrow, DocRow.slots, List.forall₂_cons_left_iff, takes_reg_iff] at htakes
  obtain ⟨_, _, ⟨n₀, h₀, rfl⟩, ⟨_, os, ⟨n₁, h₁, rfl⟩, -, rfl⟩, hops⟩ := htakes
  have hword : insnWord a (i.head rest line) = _ :=
    insnWord_sources hop (by rw [hloadv]; decide) hops (parseOperand_reg rfl h₀)
      (by rw [hloadv]; rfl) (parseOperand_reg rfl h₁)
  rw [hword, hloadv]
  exact sourcesWord_vectorLoad rfl

/-- The destination of the vector instructions has to be a scalar register. -/
theorem refused_vector (hrow : i.row = .vector ∨ i.row = .vectorScalar) :
    ∀ r, insnWord a (i.head rest line) ≠ .ok r := by
  have hfacts : ∀ e ∈ DocRow.vector.mnemonics ++ DocRow.vectorScalar.mnemonics,
      e.2.HasSources ∧ e.2.dstClass = .s := by
    decide
  have hmem : (i.mn, i.op) ∈ DocRow.vector.mnemonics ++ DocRow.vectorScalar.mnemonics := by
    rcases hrow with hrow | hrow
    · exact List.mem_append_left _ (hrow ▸ i.mem)
    · exact List.mem_append_right _ (hrow ▸ i.mem)
  have hslots : ∃ slots, i.row.slots = .reg .dst .v :: slots ∧ i.row ≠ .atomic := by
    rcases hrow with hrow | hrow <;> exact ⟨_, by rw [hrow, DocRow.slots], by rw [hrow]; decide⟩
  obtain ⟨slots, hslots, hatomic⟩ := hslots
  obtain ⟨hsources, hdst⟩ := hfacts _ hmem
  have htakes := i.takes
  rw [hslots] at htakes
  simp only [List.forall₂_cons_left_iff, takes_reg_iff] at htakes
  obtain ⟨_, os, ⟨n₀, h₀, rfl⟩, -, hops⟩ := htakes
  exact insnWord_badDestination (i.opOf_mn hatomic) hsources hops (parseOperand_reg rfl h₀)
    (by rw [hdst]; exact nofun)

theorem DocInsn.refused (hrow : i.row.assembled = false) : ∀ r,
    insnWord a (i.head rest line) ≠ .ok r := by
  cases h : i.row with
  | atomic => exact refused_atomic h
  | vectorLoad => exact refused_vectorLoad h
  | vector => exact refused_vector (.inl h)
  | vectorScalar => exact refused_vector (.inr h)
  | _ =>
      rw [h] at hrow
      cases hrow

end Refused

end ByRow

end BradVector
