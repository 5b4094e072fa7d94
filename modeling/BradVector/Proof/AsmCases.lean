import BradVector.Proof.Lines

/-!
# What the assembler accepts

Inversion of the second pass: the forms of an accepted instruction with the word each one emits, and
what a line does to the state of either pass.
-/

namespace BradVector

open CSem

/-! ### Operands -/

theorem parseReg_eq_some {t : Tok} {cls : OperandClass} {o : Operand}
    (h : parseReg t cls = some o) :
    t.kind = .id ∧ letterClass (t.text.headD 0) = cls ∧ (strtol (t.text.drop 1) 10).2 = [] ∧
      0 ≤ (strtol (t.text.drop 1) 10).1 ∧ (strtol (t.text.drop 1) 10).1 < cls.regs ∧
      o = ⟨true, cls, BitVec.ofInt 32 (strtol (t.text.drop 1) 10).1⟩ := by
  unfold parseReg at h
  dsimp only at h
  split_ifs at h with hkind hletter hrange
  obtain ⟨hstop, hnonneg, hlt⟩ := by simpa only [not_or, not_lt, not_le] using hrange
  exact ⟨not_ne_iff.mp hkind, not_ne_iff.mp hletter, not_ne_iff.mp hstop, hnonneg, hlt,
    (Option.some.inj h).symm⟩

/-- An operand is a number, or a register of the class of its letter. -/
inductive OperandForm (t : Tok) : Operand → Prop where
  | number (hkind : t.kind = .num) : OperandForm t ⟨false, .none, t.ival⟩
  | register (hkind : t.kind = .id) (hcls : letterClass (t.text.headD 0) ≠ .none)
      (hstop : (strtol (t.text.drop 1) 10).2 = []) (hnonneg : 0 ≤ (strtol (t.text.drop 1) 10).1)
      (hlt : (strtol (t.text.drop 1) 10).1 < (letterClass (t.text.headD 0)).regs) :
      OperandForm t ⟨true, letterClass (t.text.headD 0),
        BitVec.ofInt 32 (strtol (t.text.drop 1) 10).1⟩

theorem parseReg_form {t : Tok} {cls : OperandClass} {o : Operand} (hcls : cls ≠ .none)
    (h : parseReg t cls = some o) : OperandForm t o := by
  obtain ⟨hkind, rfl, hstop, hnonneg, hlt, rfl⟩ := parseReg_eq_some h
  exact .register hkind hcls hstop hnonneg hlt

theorem parseOperand_form {t : Tok} {o : Operand} (h : parseOperand t = some o) :
    OperandForm t o := by
  unfold parseOperand at h
  split at h
  · cases h
    exact .number ‹_›
  · simp only [Option.orElse_eq_orElse, Option.orElse_eq_or, Option.or_eq_some_iff] at h
    rcases h with h | ⟨-, h | ⟨-, h⟩⟩
    · exact parseReg_form (by decide) h
    · exact parseReg_form (by decide) h
    · exact parseReg_form (by decide) h
  · cases h

theorem OperandForm.kind {t : Tok} {o : Operand} (h : OperandForm t o) :
    t.kind = .num ∨ t.kind = .id := by
  cases h with
  | number hkind => exact Or.inl hkind
  | register hkind => exact Or.inr hkind

theorem not_atLineEnd_of_parseOperand {lx : Lexer} {o : Operand}
    (h : parseOperand lx.t = some o) : ¬ lx.AtLineEnd := by
  rintro (hend | hend) <;> rcases (parseOperand_form h).kind with hkind | hkind <;>
    simp [hend] at hkind

/-! ### Predication -/

/-- What `parse_pred` makes of the tokens behind a mnemonic. -/
inductive PredForm (lx : Lexer) : Lexer → BitVec 8 → Prop where
  | absent (hat : (lexTake lx).t.kind ≠ .at) : PredForm lx (lexTake lx) 0
  | present (hat : (lexTake lx).t.kind = .at) (hkind : (lexTake (lexTake lx)).t.kind = .id)
      (hletter : (lexTake (lexTake lx)).t.text.headD 0 = ch 'P')
      (hstop : (strtol ((lexTake (lexTake lx)).t.text.drop 1) 10).2 = [])
      (hnonneg : 0 ≤ (strtol ((lexTake (lexTake lx)).t.text.drop 1) 10).1)
      (hlt : (strtol ((lexTake (lexTake lx)).t.text.drop 1) 10).1 < predRegs) :
      PredForm lx (nextSrc (lexTake (lexTake lx)))
        (BitVec.ofInt 8 (strtol ((lexTake (lexTake lx)).t.text.drop 1) 10).1 + 1)

theorem parsePred_form {a : BradcAsm} {lx lx' : Lexer} {pred : BitVec 8}
    (h : parsePred a lx = .ok (lx', pred)) : PredForm lx lx' pred := by
  unfold parsePred bErr at h
  dsimp only at h
  split_ifs at h with hat hkind hrange
  · cases h
    exact .absent hat
  · obtain ⟨hkind, hletter⟩ := by simpa only [not_or, not_not] using hkind
    obtain ⟨hstop, hnonneg, hlt⟩ := by simpa only [not_or, not_lt, not_le, not_not] using hrange
    cases h
    exact .present (not_ne_iff.mp hat) hkind hletter hstop hnonneg hlt

theorem PredForm.skipLine_eq {lx lx' : Lexer} {pred : BitVec 8} (h : PredForm lx lx' pred)
    (hline : ¬ lx.AtLineEnd) : skipLine lx' = skipLine lx := by
  cases h with
  | absent => exact skipLine_lexTake hline
  | present hat hkind =>
      rw [skipLine_nextSrc (by simp [Lexer.AtLineEnd, hkind]),
        skipLine_lexTake (by simp [Lexer.AtLineEnd, hat]), skipLine_lexTake hline]

/-! ### Instructions -/

/-- The forms of an instruction with a destination `d` and a first source `a1` on the current
token. -/
inductive SourcesForm (lx : Lexer) (mn : List Byte) (op : Opcode) (pred : BitVec 8)
    (d a1 : Operand) : Lexer → BitVec 64 → Prop where
  | compare {b2 : Operand} (hop : op = .cmp) (hb : cmpSource (nextSrc lx).t = some b2) :
      SourcesForm lx mn op pred d a1 (nextSrc lx)
        (bven op.toByte pred d.byte a1.byte b2.byte 0 0 0)
  | load (hop : op = .load ∨ op = .loadv) (hbase : a1.cls = .s)
      (hval : d.cls = .s) (hnum : (nextSrc lx).t.kind = .num) :
      SourcesForm lx mn op pred d a1 (nextSrc lx)
        (bven op.toByte pred d.byte a1.byte 0 ((nextSrc lx).t.ival.setWidth 8) 0 0)
  | store (hop : op = .store ∨ op = .storev) (hbase : d.cls = .s)
      (hval : a1.cls = if op = .storev then .v else .s) (hnum : (nextSrc lx).t.kind = .num) :
      SourcesForm lx mn op pred d a1 (nextSrc lx)
        (bven op.toByte pred a1.byte d.byte 0 ((nextSrc lx).t.ival.setWidth 8) 0 0)
  | move (hmn : mn = cstr "MOV") :
      SourcesForm lx mn op pred d a1 (nextSrc lx)
        (bven Opcode.addi.toByte pred d.byte a1.byte 0 0 0 0)
  | immediate (hop : op = .addi) (hmn : mn ≠ cstr "MOV") (hnum : (nextSrc lx).t.kind = .num) :
      SourcesForm lx mn op pred d a1 (nextSrc lx)
        (bven op.toByte pred d.byte a1.byte 0 ((nextSrc lx).t.ival.setWidth 8) 0 0)
  | oneSource (hop : op.isOneSource = true) :
      SourcesForm lx mn op pred d a1 lx (bven op.toByte pred d.byte a1.byte 0 0 0 0)
  | twoSources {a2 : Operand} (hcmp : op ≠ .cmp) (hmem : op.isMemory = false) (haddi : op ≠ .addi)
      (hone : op.isOneSource = false) (hnum : (nextSrc lx).t.kind ≠ .num)
      (hparse : parseOperand (nextSrc lx).t = some a2)
      (hcls : a2.cls = if op.isVector = true ∧ op ≠ .vbroadcast then .v else .s) :
      SourcesForm lx mn op pred d a1 (nextSrc lx)
        (bven op.toByte pred d.byte a1.byte a2.byte 0 0 0)

theorem SourcesForm.skipLine_eq {lx lx' : Lexer} {mn : List Byte} {op : Opcode} {pred : BitVec 8}
    {d a1 : Operand} {w : BitVec 64} (h : SourcesForm lx mn op pred d a1 lx' w)
    (hline : ¬ lx.AtLineEnd) : skipLine lx' = skipLine lx := by
  cases h with
  | oneSource => rfl
  | _ => exact skipLine_nextSrc hline

/-- The opcodes of the table, as far as the cases of the assembler tell them apart. -/
theorem mem_of_opOf {mn : List Byte} {op : Opcode} (h : opOf mn = some op) :
    op ∈ optab.map Prod.snd := by
  obtain ⟨e, he, rfl⟩ := Option.map_eq_some_iff.mp h
  exact List.mem_map_of_mem (List.mem_of_find?_eq_some he)

theorem memory_of_opOf {mn : List Byte} {op : Opcode} (h : opOf mn = some op)
    (hmem : op.isMemory = true) : op = .load ∨ op = .loadv ∨ op = .store ∨ op = .storev := by
  have hall : ∀ op ∈ optab.map Prod.snd, op.isMemory = true →
      op = .load ∨ op = .loadv ∨ op = .store ∨ op = .storev := by decide
  exact hall op (mem_of_opOf h) hmem

theorem sourcesWord_form {a : BradcAsm} {lx lx' : Lexer} {mn : List Byte} {op : Opcode}
    {pred : BitVec 8} {d a1 : Operand} {w : BitVec 64} (hop : opOf mn = some op)
    (h : sourcesWord a lx mn op pred d a1 = .ok (lx', w)) :
    SourcesForm lx mn op pred d a1 lx' w := by
  unfold sourcesWord bErr at h
  dsimp only at h
  by_cases hcmp : op = .cmp
  · rw [if_pos hcmp] at h
    split at h
    · cases h
    · cases h
      exact .compare hcmp ‹_›
  rw [if_neg hcmp] at h
  by_cases hmem : op.isMemory = true
  · rw [if_pos hmem] at h
    by_cases hstore : op = .store ∨ op = .storev
    · simp only [if_pos hstore] at h
      by_cases hbase : d.cls = .s
      swap
      · simp [hbase] at h
      by_cases hval : a1.cls = if op = .storev then .v else .s
      swap
      · simp [hbase, hval] at h
      by_cases hnum : (nextSrc lx).t.kind = .num
      swap
      · simp [hbase, ← hval, hnum] at h
      simp only [hbase, ← hval, hnum, ne_eq, not_true_eq_false, if_false] at h
      cases h
      exact .store hstore hbase hval hnum
    · have hstorev : op ≠ .storev := fun h => hstore (Or.inr h)
      have hload : op = .load ∨ op = .loadv := by
        rcases memory_of_opOf hop hmem with h | h | h | h <;> simp_all
      simp only [if_neg hstore, if_neg hstorev] at h
      split_ifs at h with hbase hval hnum
      cases h
      exact .load hload (not_ne_iff.mp hbase) (not_ne_iff.mp hval) (not_ne_iff.mp hnum)
  rw [if_neg hmem] at h
  by_cases hmov : mn = cstr "MOV"
  · rw [if_pos hmov] at h
    cases h
    exact .move hmov
  rw [if_neg hmov] at h
  by_cases haddi : op = .addi
  · rw [if_pos haddi] at h
    split_ifs at h with hnum
    cases h
    exact .immediate haddi hmov (not_ne_iff.mp hnum)
  rw [if_neg haddi] at h
  by_cases hone : op.isOneSource = true
  · rw [if_pos hone] at h
    cases h
    exact .oneSource hone
  rw [if_neg hone] at h
  by_cases hnum : (nextSrc lx).t.kind = .num
  · rw [if_pos hnum] at h
    cases h
  rw [if_neg hnum] at h
  split at h
  · cases h
  · rename_i a2 hparse
    by_cases hcls : a2.cls = if op.isVector = true ∧ op ≠ .vbroadcast then .v else .s
    · rw [if_neg (not_not.mpr hcls)] at h
      cases h
      exact .twoSources hcmp (by simpa using hmem) haddi (by simpa using hone) hnum hparse hcls
    · rw [if_pos hcls] at h
      cases h

/-- The opcodes without operands, the jumps, and those with a destination only. -/
abbrev Opcode.isPlain (op : Opcode) : Prop := op = .ret ∨ op = .exit ∨ op = .bar ∨ op = .trap
abbrev Opcode.isJump (op : Opcode) : Prop := op = .br ∨ op = .brCond ∨ op = .call
abbrev Opcode.isSpecial (op : Opcode) : Prop := op = .laneId ∨ op = .warpSz ∨ op = .clock

/-- The forms of an instruction, the lexer behind the predicate. -/
inductive InsnForm (a : BradcAsm) (lx : Lexer) (mn : List Byte) (op : Opcode) (pred : BitVec 8) :
    Lexer → BitVec 64 → Prop where
  | plain (hop : op.isPlain) : InsnForm a lx mn op pred lx (bven op.toByte pred 0 0 0 0 0 0)
  | jump {w : BitVec 64} (hop : op.isJump) (hw : branchWord a lx op.toByte pred = .ok w) :
      InsnForm a lx mn op pred lx w
  | special {d : Operand} (hop : op.isSpecial) (hparse : parseOperand lx.t = some d)
      (hcls : d.cls = .s) : InsnForm a lx mn op pred lx (bven op.toByte pred d.byte 0 0 0 0 0)
  | sources {d a1 : Operand} {lx' : Lexer} {w : BitVec 64} (hplain : ¬ op.isPlain)
      (hjump : ¬ op.isJump) (hspecial : ¬ op.isSpecial) (hparse : parseOperand lx.t = some d)
      (hcls : d.cls = op.dstClass) (hparse' : parseOperand (nextSrc lx).t = some a1)
      (hform : SourcesForm (nextSrc lx) mn op pred d a1 lx' w) :
      InsnForm a lx mn op pred lx' w

/-- The forms of an accepted instruction line. -/
theorem insnWord_form {a : BradcAsm} {lx lx' : Lexer} {w : BitVec 64}
    (h : insnWord a lx = .ok (lx', w)) :
    ∃ op pred start, opOf lx.t.text = some op ∧ PredForm lx start pred ∧
      InsnForm a start lx.t.text op pred lx' w := by
  unfold insnWord at h
  cases hpred : parsePred a lx with
  | error e => simp [hpred, bind, Except.bind] at h
  | ok r =>
      obtain ⟨start, pred⟩ := r
      have hform := parsePred_form hpred
      simp only [hpred, bind, Except.bind, bErr] at h
      cases hop : opOf lx.t.text with
      | none => simp [hop] at h
      | some op =>
          simp only [hop] at h
          refine ⟨op, pred, start, rfl, hform, ?_⟩
          by_cases hplain : op.isPlain
          · rw [if_pos hplain] at h
            cases h
            exact .plain hplain
          rw [if_neg hplain] at h
          by_cases hjump : op.isJump
          · rw [if_pos hjump] at h
            cases hw : branchWord a start op.toByte pred with
            | error e => simp [hw] at h
            | ok w' =>
                simp only [hw] at h
                cases h
                exact .jump hjump hw
          rw [if_neg hjump] at h
          by_cases hspecial : op.isSpecial
          · rw [if_pos hspecial] at h
            split at h
            · cases h
            · split_ifs at h with hcls
              cases h
              exact .special hspecial ‹_› (not_ne_iff.mp hcls)
          rw [if_neg hspecial] at h
          split at h
          · cases h
          · split_ifs at h with hcls
            · split at h
              · cases h
              · exact .sources hplain hjump hspecial ‹_› (not_ne_iff.mp hcls) ‹_›
                  (sourcesWord_form hop h)

theorem insnWord_skipLine {a : BradcAsm} {lx lx' : Lexer} {w : BitVec 64}
    (h : insnWord a lx = .ok (lx', w)) (hline : ¬ lx.AtLineEnd) :
    skipLine lx' = skipLine lx := by
  obtain ⟨op, pred, start, -, hpred, hform⟩ := insnWord_form h
  rw [← hpred.skipLine_eq hline]
  cases hform with
  | plain => rfl
  | jump => rfl
  | special => rfl
  | sources _ _ _ hparse _ hparse' hform =>
      rw [hform.skipLine_eq (not_atLineEnd_of_parseOperand hparse'),
        skipLine_nextSrc (not_atLineEnd_of_parseOperand hparse)]

end BradVector
