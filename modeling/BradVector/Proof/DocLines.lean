import BradVector.Proof.DocForms
import BradVector.Proof.PassTraces

/-!
# The lines of a documented kernel

Where the lexer stands at every line of a kernel written in the documented forms, and what it takes
from there.
-/

namespace BradVector

open CSem

/-! ### The operands of a line -/

/-- The lexer on the first of the operands. -/
def operandsLexer (rest : List Byte) (line : Nat) : List DocOperand → Lexer
  | [] => ⟨rest, line + 1, .plain .nl⟩
  | o :: os => ⟨moreText os ++ ch '\n' :: rest, line, o.tok⟩

section Operands

variable {rest : List Byte} {line : Nat} {t : Tok}

theorem endsToken_moreText (os : List DocOperand) : EndsToken (moreText os ++ ch '\n' :: rest) := by
  cases os with
  | nil => exact show isIdChar (ch '\n') = false by decide
  | cons o os => exact show isIdChar (ch ',') = false by decide

theorem DocOperand.tok_kind (o : DocOperand) : o.tok.kind = .id ∨ o.tok.kind = .num := by
  cases o with
  | imm v => exact .inr rfl
  | _ => exact .inl rfl

theorem DocOperand.tok_kind_ne (o : DocOperand) :
    o.tok.kind ≠ .comma ∧ o.tok.kind ≠ .colon ∧ o.tok.kind ≠ .at ∧ o.tok.kind ≠ .nl ∧
      o.tok.kind ≠ .eof := by
  rcases o.tok_kind with h | h <;> simp [h]

theorem operandsLexer_kind_ne (os : List DocOperand) :
    (operandsLexer rest line os).t.kind ≠ .comma ∧ (operandsLexer rest line os).t.kind ≠ .colon ∧
      (operandsLexer rest line os).t.kind ≠ .at := by
  cases os with
  | nil => exact ⟨nofun, nofun, nofun⟩
  | cons o os => exact ⟨o.tok_kind_ne.1, o.tok_kind_ne.2.1, o.tok_kind_ne.2.2.1⟩

theorem lexTake_operandsText {os : List DocOperand} (hos : ∀ o ∈ os, o.Small) :
    lexTake ⟨operandsText os ++ ch '\n' :: rest, line, t⟩ = operandsLexer rest line os := by
  cases os with
  | nil => rfl
  | cons o os =>
      rw [operandsText, List.append_assoc]
      exact lexTake_operand (hos o List.mem_cons_self) (endsToken_moreText os)

theorem nextSrc_operandsText {os : List DocOperand} (hos : ∀ o ∈ os, o.Small) :
    nextSrc ⟨operandsText os ++ ch '\n' :: rest, line, t⟩ = operandsLexer rest line os := by
  rw [nextSrc, lexTake_operandsText hos]
  exact if_neg (operandsLexer_kind_ne os).1

theorem nextSrc_moreText {os : List DocOperand} (hos : ∀ o ∈ os, o.Small) :
    nextSrc ⟨moreText os ++ ch '\n' :: rest, line, t⟩ = operandsLexer rest line os := by
  cases os with
  | nil => rfl
  | cons o os =>
      have htext : moreText (o :: os) ++ ch '\n' :: rest =
          ch ',' :: (operandsText (o :: os) ++ ch '\n' :: rest) := by
        simp [moreText, operandsText]
      rw [htext, nextSrc, lexTake_comma]
      exact lexTake_operandsText hos

theorem skipLine_operandsLexer {os : List DocOperand} (hos : ∀ o ∈ os, o.Small) :
    skipLine (operandsLexer rest line os) = lexTake ⟨rest, line + 1, .plain .nl⟩ := by
  induction os with
  | nil => exact skipLine_of_nl rfl
  | cons o os ih =>
      have hos' : ∀ o ∈ os, o.Small := fun o ho => hos o (List.mem_cons_of_mem _ ho)
      have hline : ¬ (operandsLexer rest line (o :: os)).AtLineEnd := by
        rintro (h | h)
        · exact o.tok_kind_ne.2.2.2.1 h
        · exact o.tok_kind_ne.2.2.2.2 h
      rw [← skipLine_nextSrc hline, operandsLexer, nextSrc_moreText hos', ih hos']

end Operands

/-! ### The heads of the lines -/

/-- What is behind the mnemonic. -/
def DocInsn.tail (i : DocInsn) : List Byte := predText i.pred ++ operandsText i.operands

/-- The lexer on the mnemonic, with `rest` behind the line. -/
def DocInsn.head (i : DocInsn) (rest : List Byte) (line : Nat) : Lexer :=
  ⟨i.tail ++ ch '\n' :: rest, line, ⟨.id, i.mn, 0⟩⟩

/-- The PRED field. -/
def DocInsn.predByte (i : DocInsn) : BitVec 8 :=
  match i.pred with
  | none => 0
  | some p => BitVec.ofInt 8 (p : Nat) + 1

theorem DocInsn.small (i : DocInsn) : ∀ o ∈ i.operands, o.Small := by
  intro o ho
  obtain ⟨n, hn, rfl⟩ := List.mem_iff_getElem.mp ho
  have hlen := i.takes.length_eq
  exact (i.takes.get (by omega) hn).small

section Heads

variable {rest : List Byte} {line : Nat}

theorem endsToken_operandsText (os : List DocOperand) :
    EndsToken (operandsText os ++ ch '\n' :: rest) := by
  cases os with
  | nil => exact show isIdChar (ch '\n') = false by decide
  | cons o os => exact show isIdChar (ch ' ') = false by decide

theorem endsToken_tail (i : DocInsn) : EndsToken (i.tail ++ ch '\n' :: rest) := by
  unfold DocInsn.tail predText
  cases i.pred with
  | none => exact endsToken_operandsText i.operands
  | some p => exact show isIdChar (ch '@') = false by decide

/-- The tokens of a predicate. -/
theorem lexTake_pred (p : Fin predRegs) (os : List DocOperand) (t : Tok) :
    lexTake ⟨ch 'P' :: decimal (p : Nat) ++ (operandsText os ++ ch '\n' :: rest), line, t⟩ =
      ⟨operandsText os ++ ch '\n' :: rest, line, ⟨.id, ch 'P' :: decimal (p : Nat), 0⟩⟩ := by
  have hp : (p : Nat) < 10 ^ 3 := p.isLt.trans (by decide)
  exact lexTake_indexed (by decide) hp (endsToken_operandsText os)

theorem strtol_index (n : Nat) (hn : n < 10 ^ 3) : strtol (decimal n) 10 = ((n : Int), []) := by
  have hmin : longMin ≤ (n : Int) := by
    unfold longMin
    omega
  have hmax : (n : Int) ≤ longMax := by
    unfold longMax
    omega
  have hend : EndsNumeral [] := show isAlnum 0 = false by decide
  have hread := strtol_decimal (.inr rfl) hmin hmax hend
  rwa [List.append_nil] at hread

theorem parsePred_head (a : BradcAsm) (i : DocInsn) :
    parsePred a (i.head rest line) = .ok (operandsLexer rest line i.operands, i.predByte) := by
  unfold DocInsn.head DocInsn.tail DocInsn.predByte
  cases hpred : i.pred with
  | none =>
      rw [parsePred, predText, List.nil_append, lexTake_operandsText i.small]
      exact if_pos (operandsLexer_kind_ne i.operands).2.2
  | some p =>
      have hp : (p : Nat) < 10 ^ 3 := p.isLt.trans (by decide)
      have hstrtol : Libc.strtol ((ch 'P' :: decimal (p : Nat)).drop 1) 10 =
          (((p : Nat) : Int), []) :=
        strtol_index p hp
      have htext : predText (some p) ++ operandsText i.operands ++ ch '\n' :: rest =
          ch '@' :: (ch 'P' :: decimal (p : Nat) ++
            (operandsText i.operands ++ ch '\n' :: rest)) := by
        simp [predText]
      rw [parsePred, htext, lexTake_at]
      dsimp only
      rw [lexTake_pred, if_neg (by decide), if_neg (by simp), hstrtol,
        nextSrc_operandsText i.small]
      exact if_neg (by simp)

theorem skipLine_head (i : DocInsn) :
    skipLine (i.head rest line) = lexTake ⟨rest, line + 1, .plain .nl⟩ := by
  have hhead : ¬ (i.head rest line).AtLineEnd := by
    rintro (h | h) <;> cases h
  rw [← skipLine_operandsLexer i.small]
  unfold DocInsn.head DocInsn.tail at hhead ⊢
  rw [← skipLine_lexTake hhead]
  cases hpred : i.pred with
  | none => rw [predText, List.nil_append, lexTake_operandsText i.small]
  | some p =>
      have htext : predText (some p) ++ operandsText i.operands ++ ch '\n' :: rest =
          ch '@' :: (ch 'P' :: decimal (p : Nat) ++
            (operandsText i.operands ++ ch '\n' :: rest)) := by
        simp [predText]
      rw [htext, lexTake_at, ← skipLine_lexTake (by rintro (h | h) <;> cases h), lexTake_pred,
        ← skipLine_nextSrc (by rintro (h | h) <;> cases h), nextSrc_operandsText i.small]

theorem isWord_mnemonic (row : DocRow) : (row.mnemonics.all fun e => isWord e.1) = true := by
  cases row <;> decide

theorem DocInsn.word (i : DocInsn) : isWord i.mn = true :=
  List.all_eq_true.mp (isWord_mnemonic i.row) _ i.mem

def DocLine.head (rest : List Byte) (line : Nat) : DocLine → Lexer
  | .label name => ⟨ch ':' :: ch '\n' :: rest, line, ⟨.id, name.text, 0⟩⟩
  | .insn i => i.head rest line

/-- The lexer on the dot of `.kernel`. -/
def kernelHead (k : Ident) (rest : List Byte) : Lexer :=
  ⟨cstr "kernel " ++ (k.text ++ ch '\n' :: rest), 1, .plain .dot⟩

def endHead (line : Nat) : Lexer := ⟨cstr "end\n", line, .plain .dot⟩

/-- The heads of lines with the end of the kernel behind them. -/
def docHeads : List DocLine → Nat → List Lexer
  | [], line => [endHead line]
  | l :: lines, line => l.head (docText lines ++ cstr ".end\n") line :: docHeads lines (line + 1)

theorem DocLine.head_not_atLineEnd (l : DocLine) : ¬ (l.head rest line).AtLineEnd := by
  cases l <;> rintro (h | h) <;> cases h

theorem lexTake_line (l : DocLine) (t : Tok) : lexTake ⟨l.text ++ rest, line, t⟩ =
    l.head rest line := by
  cases l with
  | label name =>
      have htext : cstr ":\n" = [ch ':', ch '\n'] := by decide
      rw [DocLine.text, htext, List.append_assoc]
      exact lexTake_word name.word (show isIdChar (ch ':') = false by decide)
  | insn i =>
      have htext : i.text ++ rest = i.mn ++ (i.tail ++ ch '\n' :: rest) := by
        simp [DocInsn.text, DocInsn.tail]
      rw [DocLine.text, htext]
      exact lexTake_word i.word (endsToken_tail i)

theorem skipLine_lineHead (l : DocLine) :
    skipLine (l.head rest line) = lexTake ⟨rest, line + 1, .plain .nl⟩ := by
  cases l with
  | label name =>
      rw [← skipLine_lexTake (DocLine.head_not_atLineEnd _), DocLine.head, lexTake_colon,
        ← skipLine_lexTake (by rintro (h | h) <;> cases h), lexTake_newline]
      exact skipLine_of_nl rfl
  | insn i => exact skipLine_head i

theorem lexTake_end (t : Tok) : lexTake ⟨cstr ".end\n", line, t⟩ = endHead line := by
  have htext : cstr ".end\n" = ch '.' :: cstr "end\n" := by decide
  rw [htext, lexTake_dot]
  rfl

theorem cstr_end : cstr "end\n" = cstr "end" ++ [ch '\n'] := by decide

theorem lexTake_endHead : lexTake (endHead line) = ⟨[ch '\n'], line, ⟨.id, cstr "end", 0⟩⟩ := by
  rw [endHead, cstr_end]
  exact lexTake_word (by decide)
    (show isIdChar (ch '\n') = false by decide)

theorem lexTake_kernelHead (k : Ident) :
    lexTake (kernelHead k rest) =
      ⟨ch ' ' :: (k.text ++ ch '\n' :: rest), 1, ⟨.id, cstr "kernel", 0⟩⟩ := by
  have htext : cstr "kernel " = cstr "kernel" ++ [ch ' '] := by decide
  rw [kernelHead, htext, List.append_assoc]
  exact lexTake_word (by decide)
    (show isIdChar (ch ' ') = false by decide)

theorem lexTake_kernelName (k : Ident) (t : Tok) :
    lexTake ⟨ch ' ' :: (k.text ++ ch '\n' :: rest), line, t⟩ =
      ⟨ch '\n' :: rest, line, ⟨.id, k.text, 0⟩⟩ := by
  rw [lexTake_blank]
  exact lexTake_word k.word (show isIdChar (ch '\n') = false by decide)

theorem skipLine_kernelHead (k : Ident) :
    skipLine (kernelHead k rest) = lexTake ⟨rest, 2, .plain .nl⟩ := by
  rw [← skipLine_lexTake (by rintro (h | h) <;> cases h), lexTake_kernelHead,
    ← skipLine_lexTake (by rintro (h | h) <;> cases h), lexTake_kernelName,
    ← skipLine_lexTake (by rintro (h | h) <;> cases h), lexTake_newline]
  exact skipLine_of_nl rfl

theorem skipLine_endHead : (skipLine (endHead line)).t.kind = .eof := by
  rw [← skipLine_lexTake (by rintro (h | h) <;> cases h), lexTake_endHead,
    ← skipLine_lexTake (by rintro (h | h) <;> cases h), lexTake_newline, skipLine_of_nl rfl]
  rfl

/-! ### The lines of the source -/

/-- The lines from a cursor on, with fuel to spare. -/
def linesOf (lx : Lexer) : List Lexer := linesFrom (lx.room + 1) lx

theorem linesOf_of_line {lx : Lexer} (h : ¬ lx.AtLineEnd) :
    linesOf lx = lx :: linesOf (skipLine lx) := by
  have hlt := skipLine_room_lt (not_or.mp h).2
  rw [linesOf, linesFrom_of_line h, linesFrom_eq hlt (Nat.lt_succ_self _)]
  rfl

theorem linesOf_docText (lines : List DocLine) (line : Nat) (t : Tok) :
    linesOf (lexTake ⟨docText lines ++ cstr ".end\n", line, t⟩) = docHeads lines line := by
  induction lines generalizing line t with
  | nil =>
      have hend : ¬ (endHead line).AtLineEnd := by rintro (h | h) <;> cases h
      rw [docText, List.flatMap_nil, List.nil_append, lexTake_end, linesOf_of_line hend, linesOf,
        linesFrom_of_eof skipLine_endHead]
      rfl
  | cons l lines ih =>
      have htext : docText (l :: lines) ++ cstr ".end\n" =
          l.text ++ (docText lines ++ cstr ".end\n") := by
        simp [docText]
      rw [htext, lexTake_line, linesOf_of_line l.head_not_atLineEnd, skipLine_lineHead, ih]
      rfl

theorem sourceLines_kernelText (k : Ident) (lines : List DocLine) :
    sourceLines (kernelText k lines) =
      kernelHead k (docText lines ++ cstr ".end\n") :: docHeads lines 2 := by
  have htext : cstr ".kernel " = ch '.' :: cstr "kernel " := by decide
  have hstart : lexTake (lxInit (kernelText k lines)) = kernelHead k
      (docText lines ++ cstr ".end\n") := by
    rw [lxInit, kernelText, htext, List.append_assoc, List.cons_append, lexTake_dot]
    rfl
  have hkernel : ¬ (kernelHead k (docText lines ++ cstr ".end\n")).AtLineEnd := by
    rintro (h | h) <;> cases h
  have hlines : sourceLines (kernelText k lines) = linesOf
      (lexTake (lxInit (kernelText k lines))) :=
    linesFrom_eq (room_lt_passFuel _) (Nat.lt_succ_self _)
  rw [hlines, hstart, linesOf_of_line hkernel, skipLine_kernelHead, linesOf_docText]

end Heads

end BradVector
