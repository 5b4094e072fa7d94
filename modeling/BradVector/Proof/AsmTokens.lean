import BradVector.Bradasm
import Mathlib.Logic.Relation

/-!
# The tokens of a source

The tokenizer of `bradasm` takes a byte with every token but the last, so that both passes run to
the end of the text; the operands of a statement are taken from the line it stands on.
-/

namespace BradVector.Bradasm

open CSem CSem.Machine

/-! ### Progress of the tokenizer -/

theorem takeNumber_length_pos {c : Byte} {rest : List Byte}
    (hdir : ¬ (c = ch '.' ∧ rest.headD 0 ≠ 0)) (hfirst : c = ch '.' ∨ isDigit c = true) :
    0 < (takeNumber (c :: rest)).length := by
  have hstart : isDigit c = true ∨ c = ch '.' ∧ rest.headD 0 ≠ ch '.' := by
    rcases hfirst with rfl | hdigit
    · have hnul : rest.headD 0 = 0 := by
        by_contra hne
        exact hdir ⟨rfl, hne⟩
      refine .inr ⟨rfl, ?_⟩
      rw [hnul]
      decide
    · exact .inl hdigit
  rw [takeNumber, if_pos hstart]
  exact Nat.succ_pos _

theorem takeWord_length_pos {c : Byte} (rest : List Byte)
    (hfirst : isAlpha c = true ∨ c = ch '_') :
    0 < (((c :: rest).takeWhile isWordChar).take (tokTextSize - 1)).length := by
  have hword : isWordChar c = true := by
    rcases hfirst with h | rfl
    · simp [isWordChar, isAlnum, h]
    · rfl
  rw [List.takeWhile_cons_of_pos hword]
  simp [tokTextSize]

/-- No byte is given back from `lx` to `lx'`, and one is taken unless the text is at its end. -/
structure Lexer.Advances (lx lx' : Lexer) : Prop where
  le : lx'.p.length ≤ lx.p.length
  lt : lx'.tok.kind ≠ .eof → lx'.p.length < lx.p.length

theorem Lexer.Advances.of_lt {lx lx' : Lexer} (h : lx'.p.length < lx.p.length) : lx.Advances lx' :=
  ⟨h.le, fun _ => h⟩

theorem Lexer.Advances.of_eof {lx lx' : Lexer} (hlen : lx'.p.length ≤ lx.p.length)
    (heof : lx'.tok.kind = .eof) : lx.Advances lx' :=
  ⟨hlen, fun h => absurd heof h⟩

theorem lexNext_advances (lx : Lexer) : lx.Advances (lexNext lx) := by
  have hblank : (lexSkipWs lx.p).length ≤ lx.p.length := (List.dropWhile_sublist _).length_le
  unfold lexNext
  generalize lexSkipWs lx.p = s at hblank
  cases s with
  | nil => exact .of_eof (Nat.zero_le _) rfl
  | cons c rest =>
      have hrest : rest.length < lx.p.length := hblank
      dsimp only
      by_cases h0 : c = 0
      · rw [if_pos h0]
        exact .of_eof hblank rfl
      rw [if_neg h0]
      by_cases hnl : c = ch '\n'
      · rw [if_pos hnl]
        exact .of_lt hrest
      rw [if_neg hnl]
      by_cases hcomment : c = ch ';'
      · rw [if_pos hcomment]
        have hdrop : ((c :: rest).dropWhile fun b => decide (b ≠ 0 ∧ b ≠ ch '\n')).length ≤
            rest.length := by
          rw [List.dropWhile_cons_of_pos (by simpa using ⟨h0, hnl⟩)]
          exact (List.dropWhile_sublist _).length_le
        generalize (c :: rest).dropWhile _ = tail at hdrop
        cases tail with
        | nil => exact .of_lt ((Nat.zero_le _).trans_lt hrest)
        | cons b after =>
            dsimp only
            split_ifs
            · exact .of_lt ((Nat.lt_of_succ_le hdrop).trans hrest)
            · exact .of_lt (hdrop.trans_lt hrest)
      rw [if_neg hcomment]
      by_cases hcolon : c = ch ':'
      · rw [if_pos hcolon]
        exact .of_lt hrest
      rw [if_neg hcolon]
      by_cases hcomma : c = ch ','
      · rw [if_pos hcomma]
        exact .of_lt hrest
      rw [if_neg hcomma]
      by_cases hlbrack : c = ch '['
      · rw [if_pos hlbrack]
        exact .of_lt hrest
      rw [if_neg hlbrack]
      by_cases hrbrack : c = ch ']'
      · rw [if_pos hrbrack]
        exact .of_lt hrest
      rw [if_neg hrbrack]
      by_cases hplus : c = ch '+'
      · rw [if_pos hplus]
        exact .of_lt hrest
      rw [if_neg hplus]
      by_cases hminus : c = ch '-'
      · rw [if_pos hminus]
        exact .of_lt hrest
      rw [if_neg hminus]
      by_cases hdir : c = ch '.' ∧ rest.headD 0 ≠ 0
      · rw [if_pos hdir]
        refine .of_lt ?_
        rw [List.length_drop]
        exact (Nat.sub_le _ _).trans_lt hrest
      rw [if_neg hdir]
      by_cases hnum : c = ch '.' ∨ isDigit c = true
      · rw [if_pos hnum]
        have hpos := takeNumber_length_pos hdir hnum
        refine .of_lt ?_
        rw [List.length_drop]
        rw [List.length_cons] at hblank ⊢
        omega
      rw [if_neg hnum]
      by_cases hword : isAlpha c = true ∨ c = ch '_'
      · rw [if_pos hword]
        have hpos := takeWord_length_pos rest hword
        refine .of_lt ?_
        rw [List.length_drop]
        rw [List.length_cons] at hblank ⊢
        omega
      rw [if_neg hword]
      exact .of_eof hblank rfl

theorem lexNext_length_le (lx : Lexer) : (lexNext lx).p.length ≤ lx.p.length :=
  (lexNext_advances lx).le

theorem lexNext_length_lt {lx : Lexer} (h : (lexNext lx).tok.kind ≠ .eof) :
    (lexNext lx).p.length < lx.p.length :=
  (lexNext_advances lx).lt h

/-! ### The rest of a line -/

theorem skipLoop_length_le (fuel : Nat) (lx : Lexer) :
    (skipLoop fuel lx).p.length ≤ lx.p.length := by
  induction fuel generalizing lx with
  | zero => exact le_rfl
  | succ fuel ih =>
      rw [skipLoop]
      split_ifs
      · exact le_rfl
      · exact (ih _).trans (lexNext_length_le lx)

theorem skipLine_length_le (lx : Lexer) : (skipLine lx).p.length ≤ lx.p.length :=
  skipLoop_length_le _ lx

/-- A token of the line is taken: it does not end the line. -/
def TakesToken (lx lx' : Lexer) : Prop := ¬ lx.AtLineEnd ∧ lexNext lx = lx'

/-- From `lx` to `lx'` tokens of the line are taken. -/
abbrev StaysOnLine : Lexer → Lexer → Prop := Relation.ReflTransGen TakesToken

theorem StaysOnLine.next {lx : Lexer} (h : ¬ lx.AtLineEnd) : StaysOnLine lx (lexNext lx) :=
  .single ⟨h, rfl⟩

theorem StaysOnLine.next_of_kind {lx : Lexer} {kind : TokKind} (h : lx.tok.kind = kind)
    (hnl : kind ≠ .newline) (heof : kind ≠ .eof) : StaysOnLine lx (lexNext lx) := by
  apply StaysOnLine.next
  rintro (hend | hend)
  · exact hnl (h.symm.trans hend)
  · exact heof (h.symm.trans hend)

theorem StaysOnLine.length_le {lx lx' : Lexer} (h : StaysOnLine lx lx') :
    lx'.p.length ≤ lx.p.length := by
  induction h with
  | refl => exact le_rfl
  | tail _ hstep ih =>
      obtain ⟨_, rfl⟩ := hstep
      exact (lexNext_length_le _).trans ih

/-- A parser started at `lx` that accepts does so on the same line. -/
def OnLine {ε α : Type} (lx : Lexer) (r : Except ε (α × Lexer)) : Prop :=
  ∀ v lx', r = .ok (v, lx') → StaysOnLine lx lx'

section OnLine

variable {ε ε' α β : Type} {lx lx' : Lexer} {r : Except ε (α × Lexer)}

theorem OnLine.ok {v : α} (h : StaysOnLine lx lx') : OnLine lx (.ok (v, lx') : Except ε _) := by
  intro v' lx'' heq
  obtain ⟨_, rfl⟩ := Prod.mk.inj (Except.ok.inj heq)
  exact h

theorem OnLine.error (e : ε) : OnLine lx (.error e : Except ε (α × Lexer)) := by
  intro v lx' heq
  cases heq

theorem OnLine.after (h : StaysOnLine lx lx') (hr : OnLine lx' r) : OnLine lx r :=
  fun v lx'' heq => h.trans (hr v lx'' heq)

theorem OnLine.bind {f : α × Lexer → Except ε (β × Lexer)} (hr : OnLine lx r)
    (hf : ∀ v lx', StaysOnLine lx lx' → OnLine lx (f (v, lx'))) : OnLine lx (r >>= f) := by
  cases r with
  | error e => exact .error e
  | ok res => exact hf res.1 res.2 (hr res.1 res.2 rfl)

theorem OnLine.mapError {f : ε → ε'} (hr : OnLine lx r) : OnLine lx (r.mapError f) := by
  cases r with
  | error e => exact .error (f e)
  | ok res => exact .ok (hr res.1 res.2 rfl)

end OnLine

theorem bind_eq_ok {ε α β : Type} {r : Except ε α} {f : α → Except ε β} {b : β} :
    (r >>= f) = .ok b ↔ ∃ a, r = .ok a ∧ f a = .ok b := by
  cases r <;> simp [bind, Except.bind]

/-! ### Operands -/

section Operands

variable {ec : EvalCtx} {lx : Lexer}

theorem skipComma_stays (lx : Lexer) : StaysOnLine lx (skipComma lx) := by
  unfold skipComma
  split_ifs with hcomma
  · exact .next_of_kind hcomma (by decide) (by decide)
  · exact .refl

theorem evalExpr_onLine (ec : EvalCtx) (lx : Lexer) : OnLine lx (evalExpr ec lx) := by
  have hsign : StaysOnLine lx
      (if lx.tok.kind = .plus ∨ lx.tok.kind = .minus then lexNext lx else lx) := by
    split_ifs with hkind
    · rcases hkind with hplus | hminus
      · exact .next_of_kind hplus (by decide) (by decide)
      · exact .next_of_kind hminus (by decide) (by decide)
    · exact .refl
  unfold evalExpr
  dsimp only
  generalize (if lx.tok.kind = .plus ∨ lx.tok.kind = .minus then lexNext lx else lx) = mid at hsign
  split
  · rename_i val hval
    apply OnLine.ok
    apply hsign.trans
    apply StaysOnLine.next
    rintro (hend | hend) <;> simp [hend] at hval
  · exact .error _

theorem parseReg_onLine (lx : Lexer) : OnLine lx (parseReg lx) := by
  unfold parseReg
  split_ifs with hreg
  · dsimp only
    split_ifs
    · exact .ok (.next_of_kind hreg.1 (by decide) (by decide))
    · exact .error _
  · exact .error _

theorem parseReg_onLine_comma (lx : Lexer) : OnLine lx (parseReg (skipComma lx)) :=
  .after (skipComma_stays lx) (parseReg_onLine _)

theorem evalExpr_onLine_comma (ec : EvalCtx) (lx : Lexer) :
    OnLine lx (evalExpr ec (skipComma lx)) :=
  .after (skipComma_stays lx) (evalExpr_onLine ec _)

theorem parseRegs_onLine (lx : Lexer) : OnLine lx (parseRegs lx) := by
  apply (parseReg_onLine lx).bind
  intro rd lx₁ h₁
  apply OnLine.bind (.after h₁ (parseReg_onLine_comma lx₁))
  intro rs1 lx₂ h₂
  apply OnLine.bind (.after h₂ (parseReg_onLine_comma lx₂))
  intro rs2 lx₃ h₃
  exact .ok h₃

theorem parseRegImm_onLine (ec : EvalCtx) (lx : Lexer) : OnLine lx (parseRegImm ec lx) := by
  apply (parseReg_onLine lx).bind
  intro rd lx₁ h₁
  apply OnLine.bind (.after h₁ (evalExpr_onLine_comma ec lx₁))
  intro imm lx₂ h₂
  exact .ok h₂

theorem parseRegsImm_onLine (ec : EvalCtx) (lx : Lexer) : OnLine lx (parseRegsImm ec lx) := by
  apply (parseReg_onLine lx).bind
  intro rd lx₁ h₁
  apply OnLine.bind (.after h₁ (parseReg_onLine_comma lx₁))
  intro rs1 lx₂ h₂
  apply OnLine.bind (.after h₂ (evalExpr_onLine_comma ec lx₂))
  intro imm lx₃ h₃
  exact .ok h₃

theorem parseMem_onLine (ec : EvalCtx) (lx : Lexer) : OnLine lx (parseMem ec lx) := by
  apply (parseReg_onLine lx).bind
  intro rd lx₁ h₁
  dsimp only
  have hcomma := h₁.trans (skipComma_stays lx₁)
  split_ifs with hbrack
  · have hopen := hcomma.trans (StaysOnLine.next_of_kind hbrack (by decide) (by decide))
    apply OnLine.bind (.after hopen (parseReg_onLine _))
    intro rs1 lx₂ h₂
    have hsep : StaysOnLine lx
        (if lx₂.tok.kind = .plus ∨ lx₂.tok.kind = .comma then lexNext lx₂ else lx₂) := by
      split_ifs with hkind
      · rcases hkind with hplus | hcomma
        · exact h₂.trans (StaysOnLine.next_of_kind hplus (by decide) (by decide))
        · exact h₂.trans (StaysOnLine.next_of_kind hcomma (by decide) (by decide))
      · exact h₂
    apply OnLine.bind (.after hsep (evalExpr_onLine ec _))
    intro imm lx₃ h₃
    apply OnLine.ok
    split_ifs with hclose
    · exact h₃.trans (StaysOnLine.next_of_kind hclose (by decide) (by decide))
    · exact h₃
  · apply OnLine.bind (.after hcomma (parseReg_onLine _))
    intro rs1 lx₂ h₂
    apply OnLine.bind (.after h₂ (evalExpr_onLine_comma ec lx₂))
    intro imm lx₃ h₃
    exact .ok h₃

end Operands

/-! ### Statements -/

section Statements

variable {ec : EvalCtx} {lx : Lexer}

theorem parseCop_onLine (cop : BradCop) (ec : EvalCtx) (lx : Lexer) :
    OnLine lx (parseCop cop ec lx) := by
  cases cop with
  | add | sub | and | or | xor | shl | shr =>
      exact (parseRegs_onLine lx).mapError.bind fun _ _ h => .ok h
  | addi => exact (parseRegsImm_onLine ec lx).mapError.bind fun _ _ h => .ok h
  | ldw | stw => exact (parseMem_onLine ec lx).mapError.bind fun _ _ h => .ok h
  | bz | bnz | mv => exact (parseRegImm_onLine ec lx).mapError.bind fun _ _ h => .ok h
  | nop => exact .ok .refl
  | jmp | call => exact (evalExpr_onLine ec lx).mapError.bind fun _ _ h => .ok h

theorem parseOp_onLine (op : BradOp) (compress : Bool) (ec : EvalCtx) (lx : Lexer) :
    OnLine lx (parseOp op compress ec lx) := by
  cases op with
  | add | sub | mul | and | or | xor | shl | shr =>
      apply (parseRegs_onLine lx).mapError.bind
      intro _ lx₁ h₁
      cases compress with
      | true => first | exact .ok h₁ | exact .error _
      | false => exact .ok h₁
  | addi =>
      apply (parseRegsImm_onLine ec lx).mapError.bind
      intro _ lx₁ h₁
      dsimp only
      split_ifs
      · exact .error _
      · exact .ok h₁
      · exact .ok h₁
  | ldw | stw =>
      apply (parseMem_onLine ec lx).mapError.bind
      intro _ lx₁ h₁
      dsimp only
      split_ifs
      · exact .error _
      · exact .ok h₁
      · exact .ok h₁
  | bz | bnz =>
      apply (parseRegImm_onLine ec lx).mapError.bind
      intro _ lx₁ h₁
      cases compress <;> exact .ok h₁
  | jmp | call =>
      apply (evalExpr_onLine ec lx).mapError.bind
      intro _ lx₁ h₁
      cases compress <;> exact .ok h₁
  | ret =>
      cases compress with
      | true => exact .error _
      | false => exact .ok .refl

theorem parseOrg_stays {lx : Lexer} (h : ¬ lx.AtLineEnd) : StaysOnLine lx (parseOrg lx).2 := by
  unfold parseOrg
  dsimp only
  split_ifs with hnum
  · exact (StaysOnLine.next h).trans (StaysOnLine.next_of_kind hnum (by decide) (by decide))
  · exact .next h

/-- A statement is read from its line: what the second pass then skips is what the first pass
skips. -/
theorem parseStmt_onLine {lx : Lexer} (h : ¬ lx.AtLineEnd) (compress : Bool) (ec : EvalCtx) :
    OnLine lx (parseStmt compress ec lx) := by
  have hnext := StaysOnLine.next h
  unfold parseStmt
  split
  · exact .ok (parseOrg_stays h)
  · dsimp only
    split_ifs
    · apply OnLine.bind (.after hnext (evalExpr_onLine ec _).mapError)
      intro _ lx₁ h₁
      exact .ok h₁
    · exact .ok hnext
  · exact .ok .refl
  · exact .ok .refl
  · apply OnLine.bind (.after hnext (evalExpr_onLine ec _).mapError)
    intro _ lx₁ h₁
    exact .ok h₁
  · apply OnLine.bind (.after hnext (evalExpr_onLine ec _).mapError)
    intro _ lx₁ h₁
    exact .ok h₁
  · apply OnLine.bind (.after hnext (evalExpr_onLine ec _).mapError)
    intro _ lx₁ h₁
    exact .ok h₁
  · apply OnLine.bind (.after hnext (parseCop_onLine _ ec _))
    intro _ lx₁ h₁
    exact .ok h₁
  · exact .after hnext (parseOp_onLine _ compress ec _)
  · exact .error _

end Statements

/-! ### The rounds of the passes -/

theorem Lexer.kind_ne_eof_of_head {lx : Lexer} (h : lx.head ≠ .eof) : lx.tok.kind ≠ .eof := by
  intro heof
  exact h (if_pos heof)

/-- What is left behind the first token of a step is shorter than the text before it. -/
theorem length_lt_of_head {lx : Lexer} {n : Nat} (h : (lexNext lx).head ≠ .eof)
    (hle : n ≤ (lexNext lx).p.length) : n < lx.p.length :=
  hle.trans_lt (lexNext_length_lt (Lexer.kind_ne_eof_of_head h))

theorem Lexer.not_atLineEnd_of_head {lx : Lexer} (h : lx.head = .stmt) : ¬ lx.AtLineEnd := by
  rintro (hend | hend) <;> simp [Lexer.head, hend] at h

theorem pass1Stmt_length_le (s : Pass1) (lx : Lexer) :
    (pass1Stmt s lx).lx.p.length ≤ lx.p.length := by
  have hnext := lexNext_length_le lx
  unfold pass1Stmt
  split
  · dsimp only [parseOrg]
    split_ifs
    · exact (lexNext_length_le _).trans hnext
    · exact hnext
  · exact (skipLine_length_le _).trans hnext
  · exact (skipLine_length_le _).trans hnext
  · exact (skipLine_length_le _).trans hnext
  · exact hnext
  · exact le_rfl
  · exact le_rfl
  · exact skipLine_length_le lx

theorem pass1Step_length_lt {s t : Pass1} (h : pass1Step s = .ok t) :
    t.lx.p.length < s.lx.p.length := by
  unfold pass1Step at h
  dsimp only at h
  cases hhead : (lexNext s.lx).head with
  | eof => simp [hhead] at h
  | newline =>
      simp only [hhead] at h
      obtain rfl := Except.ok.inj h
      exact length_lt_of_head (by simp [hhead]) le_rfl
  | label =>
      simp only [hhead] at h
      obtain rfl := Except.ok.inj h
      exact length_lt_of_head (by simp [hhead]) ((lexNext_length_le _).trans (lexNext_length_le _))
  | colon =>
      simp only [hhead] at h
      obtain rfl := Except.ok.inj h
      exact length_lt_of_head (by simp [hhead]) (lexNext_length_le _)
  | stmt =>
      simp only [hhead] at h
      obtain rfl := Except.ok.inj h
      exact length_lt_of_head (by simp [hhead]) (pass1Stmt_length_le s _)

/-- An accepted statement of the second pass: what was read, its effect, and the rest of the
line. -/
theorem pass2Stmt_eq_ok {symbols : List Symbol} {s t : Pass2} {lx : Lexer}
    (h : pass2Stmt symbols s lx = .ok t) :
    ∃ stmt lx' u, parseStmt s.compress ⟨symbols, s.pc⟩ lx = .ok (stmt, lx') ∧
      s.perform stmt = some u ∧ t = { u with lx := skipLine lx' } := by
  obtain ⟨⟨stmt, lx'⟩, hparse, h⟩ := bind_eq_ok.mp h
  cases hperform : s.perform stmt with
  | none =>
      simp only [hperform] at h
      cases h
  | some u =>
      simp only [hperform] at h
      exact ⟨stmt, lx', u, hparse, hperform, (Except.ok.inj h).symm⟩

theorem pass2Step_length_lt {symbols : List Symbol} {s t : Pass2}
    (h : pass2Step symbols s = .ok t) : t.lx.p.length < s.lx.p.length := by
  unfold pass2Step at h
  dsimp only at h
  cases hhead : (lexNext s.lx).head with
  | eof => simp [hhead] at h
  | newline =>
      simp only [hhead] at h
      obtain rfl := Except.ok.inj h
      exact length_lt_of_head (by simp [hhead]) le_rfl
  | label =>
      simp only [hhead] at h
      obtain rfl := Except.ok.inj h
      exact length_lt_of_head (by simp [hhead]) ((lexNext_length_le _).trans (lexNext_length_le _))
  | colon =>
      simp only [hhead] at h
      obtain rfl := Except.ok.inj h
      exact length_lt_of_head (by simp [hhead]) (lexNext_length_le _)
  | stmt =>
      simp only [hhead] at h
      cases hstmt : pass2Stmt symbols s (lexNext s.lx) with
      | error e => simp [hstmt, Except.mapError] at h
      | ok u =>
          rw [hstmt] at h
          obtain rfl : u = t := Except.ok.inj h
          obtain ⟨stmt, lx', v, hparse, _, rfl⟩ := pass2Stmt_eq_ok hstmt
          have hline := parseStmt_onLine (Lexer.not_atLineEnd_of_head hhead) _ _ _ _ hparse
          exact length_lt_of_head (by simp [hhead]) ((skipLine_length_le lx').trans hline.length_le)

/-! ### The runs of the passes -/

theorem pass1_ends (source : List Byte) :
    EndsWith pass1Step (pass1Init source) (pass1 source) :=
  ends_resultWithin (fun _ _ => pass1Step_length_lt) (Nat.lt_succ_self source.length)

theorem pass2_ends (source : List Byte) :
    EndsWith (pass2Step (pass1 source)) (pass2Init source) (bradAsAssemble source) :=
  ends_resultWithin (fun _ _ => pass2Step_length_lt) (Nat.lt_succ_self source.length)

end BradVector.Bradasm
