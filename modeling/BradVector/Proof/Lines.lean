import BradVector.Bradc
import BradVector.Library.Machine

/-!
# The lines of a source

The tokenizer makes progress, so that the loops of the assembler run to the end of the text, and
both passes are folds over the same list of lines.
-/

namespace BradVector

open CSem

/-! ### Progress of the tokenizer -/

/-- How many tokens can still be taken. -/
def Lexer.room (lx : Lexer) : Nat := lx.p.length + if lx.t.kind = .eof then 0 else 1

/-- A numeral stands at the cursor: a digit, or a minus and a digit. -/
def StartsNumeral : List Byte → Prop
  | [] => False
  | c :: rest => isDigit c = true ∨ c = ch '-' ∧ isDigit (rest.headD 0) = true

instance (s : List Byte) : Decidable (StartsNumeral s) := by
  cases s <;> unfold StartsNumeral <;> infer_instance

/-- The token taken where `s` stands behind the blanks, and the lexer behind it. -/
inductive TokenForm [Libc] (lx : Lexer) : List Byte → Lexer → Prop where
  | endOfText : TokenForm lx [] { lx with p := [], t := .plain .eof }
  | nul (rest : List Byte) : TokenForm lx (0 :: rest) { lx with p := 0 :: rest, t := .plain .eof }
  | newline (rest : List Byte) :
      TokenForm lx (ch '\n' :: rest) ⟨rest, lx.line + 1, .plain .nl⟩
  | comment (c : Byte) (rest : List Byte) (hc : c ≠ 0 ∧ c ≠ ch '\n') :
      TokenForm lx (c :: rest)
        { lx with p := (c :: rest).dropWhile fun b => b ≠ 0 ∧ b ≠ ch '\n', t := .plain .nl }
  | mark (c : Byte) (rest : List Byte) (kind : TokKind)
      (hkind : kind = .comma ∨ kind = .colon ∨ kind = .at ∨ kind = .dot) :
      TokenForm lx (c :: rest) { lx with p := rest, t := .plain kind }
  | numeral {s : List Byte} (hnum : StartsNumeral s) :
      TokenForm lx s
        { lx with
          p := (Libc.strtol s 0).2
          t := ⟨.num, [], BitVec.ofInt 32 (Libc.strtol s 0).1⟩ }
  | word (c : Byte) (rest text : List Byte) (hfirst : isAlpha c = true ∨ c = ch '_')
      (htext : text = ((c :: rest).takeWhile isIdChar).take (tokTextSize - 1)) :
      TokenForm lx (c :: rest) { lx with p := (c :: rest).drop text.length, t := ⟨.id, text, 0⟩ }
  | other (c : Byte) (rest : List Byte) :
      TokenForm lx (c :: rest) { lx with p := rest, t := ⟨.id, [c], 0⟩ }

theorem lexTake_form [Libc] (lx : Lexer) : TokenForm lx (lx.p.dropWhile isBlank) (lexTake lx) := by
  unfold lexTake
  cases lx.p.dropWhile isBlank with
  | nil => exact .endOfText
  | cons c rest =>
      dsimp only
      by_cases h0 : c = 0
      · rw [if_pos h0, h0]
        exact .nul rest
      rw [if_neg h0]
      by_cases hnl : c = ch '\n'
      · rw [if_pos hnl, hnl]
        exact .newline rest
      rw [if_neg hnl]
      by_cases hcomment : c = ch ';' ∨ c = ch '#'
      · rw [if_pos hcomment]
        exact .comment c rest ⟨h0, hnl⟩
      rw [if_neg hcomment]
      by_cases hcomma : c = ch ','
      · rw [if_pos hcomma]
        exact .mark c rest _ (by simp)
      rw [if_neg hcomma]
      by_cases hcolon : c = ch ':'
      · rw [if_pos hcolon]
        exact .mark c rest _ (by simp)
      rw [if_neg hcolon]
      by_cases hat : c = ch '@'
      · rw [if_pos hat]
        exact .mark c rest _ (by simp)
      rw [if_neg hat]
      by_cases hdot : c = ch '.'
      · rw [if_pos hdot]
        exact .mark c rest _ (by simp)
      rw [if_neg hdot]
      by_cases hnum : isDigit c = true ∨ c = ch '-' ∧ isDigit (rest.headD 0) = true
      · rw [if_pos hnum]
        exact .numeral (s := c :: rest) hnum
      rw [if_neg hnum]
      by_cases hword : isAlpha c = true ∨ c = ch '_'
      · rw [if_pos hword]
        exact .word c rest _ hword rfl
      rw [if_neg hword]
      exact .other c rest

/-- A token takes at least a byte, unless the text is at its end, as long as `strtol` reads some of
the numeral it is given. -/
theorem lexTake_room_le_of_progress [Libc] {lx : Lexer}
    (hnum : ∀ s, lx.p.dropWhile isBlank = s → StartsNumeral s →
      (Libc.strtol s 0).2.length < s.length) : (lexTake lx).room ≤ lx.p.length := by
  have hblank := (List.dropWhile_sublist (l := lx.p) isBlank).length_le
  have hform := lexTake_form lx
  generalize lx.p.dropWhile isBlank = s at hblank hnum hform
  generalize lexTake lx = lx' at hform
  unfold Lexer.room
  cases hform with
  | endOfText => exact Nat.zero_le _
  | nul rest => exact hblank
  | newline rest => exact hblank
  | comment c rest hc =>
      have hdrop : ((c :: rest).dropWhile fun b => decide (b ≠ 0 ∧ b ≠ ch '\n')).length ≤
          rest.length := by
        rw [List.dropWhile_cons_of_pos (by simpa using hc)]
        exact (List.dropWhile_sublist _).length_le
      exact (Nat.add_le_add_right hdrop 1).trans hblank
  | mark c rest kind hkind =>
      have hroom : rest.length + (if kind = .eof then 0 else 1) ≤ rest.length + 1 := by
        split_ifs <;> omega
      exact hroom.trans hblank
  | numeral hstart =>
      have hread := hnum s rfl hstart
      exact Nat.succ_le_of_lt (hread.trans_le hblank)
  | word c rest text hfirst htext =>
      have hchar : isIdChar c = true := by
        rcases hfirst with h | rfl
        · simp [isIdChar, isAlnum, h]
        · rfl
      have htext : 0 < text.length := by
        rw [htext, List.takeWhile_cons_of_pos hchar]
        simp [tokTextSize]
      rw [List.length_cons] at hblank
      simp only [reduceCtorEq, if_false, List.length_drop, List.length_cons]
      omega
  | other c rest => exact hblank

theorem hostStrtol_progress {s : List Byte} (h : StartsNumeral s) :
    (Libc.strtol s 0).2.length < s.length := by
  cases s with
  | nil => exact h.elim
  | cons c rest =>
      rw [host_strtol, strtol_snd]
      exact readNumeral_progress h

theorem lexTake_room_le (lx : Lexer) : (lexTake lx).room ≤ lx.p.length :=
  lexTake_room_le_of_progress fun _ _ h => hostStrtol_progress h

theorem lexTake_room_lt {lx : Lexer} (h : lx.t.kind ≠ .eof) : (lexTake lx).room < lx.room := by
  have hle := lexTake_room_le lx
  unfold Lexer.room at *
  rw [if_neg h]
  omega

/-! ### Skipping a line -/

/-- The current token ends the line. -/
def Lexer.AtLineEnd (lx : Lexer) : Prop := lx.t.kind = .nl ∨ lx.t.kind = .eof

/-- The loop of `skip_line` has enough iterations when there are more than tokens. -/
theorem skipLoop_eq {fuel fuel' : Nat} {lx : Lexer} (h : lx.room < fuel) (h' : lx.room < fuel') :
    skipLoop fuel lx = skipLoop fuel' lx := by
  apply fuel_induction Lexer.room (P := fun fuel fuel' lx =>
    skipLoop fuel lx = skipLoop fuel' lx) _ h h'
  intro fuel fuel' lx _ ih
  by_cases hend : lx.t.kind = .eof
  · simp [skipLoop, hend]
  · have hrest := ih (lexTake lx) (lexTake_room_lt hend)
    simp only [skipLoop, hrest]

theorem Lexer.room_lt (lx : Lexer) : lx.room < lx.p.length + 2 := by
  unfold Lexer.room
  split_ifs <;> omega

theorem skipLine_of_eof {lx : Lexer} (h : lx.t.kind = .eof) : skipLine lx = lx := by
  simp [skipLine, skipLoop, h]

theorem skipLine_of_nl {lx : Lexer} (h : lx.t.kind = .nl) : skipLine lx = lexTake lx := by
  simp [skipLine, skipLoop, h]

theorem skipLine_lexTake {lx : Lexer} (h : ¬ lx.AtLineEnd) :
    skipLine (lexTake lx) = skipLine lx := by
  obtain ⟨hnl, heof⟩ := not_or.mp h
  have hlt := lexTake_room_lt heof
  have hroom := lx.room_lt
  have hstep : skipLine lx = skipLoop (lx.p.length + 1) (lexTake lx) := by
    rw [skipLine, skipLoop]
    split
    · exact absurd ‹_› heof
    · exact absurd ‹_› hnl
    · rfl
  rw [hstep]
  exact skipLoop_eq (Lexer.room_lt _) (by omega)

theorem skipLine_nextSrc {lx : Lexer} (h : ¬ lx.AtLineEnd) :
    skipLine (nextSrc lx) = skipLine lx := by
  unfold nextSrc
  dsimp only
  split_ifs with hcomma
  · rw [skipLine_lexTake (by simp [Lexer.AtLineEnd, hcomma]), skipLine_lexTake h]
  · exact skipLine_lexTake h

theorem skipLine_room_lt {lx : Lexer} (h : lx.t.kind ≠ .eof) : (skipLine lx).room < lx.room := by
  induction hn : lx.room using Nat.strong_induction_on generalizing lx with
  | _ n ih =>
      subst hn
      have hlt := lexTake_room_lt h
      by_cases hnl : lx.t.kind = .nl
      · rwa [skipLine_of_nl hnl]
      · rw [← skipLine_lexTake (by simp [Lexer.AtLineEnd, hnl, h])]
        by_cases hend : (lexTake lx).t.kind = .eof
        · rwa [skipLine_of_eof hend]
        · exact (ih _ hlt hend rfl).trans hlt

/-! ### The loop over the lines -/

/-- The lexer at the first token of every line that has one. -/
def linesFrom : Nat → Lexer → List Lexer
  | 0, _ => []
  | fuel + 1, lx =>
      match lx.t.kind with
      | .eof => []
      | .nl => linesFrom fuel (lexTake lx)
      | _ => lx :: linesFrom fuel (skipLine lx)

def sourceLines (source : List Byte) : List Lexer :=
  linesFrom (passFuel source) (lexTake (lxInit source))

section LinesFrom

variable {fuel : Nat} {lx : Lexer}

theorem linesFrom_of_eof (h : lx.t.kind = .eof) : linesFrom (fuel + 1) lx = [] := by
  simp [linesFrom, h]

theorem linesFrom_of_nl (h : lx.t.kind = .nl) :
    linesFrom (fuel + 1) lx = linesFrom fuel (lexTake lx) := by
  simp [linesFrom, h]

theorem linesFrom_of_line (h : ¬ lx.AtLineEnd) :
    linesFrom (fuel + 1) lx = lx :: linesFrom fuel (skipLine lx) := by
  obtain ⟨hnl, heof⟩ := not_or.mp h
  rw [linesFrom]
  split
  · exact absurd ‹_› heof
  · exact absurd ‹_› hnl
  · rfl

end LinesFrom

theorem linesFrom_eq {fuel fuel' : Nat} {lx : Lexer} (h : lx.room < fuel) (h' : lx.room < fuel') :
    linesFrom fuel lx = linesFrom fuel' lx := by
  apply fuel_induction Lexer.room (P := fun fuel fuel' lx =>
    linesFrom fuel lx = linesFrom fuel' lx) _ h h'
  intro fuel fuel' lx _ ih
  by_cases hend : lx.t.kind = .eof
  · simp [linesFrom, hend]
  · have hrest := ih (lexTake lx) (lexTake_room_lt hend)
    have hrest' := ih (skipLine lx) (skipLine_room_lt hend)
    simp only [linesFrom, hrest, hrest']

/-- A pass has fuel to spare. -/
theorem room_lt_passFuel (source : List Byte) : (lexTake (lxInit source)).room < passFuel source :=
  (lexTake_room_le (lxInit source)).trans_lt (Nat.lt_add_of_pos_right (by decide))

/-- A loop whose body stays on the line it was given goes through the lines in order. -/
theorem lineLoop_eq {σ : Type} {body : Lexer → σ → AsmResult (Lexer × σ)}
    (hbody : ∀ h s lx' s', ¬ h.AtLineEnd → body h s = .ok (lx', s') → skipLine lx' = skipLine h)
    (fuel : Nat) (lx : Lexer) (s : σ) :
    lineLoop body fuel lx s =
      (linesFrom fuel lx).foldlM (fun s h => (body h s).map Prod.snd) s := by
  induction fuel generalizing lx s with
  | zero => rfl
  | succ fuel ih =>
      rw [lineLoop]
      split
      · rw [linesFrom_of_eof ‹_›]
        rfl
      · rw [linesFrom_of_nl ‹_›]
        exact ih _ _
      · rename_i heof hnl
        have hline : ¬ lx.AtLineEnd := not_or.mpr ⟨hnl, heof⟩
        rw [linesFrom_of_line hline, List.foldlM_cons]
        cases hres : body lx s with
        | error e => rfl
        | ok r =>
            have hskip := hbody lx s r.1 r.2 hline hres
            change lineLoop body fuel (skipLine r.1) r.2 = _
            rw [hskip, ih]
            rfl

/-- The first pass never fails. -/
theorem pass1Line_ok [Libc] (lx : Lexer) (a : BradcAsm) : ∃ r, pass1Line lx a = .ok r := by
  unfold pass1Line
  split
  · exact ⟨_, rfl⟩
  · exact ⟨_, rfl⟩
  · exact ⟨_, rfl⟩

end BradVector
