import BradVector.Proof.Documented

/-!
# Documented kernels

The assembler accepts a kernel written in the documented forms, and every instruction of it reads
back, exactly when it has no vector load, atomic, vector or broadcast instruction.
-/

namespace BradVector

open CSem

/-! ### The heads of the lines in the passes -/

section Heads

variable {rest : List Byte} {line : Nat}

theorem peekLine_insnHead (i : DocInsn) : peekLine (i.head rest line) = .insn := by
  have hcolon : (lexTake (i.head rest line)).t.kind ≠ .colon := by
    unfold DocInsn.head DocInsn.tail
    cases i.pred with
    | none =>
        rw [predText, List.nil_append, lexTake_operandsText i.small]
        exact (operandsLexer_kind_ne i.operands).2.1
    | some p =>
        rw [predText, List.cons_append, List.cons_append, lexTake_at]
        intro hbad
        cases hbad
  have hkind : (i.head rest line).t.kind = .id := rfl
  rw [peekLine, hkind]
  exact if_neg hcolon

theorem peekLine_labelHead (name : Ident) : peekLine ((DocLine.label name).head rest line) =
    .label := rfl

theorem isDirective_of_text {t : Tok} (hkind : t.kind = .id)
    (htext : t.text = cstr "kernel" ∨ t.text = cstr "end") : isDirective t = true :=
  decide_eq_true ⟨hkind, htext⟩

theorem peekLine_kernelHead (k : Ident) : peekLine (kernelHead k rest) = .dir := by
  have hkind : (kernelHead k rest).t.kind = .dot := rfl
  rw [peekLine, hkind, lexTake_kernelHead]
  exact if_pos (isDirective_of_text rfl (.inl rfl))

theorem peekLine_endHead : peekLine (endHead line) = .dir := by
  have hkind : (endHead line).t.kind = .dot := rfl
  rw [peekLine, hkind, lexTake_endHead]
  exact if_pos (isDirective_of_text rfl (.inr rfl))

end Heads

/-! ### The first pass -/

/-- The address a name stands for. -/
def symAddr (a : BradcAsm) (text : List Byte) : Option Nat := (bFind a text).map BradcSymbol.addr

theorem symAddr_bAdd {a : BradcAsm} {name : List Byte} {addr : Nat}
    (hroom : a.syms.length < bradcMaxSymbols) (text : List Byte) :
    symAddr (bAdd a name addr) text = (symAddr a text <|> if name = text then some addr
      else none) := by
  have hadd : bAdd a name addr = { a with syms := a.syms ++ [⟨name, addr⟩] } :=
    if_neg (not_le.mpr hroom)
  rw [symAddr, symAddr, bFind, bFind, hadd]
  dsimp only
  rw [List.find?_append]
  cases a.syms.find? fun s => decide (s.name = text) with
  | some s => rfl
  | none =>
      by_cases hname : name = text <;> simp [hname]

/-- A line of a pass, without the cursor it leaves. -/
def lineStep (body : Lexer → BradcAsm → AsmResult (Lexer × BradcAsm)) (a : BradcAsm) (h : Lexer) :
    AsmResult BradcAsm :=
  (body h a).map Prod.snd

theorem foldlM_lineStep {body : Lexer → BradcAsm → AsmResult (Lexer × BradcAsm)} {a b : BradcAsm}
    {h : Lexer} {hs : List Lexer} (hstep : lineStep body a h = .ok b) :
    (h :: hs).foldlM (lineStep body) a = hs.foldlM (lineStep body) b := by
  rw [List.foldlM_cons, hstep]
  rfl

section Pass1

variable {rest : List Byte} {line : Nat} {a : BradcAsm}

theorem step1_label (name : Ident) :
    lineStep pass1Line a ((DocLine.label name).head rest line) =
      .ok (if a.inKernel ∧ bFind a name.text = none then bAdd a name.text a.kpc else a) := by
  rw [lineStep, pass1Line, peekLine_labelHead]
  rfl

theorem step1_insn (i : DocInsn) :
    lineStep pass1Line a (i.head rest line) =
      .ok (if a.inKernel then { a with kpc := a.kpc + 1 } else a) := by
  rw [lineStep, pass1Line, peekLine_insnHead]
  rfl

/-- A label that is defined already keeps its place. -/
theorem symAddr_label (name : Ident) (hin : a.inKernel = true)
    (hroom : a.syms.length < bradcMaxSymbols) (text : List Byte) :
    symAddr (if a.inKernel ∧ bFind a name.text = none then bAdd a name.text a.kpc else a) text =
      (symAddr a text <|> if name.text = text then some a.kpc else none) := by
  by_cases hfind : bFind a name.text = none
  · rw [if_pos ⟨hin, hfind⟩, symAddr_bAdd hroom]
  · rw [if_neg fun h => hfind h.2]
    by_cases hname : name.text = text
    · obtain ⟨s, hs⟩ := Option.ne_none_iff_exists'.mp hfind
      rw [← hname, symAddr, hs]
      rfl
    · rw [if_neg hname]
      cases symAddr a text <;> rfl

/-- The first pass over the lines of a kernel: the symbols are the labels at their places. -/
theorem pass1_docHeads (lines : List DocLine) (line : Nat) (hin : a.inKernel = true)
    (hroom : a.syms.length + (labelsOf lines).length ≤ bradcMaxSymbols) :
    ∃ a', (docHeads lines line).foldlM (lineStep pass1Line) a = .ok a' ∧ a'.img = a.img ∧
      ∀ text, symAddr a' text = (symAddr a text <|> (labelPc lines text).map (a.kpc + ·)) := by
  induction lines generalizing a line with
  | nil =>
      have hend : lineStep pass1Line a (endHead line) =
          .ok { a with inKernel := false, kpc := 0 } := by
        rw [lineStep, pass1Line, peekLine_endHead, lexTake_endHead]
        rfl
      refine ⟨{ a with inKernel := false, kpc := 0 }, ?_, rfl, fun text => ?_⟩
      · rw [docHeads, foldlM_lineStep hend]
        rfl
      · change symAddr a text = _
        cases symAddr a text <;> rfl
  | cons l lines ih =>
      rw [docHeads]
      cases l with
      | label name =>
          have hlabels : (labelsOf (.label name :: lines)).length = (labelsOf lines).length + 1 :=
            rfl
          rw [foldlM_lineStep (step1_label name)]
          generalize hb :
            (if a.inKernel ∧ bFind a name.text = none then bAdd a name.text a.kpc else a) = b
          have hsyms := symAddr_label name hin (by omega)
          rw [hb] at hsyms
          have hkeep : b.inKernel = true ∧ b.kpc = a.kpc ∧ b.img = a.img ∧
              b.syms.length ≤ a.syms.length + 1 := by
            rw [← hb]
            split_ifs
            · rcases bAdd_cases a name.text a.kpc with h | h <;> rw [h]
              · exact ⟨hin, rfl, rfl, Nat.le_succ _⟩
              · exact ⟨hin, rfl, rfl, by simp⟩
            · exact ⟨hin, rfl, rfl, Nat.le_succ _⟩
          obtain ⟨hbin, hbpc, hbimg, hblen⟩ := hkeep
          obtain ⟨a', hfold, himg, haddr⟩ := ih (line + 1) hbin (by omega)
          refine ⟨a', hfold, himg.trans hbimg, fun text => ?_⟩
          rw [haddr, hsyms, hbpc, labelPc]
          by_cases hname : name.text = text
          · rw [if_pos hname, if_pos hname]
            cases symAddr a text <;> rfl
          · rw [if_neg hname, if_neg hname]
            cases symAddr a text <;> rfl
      | insn i =>
          have hlabels : labelsOf (.insn i :: lines) = labelsOf lines := rfl
          rw [DocLine.head, foldlM_lineStep (step1_insn i), if_pos hin]
          obtain ⟨a', hfold, himg, haddr⟩ :=
            ih (a := { a with kpc := a.kpc + 1 }) (line + 1) hin (hlabels ▸ hroom)
          refine ⟨a', hfold, himg, fun text => ?_⟩
          have hpc (addr : Nat) : a.kpc + 1 + addr = a.kpc + (addr + 1) := by omega
          rw [haddr, labelPc]
          change (symAddr a text <|> (labelPc lines text).map (a.kpc + 1 + ·)) = _
          cases labelPc lines text with
          | none => rfl
          | some addr =>
              simp only [Option.map_some, hpc]

end Pass1

/-! ### The second pass -/

section Pass2

variable {rest : List Byte} {line : Nat} {a : BradcAsm}

theorem step2_label (name : Ident) :
    lineStep pass2Line a ((DocLine.label name).head rest line) = .ok a := by
  rw [lineStep, pass2Line, peekLine_labelHead]
  rfl

theorem bvbcEmit_ok {img : BvbcImage} (w : BitVec 64) (hroom : img.ninsn < bvbcMaxInsn) :
    ∃ img', bvbcEmit img w = some img' :=
  ⟨_, if_neg (not_le.mpr hroom)⟩

theorem step2_insn {i : DocInsn} {lx' : Lexer} {w : BitVec 64} (hin : a.inKernel = true)
    (hroom : a.img.ninsn < bvbcMaxInsn) (hword : insnWord a (i.head rest line) = .ok (lx', w)) :
    ∃ img, bvbcEmit a.img w = some img ∧
      lineStep pass2Line a (i.head rest line) = .ok { a with img, kpc := a.kpc + 1 } := by
  obtain ⟨img, himg⟩ := bvbcEmit_ok w hroom
  refine ⟨img, himg, ?_⟩
  rw [lineStep, pass2Line, peekLine_insnHead]
  simp only [asmInsn, hword, bind, Except.bind, bEmit, hin, himg]
  rfl

theorem step2_end (hin : a.inKernel = true) :
    lineStep pass2Line a (endHead line) = .ok { a with inKernel := false, kpc := 0 } := by
  rw [lineStep, pass2Line, peekLine_endHead]
  simp only [asmDirective, lexTake_endHead, if_true, hin]
  rfl

theorem Ident.cstrOf_text (k : Ident) : cstrOf k.text = k.text := by
  have hzero : isIdChar 0 = false := by decide
  refine List.takeWhile_eq_self_iff.mpr fun b hb => decide_eq_true ?_
  rintro rfl
  have hchar := (isWord_iff.mp k.word).2.1 0 hb
  rw [hzero] at hchar
  cases hchar

theorem Ident.text_ne_nil (k : Ident) : k.text ≠ [] := by
  intro hnil
  have hfirst := (isWord_iff.mp k.word).1
  rw [hnil] at hfirst
  exact absurd hfirst (by decide)

theorem step2_kernel (k : Ident) (rest : List Byte) (hin : a.inKernel = false)
    (hkernels : a.img.kernels = []) (hpool : a.img.stringPool = []) :
    ∃ img, lineStep pass2Line a (kernelHead k rest) =
        .ok { a with img, inKernel := true, kpc := 0 } ∧
      img.insns = a.img.insns ∧ img.ninsn = a.img.ninsn := by
  have hstrlen : strlen k.text = k.text.length := congrArg List.length k.cstrOf_text
  have hshort : k.text.length < 64 := (isWord_iff.mp k.word).2.2
  have hpos : 0 < k.text.length := List.length_pos_iff.mpr k.text_ne_nil
  have hend : cstr "kernel" ≠ cstr "end" := by decide
  have hname : nextSrc ⟨ch ' ' :: (k.text ++ ch '\n' :: rest), 1, ⟨.id, cstr "kernel", 0⟩⟩ =
      ⟨ch '\n' :: rest, 1, ⟨.id, k.text, 0⟩⟩ := by
    rw [nextSrc, lexTake_kernelName]
    apply if_neg
    intro hbad
    cases hbad
  obtain ⟨img, himg⟩ : ∃ img, bvbcAddKernel a.img k.text (BitVec.ofNat 32 a.img.ninsn) 0 =
      some img := by
    unfold bvbcAddKernel
    rw [hkernels, hpool, hstrlen, if_neg (by decide), if_neg (by unfold bvbcMaxName; omega),
      if_neg (by simp only [stringPoolSize, List.length_nil]; omega)]
    exact ⟨_, rfl⟩
  refine ⟨img, ?_, ?_, (bvbcAddKernel_cases himg).1⟩
  · rw [lineStep, pass2Line, peekLine_kernelHead]
    simp only [asmDirective, lexTake_kernelHead, if_neg hend, hin, hname, himg]
    rfl
  · unfold bvbcAddKernel at himg
    split_ifs at himg
    cases himg
    rfl

/-- The second pass over the lines of a kernel, when each of its instructions is assembled where it
stands. -/
theorem pass2_docHeads (offset : Nat → List Byte → Option Int) (lines : List DocLine) (line : Nat)
    (hin : a.inKernel = true) (hfilled : a.img.Filled)
    (hroom : a.img.ninsn + (insnsOf lines).length ≤ bvbcMaxInsn)
    (hinsns : ∀ (j : Nat) (i : DocInsn), (insnsOf lines)[j]? = some i → ∀ b : BradcAsm,
      b.syms = a.syms →
      b.kpc = a.kpc + j → i.AssembledBy b (offset (a.kpc + j))) :
    ∃ a', (docHeads lines line).foldlM (lineStep pass2Line) a = .ok a' ∧ a'.inKernel = false ∧
      (∀ n w, n < a.img.ninsn → a.img.HasInsn n w → a'.img.HasInsn n w) ∧
      ∀ (j : Nat) (i : DocInsn), (insnsOf lines)[j]? = some i → ∃ w,
        a'.img.HasInsn (a.img.ninsn + j) w ∧
        i.ReadBack (offset (a.kpc + j)) (bvDecode w) := by
  induction lines generalizing a line with
  | nil =>
      refine ⟨{ a with inKernel := false, kpc := 0 }, ?_, rfl, fun _ _ _ h => h, fun j i hget => ?_⟩
      · rw [docHeads, foldlM_lineStep (step2_end hin)]
        rfl
      · cases hget
  | cons l lines ih =>
      rw [docHeads]
      cases l with
      | label name =>
          rw [foldlM_lineStep (step2_label name)]
          exact ih _ hin hfilled hroom hinsns
      | insn i =>
          have hlen : (insnsOf (.insn i :: lines)).length = (insnsOf lines).length + 1 := rfl
          obtain ⟨lx', w, hword, hread⟩ :=
            hinsns 0 i rfl a rfl rfl (docText lines ++ cstr ".end\n") line
          obtain ⟨img, himg, hstep⟩ := step2_insn hin (by omega) hword
          obtain ⟨hninsn, hhas, hfilled', hkeep⟩ := bvbcEmit_eq_some hfilled himg
          obtain ⟨a', hfold, hout, hkept, hrest⟩ := ih (a := { a with img, kpc := a.kpc + 1 })
            (line + 1) hin hfilled' (by dsimp only; omega) fun j i' hget b hb hpc => by
              have hpc' : a.kpc + 1 + j = a.kpc + (j + 1) := by omega
              dsimp only at hpc ⊢
              rw [hpc'] at hpc ⊢
              exact hinsns (j + 1) i' hget b hb hpc
          dsimp only at hkept hrest
          rw [hninsn] at hkept hrest
          rw [DocLine.head, foldlM_lineStep hstep]
          refine ⟨a', hfold, hout, fun n w' hn hw' => hkept n w' (by omega) (hkeep n w' hn hw'), ?_⟩
          intro j i' hget
          cases j with
          | zero =>
              cases hget
              exact ⟨w, hkept _ w (Nat.lt_succ_self _) hhas, hread⟩
          | succ j =>
              obtain ⟨w', hw', hread'⟩ := hrest j i' hget
              rw [show a.img.ninsn + 1 + j = a.img.ninsn + (j + 1) by omega] at hw'
              rw [show a.kpc + 1 + j = a.kpc + (j + 1) by omega] at hread'
              exact ⟨w', hw', hread'⟩

end Pass2

/-! ### The whole kernel -/

theorem lineLoop_eq_foldlM {body : Lexer → BradcAsm → AsmResult (Lexer × BradcAsm)}
    (hbody : ∀ h s lx' s', ¬ h.AtLineEnd → body h s = .ok (lx', s') → skipLine lx' = skipLine h)
    (source : List Byte) (a : BradcAsm) :
    lineLoop body (passFuel source) (lexTake (lxInit source)) a =
      (sourceLines source).foldlM (lineStep body) a :=
  lineLoop_eq hbody _ _ _

theorem step1_kernel {a : BradcAsm} (k : Ident) (rest : List Byte) :
    lineStep pass1Line a (kernelHead k rest) = .ok { a with inKernel := true, kpc := 0 } := by
  have hend : cstr "kernel" ≠ cstr "end" := by decide
  rw [lineStep, pass1Line, peekLine_kernelHead, lexTake_kernelHead]
  simp [hend]
  rfl

theorem bFind_of_branchOffset {a : BradcAsm} {lines : List DocLine} {pc : Nat} {text : List Byte}
    {d : Int}
    (haddr : symAddr a text = labelPc lines text) (hd : branchOffset lines pc text = some d) :
    ∃ s, bFind a text = some s ∧ (s.addr : Int) - (pc + 1) = d := by
  rw [branchOffset, ← haddr, symAddr, Option.map_map, Option.map_eq_some_iff] at hd
  exact hd

section Kernel

variable {k : Ident} {lines : List DocLine} {img : BvbcImage} {words : List (BitVec 64)}

theorem bradcAssemble_kernelText (hinsns : img.insns = .array words)
    (hcount : (insnsOf lines).length ≤ bvbcMaxInsn)
    (hlabels : (labelsOf lines).length ≤ bradcMaxSymbols)
    (htargets : TargetsInRange lines) (hrows : ∀ i ∈ insnsOf lines, i.row.assembled = true) :
    ∃ img', bradcAssemble (kernelText k lines) img = .ok img' ∧
      ∀ (pc : Nat) (i : DocInsn), (insnsOf lines)[pc]? = some i →
        i.ReadBack (branchOffset lines pc) (bvDecode (img'.insn pc)) := by
  obtain ⟨a, hpass1, himg, haddr⟩ := pass1_docHeads
    (a := { img, syms := [], inKernel := true, kpc := 0 }) lines 2 rfl (by simpa using hlabels)
  have hsyms (text : List Byte) : symAddr a text = labelPc lines text := by
    have hempty : symAddr { img, syms := [], inKernel := true, kpc := 0 } text = none := rfl
    rw [haddr, hempty]
    cases labelPc lines text <;> simp
  obtain ⟨image, hkernel, hinsns', hninsn'⟩ := step2_kernel (a := pass2Start a) k
    (docText lines ++ cstr ".end\n") rfl rfl rfl
  have hinsns'' : image.insns = .array words :=
    hinsns'.trans ((congrArg BvbcImage.insns himg).trans hinsns)
  obtain ⟨b, hpass2, hout, -, hread⟩ := pass2_docHeads
    (a := { pass2Start a with img := image, inKernel := true, kpc := 0 })
      (branchOffset lines) lines 2 rfl ⟨words, hinsns'', by rw [hninsn']; exact Nat.zero_le _⟩
    (by simpa [hninsn', pass2Start] using hcount) fun j i hget b hb hpc => by
      refine i.assembledBy (hrows i (List.mem_of_getElem? hget)) fun name hname => ?_
      obtain ⟨d, hd, hlo, hhi⟩ := htargets j i hget name hname
      obtain ⟨s, hs, rfl⟩ := bFind_of_branchOffset (hsyms name.text) hd
      have hpc' : b.kpc = j := hpc.trans (Nat.zero_add j)
      have hfind : bFind b name.text = some s := by
        rw [← hs, bFind, bFind, hb]
        rfl
      dsimp only
      rw [Nat.zero_add, hpc']
      exact ⟨s, hfind, hd, hlo, hhi⟩
  refine ⟨{ b.img with version := BitVec.ofNat 32 bvbcVersion }, ?_, fun pc i hget => ?_⟩
  · have h1 : lineLoop pass1Line (passFuel (kernelText k lines))
        (lexTake (lxInit (kernelText k lines)))
        { img, syms := [], inKernel := false, kpc := 0 } = .ok a := by
      rw [lineLoop_eq_foldlM (fun _ _ _ _ hline hok => pass1Line_skipLine hline hok),
        sourceLines_kernelText, foldlM_lineStep (step1_kernel k _)]
      exact hpass1
    have h2 : lineLoop pass2Line (passFuel (kernelText k lines))
        (lexTake (lxInit (kernelText k lines))) (pass2Start a) = .ok b := by
      rw [lineLoop_eq_foldlM (fun _ _ _ _ hline hok => pass2Line_skipLine hline hok),
        sourceLines_kernelText, foldlM_lineStep hkernel]
      exact hpass2
    unfold pass2Start at h2
    simp only [bradcAssemble, bind, Except.bind, h1, h2, hout]
    rfl
  · obtain ⟨w, hw, hreadw⟩ := hread pc i hget
    dsimp only at hw hreadw
    rw [hninsn', show (pass2Start a).img.ninsn = 0 from rfl, Nat.zero_add] at hw
    rw [Nat.zero_add] at hreadw
    have hinsn : BvbcImage.insn { b.img with version := BitVec.ofNat 32 bvbcVersion } pc = w :=
      hw.insn_eq
    rw [hinsn]
    exact hreadw

/-- Every instruction is the head of a line. -/
theorem head_mem_docHeads {i : DocInsn} (hi : i ∈ insnsOf lines) (line : Nat) :
    ∃ rest line', i.head rest line' ∈ docHeads lines line := by
  induction lines generalizing line with
  | nil => cases hi
  | cons l lines ih =>
      have hlater (hmem : i ∈ insnsOf lines) : ∃ rest line',
          i.head rest line' ∈ docHeads (l :: lines) line := by
        obtain ⟨rest, line', h⟩ := ih hmem (line + 1)
        exact ⟨rest, line', List.mem_cons_of_mem _ h⟩
      cases l with
      | label name => exact hlater hi
      | insn i' =>
          rcases List.mem_cons.mp hi with rfl | hmem
          · exact ⟨_, _, List.mem_cons_self⟩
          · exact hlater hmem

/-- An instruction of an accepted kernel is in one of the rows the assembler knows. -/
theorem assembled_of_accepted {img' : BvbcImage} (hinsns : img.insns = .array words)
    (hok : bradcAssemble (kernelText k lines) img = .ok img') {i : DocInsn}
    (hi : i ∈ insnsOf lines) :
    i.row.assembled = true := by
  by_contra hrow
  obtain ⟨syms, -, -, hemitted⟩ := bradcAssemble_emitted hinsns hok
  obtain ⟨rest, line, hmem⟩ := head_mem_docHeads hi 2
  obtain ⟨n, hget⟩ := List.mem_iff_getElem?.mp (List.mem_cons_of_mem (kernelHead k _) hmem)
  rw [← sourceLines_kernelText] at hget
  have hkind : lineKind (i.head rest line) = .insn := by rw [lineKind, peekLine_insnHead]
  obtain ⟨-, a, lx', w, hword, -⟩ := hemitted n _ hget hkind
  exact i.refused (by simpa using hrow) _ hword

/-- **Documented forms.** A kernel written in the documented forms is accepted with every
instruction read back as it is written exactly when none of them is a vector load, an atomic, a
vector or a broadcast instruction. -/
theorem bradcAssemble_documented_iff (hinsns : img.insns = .array words)
    (hcount : (insnsOf lines).length ≤ bvbcMaxInsn)
    (hlabels : (labelsOf lines).length ≤ bradcMaxSymbols) (htargets : TargetsInRange lines) :
    (∃ img', bradcAssemble (kernelText k lines) img = .ok img' ∧
      ∀ (pc : Nat) (i : DocInsn), (insnsOf lines)[pc]? = some i →
        i.ReadBack (branchOffset lines pc) (bvDecode (img'.insn pc))) ↔
      ∀ i ∈ insnsOf lines, i.row ∉ [.vectorLoad, .atomic, .vector, .vectorScalar] := by
  have hrow (i : DocInsn) :
      i.row.assembled = true ↔ i.row ∉ [.vectorLoad, .atomic, .vector, .vectorScalar] := by
    cases i.row <;> decide
  constructor
  · rintro ⟨img', hok, -⟩ i hi
    exact (hrow i).mp (assembled_of_accepted hinsns hok hi)
  · intro h
    exact bradcAssemble_kernelText hinsns hcount hlabels htargets fun i hi => (hrow i).mpr (h i hi)

end Kernel

/-! ### Two kernels -/

def identK : Ident := ⟨cstr "k", by decide⟩

/-- `ADD S4, S5, S6`. -/
def addInsn : DocInsn where
  row := .threeRegister
  mn := cstr "ADD"
  op := .add
  pred := none
  operands := [.reg .s 4, .reg .s 5, .reg .s 6]
  mem := List.mem_cons_self
  takes := .cons ⟨rfl, by decide⟩ (.cons ⟨rfl, by decide⟩ (.cons ⟨rfl, by decide⟩ .nil))

/-- `BR_COND@P0 k`. -/
def loopInsn : DocInsn where
  row := .branch
  mn := cstr "BR_COND"
  op := .brCond
  pred := some ⟨0, by decide⟩
  operands := [.label identK]
  mem := List.mem_cons_of_mem _ List.mem_cons_self
  takes := .cons trivial .nil

/-- `VADD V1, V2, V3`. -/
def vaddInsn : DocInsn where
  row := .vector
  mn := cstr "VADD"
  op := .vadd
  pred := none
  operands := [.reg .v 1, .reg .v 2, .reg .v 3]
  mem := List.mem_cons_self
  takes := .cons ⟨rfl, by decide⟩ (.cons ⟨rfl, by decide⟩ (.cons ⟨rfl, by decide⟩ .nil))

theorem loopLines_targets : TargetsInRange [.label identK, .insn addInsn, .insn loopInsn] := by
  intro pc i hget name hname
  match pc, hget with
  | 0, rfl => simp [addInsn] at hname
  | 1, rfl =>
      obtain rfl : name = identK := by simpa [loopInsn] using hname
      exact ⟨-2, by simp [branchOffset, labelPc], by decide, by decide⟩

theorem loopLines_documented_iff :
    (∃ img', bradcAssemble (kernelText identK [.label identK, .insn addInsn, .insn loopInsn])
        BvbcImage.zero = .ok img' ∧
      ∀ (pc : Nat) (i : DocInsn),
        (insnsOf [.label identK, .insn addInsn, .insn loopInsn])[pc]? = some i →
          i.ReadBack (branchOffset [.label identK, .insn addInsn, .insn loopInsn] pc)
            (bvDecode (img'.insn pc))) ↔
      ∀ i ∈ insnsOf [.label identK, .insn addInsn, .insn loopInsn],
        i.row ∉ [.vectorLoad, .atomic, .vector, .vectorScalar] :=
  bradcAssemble_documented_iff (show BvbcImage.zero.insns = .array [] from rfl) (by decide)
    (by decide) loopLines_targets

/-- The source `.kernel k`, `VADD V1, V2, V3`, `.end` is refused. -/
theorem not_forall_bradcAssemble_documented :
    ¬ ∀ (k : Ident) (lines : List DocLine) (img : BvbcImage) (words : List (BitVec 64)),
      img.insns = .array words → (insnsOf lines).length ≤ bvbcMaxInsn →
        (labelsOf lines).length ≤ bradcMaxSymbols → TargetsInRange lines →
          ∃ img', bradcAssemble (kernelText k lines) img = .ok img' ∧
            ∀ (pc : Nat) (i : DocInsn), (insnsOf lines)[pc]? = some i →
              i.ReadBack (branchOffset lines pc) (bvDecode (img'.insn pc)) := by
  intro hall
  have hrefused : (bradcAssemble (kernelText identK [.insn vaddInsn]) BvbcImage.zero).isOk =
      false := by
    decide
  have htargets : TargetsInRange [.insn vaddInsn] := by
    intro pc i hget name hname
    match pc, hget with
    | 0, rfl => simp [vaddInsn] at hname
  obtain ⟨img', hok, -⟩ :=
    hall identK [.insn vaddInsn] BvbcImage.zero [] rfl (by decide) (by decide) htargets
  rw [hok] at hrefused
  cases hrefused

end BradVector
