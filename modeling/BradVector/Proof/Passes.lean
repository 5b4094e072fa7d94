import BradVector.Library.Outcome
import BradVector.Proof.AsmCases

/-!
# The two passes

Both passes count instructions the same way. What the first one puts into the symbol table is the
position of a label in its kernel, and the second one emits a word for every instruction line, in
order.
-/

namespace BradVector

open CSem

/-! ### Positions -/

inductive LineKind where
  | kernel | endKernel | label | insn
  deriving DecidableEq, Repr

def lineKind (h : Lexer) : LineKind :=
  match peekLine h with
  | .dir => if (lexTake h).t.text = cstr "end" then .endKernel else .kernel
  | .label => .label
  | .insn => .insn

/-- Where a line stands: whether it is in a kernel, the number of kernels begun, the instructions
before it in its kernel, and those before it in all kernels. -/
structure Pos where
  inKernel : Bool
  kernel : Nat
  pc : Nat
  ninsn : Nat
  deriving DecidableEq, Repr

def Pos.start : Pos := ⟨false, 0, 0, 0⟩

def Pos.next (p : Pos) (h : Lexer) : Pos :=
  match lineKind h with
  | .kernel => { p with inKernel := true, kernel := p.kernel + 1, pc := 0 }
  | .endKernel => { p with inKernel := false, pc := 0 }
  | .label => p
  | .insn => if p.inKernel then { p with pc := p.pc + 1, ninsn := p.ninsn + 1 } else p

/-- The position of line `n`. -/
def posAt (lines : List Lexer) (n : Nat) : Pos := (lines.take n).foldl Pos.next .start

theorem posAt_succ {lines : List Lexer} {n : Nat} {h : Lexer} (hn : lines[n]? = some h) :
    posAt lines (n + 1) = (posAt lines n).next h := by
  rw [posAt, List.take_add_one, hn, List.foldl_append]
  rfl

/-! ### The first pass -/

/-- A line that defines the label `name`. -/
def LabelLine (lines : List Lexer) (m : Nat) (name : List Byte) : Prop :=
  ∃ h, lines[m]? = some h ∧ lineKind h = .label ∧ h.t.text = name

def InsnLine (lines : List Lexer) (n : Nat) : Prop := ∃ h, lines[n]? = some h ∧ lineKind h = .insn

/-- Every symbol is a label of the source, at its position in its kernel. -/
def SymsFrom (lines : List Lexer) (syms : List BradcSymbol) : Prop :=
  ∀ s ∈ syms, ∃ m, LabelLine lines m s.name ∧ (posAt lines m).inKernel = true ∧
    s.addr = (posAt lines m).pc

/-- What both passes know about where they are. -/
def BradcAsm.AtPos (a : BradcAsm) (p : Pos) : Prop := a.inKernel = p.inKernel ∧ a.kpc = p.pc

theorem bAdd_cases (a : BradcAsm) (name : List Byte) (addr : Nat) :
    bAdd a name addr = a ∨ bAdd a name addr = { a with syms := a.syms ++ [⟨name, addr⟩] } := by
  unfold bAdd
  split_ifs
  · exact Or.inl rfl
  · exact Or.inr rfl

theorem peekLine_label {h : Lexer} (hpeek : peekLine h = .label) :
    (lexTake h).t.kind = .colon := by
  unfold peekLine at hpeek
  split at hpeek
  · split_ifs at hpeek with hcolon
    exact hcolon
  · split_ifs at hpeek
  · cases hpeek

theorem peekLine_dir {h : Lexer} (hpeek : peekLine h = .dir) : (lexTake h).t.kind = .id := by
  unfold peekLine at hpeek
  split at hpeek
  · split_ifs at hpeek
  · split_ifs at hpeek with hdir
    simp only [isDirective, decide_eq_true_eq] at hdir
    exact hdir.1
  · cases hpeek

/-- What the first pass does with a line of each kind. -/
theorem pass1Line_cases {a a' : BradcAsm} {h lx' : Lexer}
    (hok : pass1Line h a = .ok (lx', a')) :
    (peekLine h = .dir ∧ lx' = lexTake h ∧
      a' = { a with inKernel := (lexTake h).t.text ≠ cstr "end", kpc := 0 }) ∨
    (peekLine h = .label ∧ lx' = lexTake (lexTake h) ∧
      (a' = a ∨ a.inKernel = true ∧ a' = { a with syms := a.syms ++ [⟨h.t.text, a.kpc⟩] })) ∨
    (peekLine h = .insn ∧ lx' = h ∧
      a' = if a.inKernel then { a with kpc := a.kpc + 1 } else a) := by
  unfold pass1Line at hok
  split at hok <;> rename_i hpeek
  · cases hok
    exact Or.inl ⟨hpeek, rfl, rfl⟩
  · cases hok
    refine Or.inr (Or.inl ⟨hpeek, rfl, ?_⟩)
    split_ifs with hadd
    · rcases bAdd_cases a h.t.text a.kpc with heq | heq
      · exact Or.inl heq
      · exact Or.inr ⟨hadd.1, heq⟩
    · exact Or.inl rfl
  · cases hok
    exact Or.inr (Or.inr ⟨hpeek, rfl, rfl⟩)

theorem pass1Line_atPos {a a' : BradcAsm} {h lx' : Lexer} {p : Pos} (hpos : a.AtPos p)
    (hok : pass1Line h a = .ok (lx', a')) : a'.AtPos (p.next h) ∧ a'.img = a.img := by
  obtain ⟨hin, hpc⟩ := hpos
  obtain ⟨hpeek, -, rfl⟩ | ⟨hpeek, -, rfl | ⟨-, rfl⟩⟩ | ⟨hpeek, -, rfl⟩ := pass1Line_cases hok
  · refine ⟨?_, rfl⟩
    unfold Pos.next lineKind
    by_cases hend : (lexTake h).t.text = cstr "end" <;> simp [BradcAsm.AtPos, hpeek, hend]
  · have hnext : p.next h = p := by simp [Pos.next, lineKind, hpeek]
    rw [hnext]
    exact ⟨⟨hin, hpc⟩, rfl⟩
  · have hnext : p.next h = p := by simp [Pos.next, lineKind, hpeek]
    rw [hnext]
    exact ⟨⟨hin, hpc⟩, rfl⟩
  · simp only [Pos.next, lineKind, hpeek, ← hin]
    split_ifs
    · exact ⟨⟨rfl, congrArg (· + 1) hpc⟩, rfl⟩
    · exact ⟨⟨hin, hpc⟩, rfl⟩

theorem pass1Line_syms {a a' : BradcAsm} {h lx' : Lexer} {s : BradcSymbol}
    (hok : pass1Line h a = .ok (lx', a')) (hs : s ∈ a'.syms) :
    s ∈ a.syms ∨ lineKind h = .label ∧ a.inKernel = true ∧ s = ⟨h.t.text, a.kpc⟩ := by
  obtain ⟨-, -, rfl⟩ | ⟨hpeek, -, rfl | ⟨hin, rfl⟩⟩ | ⟨-, -, rfl⟩ := pass1Line_cases hok
  · exact Or.inl hs
  · exact Or.inl hs
  · rcases List.mem_append.mp hs with hs | hs
    · exact Or.inl hs
    · exact Or.inr ⟨by simp [lineKind, hpeek], hin, List.mem_singleton.mp hs⟩
  · split_ifs at hs <;> exact Or.inl hs

theorem pass1Line_skipLine {a : BradcAsm} {h lx' : Lexer} {a' : BradcAsm} (hline : ¬ h.AtLineEnd)
    (hok : pass1Line h a = .ok (lx', a')) : skipLine lx' = skipLine h := by
  obtain ⟨-, rfl, -⟩ | ⟨hpeek, rfl, -⟩ | ⟨-, rfl, -⟩ := pass1Line_cases hok
  · exact skipLine_lexTake hline
  · rw [skipLine_lexTake (by simp [Lexer.AtLineEnd, peekLine_label hpeek]), skipLine_lexTake hline]
  · rfl

theorem map_snd_eq_ok {α β ε : Type} {x : Except ε (α × β)} {b : β}
    (h : x.map Prod.snd = .ok b) : ∃ a, x = .ok (a, b) := by
  cases x with
  | error e => cases h
  | ok r =>
      cases h
      exact ⟨r.1, rfl⟩

theorem pass1_syms {source : List Byte} {a a' : BradcAsm} (hstart : a.AtPos .start)
    (hnone : a.syms = [])
    (hok : lineLoop pass1Line (passFuel source) (lexTake (lxInit source)) a = .ok a') :
    SymsFrom (sourceLines source) a'.syms ∧ a'.img = a.img := by
  rw [lineLoop_eq fun h s lx' s' hline hok => pass1Line_skipLine hline hok] at hok
  refine (foldlM_ok (I := fun k b => b.AtPos (posAt (sourceLines source) k) ∧
    SymsFrom (sourceLines source) b.syms ∧ b.img = a.img) hok
    ⟨hstart, by simp [SymsFrom, hnone], rfl⟩ fun k hk b b' ⟨hpos, hsyms, himg⟩ hstep => ?_).2
  obtain ⟨lx', hline⟩ := map_snd_eq_ok hstep
  have hget : (sourceLines source)[k]? = some (sourceLines source)[k] := List.getElem?_eq_getElem hk
  obtain ⟨hpos', himg'⟩ := pass1Line_atPos hpos hline
  refine ⟨posAt_succ hget ▸ hpos', fun s hs => ?_, himg'.trans himg⟩
  rcases pass1Line_syms hline hs with hs | ⟨hkind, hin, rfl⟩
  · exact hsyms s hs
  · exact ⟨k, ⟨_, hget, hkind, rfl⟩, hpos.1 ▸ hin, hpos.2⟩

/-! ### The second pass -/

theorem emitted_word (insn : BitVec 64) :
    (insn.setWidth 32).setWidth 64 ||| ((insn >>> 32).setWidth 32).setWidth 64 <<< 32 = insn := by
  apply BitVec.eq_of_getLsbD_eq
  intro i hi
  simp only [BitVec.getLsbD_or, BitVec.getLsbD_setWidth, BitVec.getLsbD_shiftLeft,
    BitVec.getLsbD_ushiftRight]
  by_cases hlow : i < 32
  · simp [hlow, hi]
  · have hadd : 32 + (i - 32) = i := by omega
    have hsmall : i - 32 < 32 := by omega
    have hsmall' : i - 32 < 64 := by omega
    simp [hlow, hi, hadd, hsmall, hsmall']

/-- The image's instruction array holds `w` at `i`. -/
def BvbcImage.HasInsn (img : BvbcImage) (i : Nat) (w : BitVec 64) : Prop :=
  ∃ words, img.insns = .array words ∧ words[i]? = some w

/-- The instructions so far are in the array. -/
def BvbcImage.Filled (img : BvbcImage) : Prop :=
  ∃ words, img.insns = .array words ∧ img.ninsn ≤ words.length

theorem BvbcImage.HasInsn.insn_eq {img : BvbcImage} {i : Nat} {w : BitVec 64}
    (h : img.HasInsn i w) : img.insn i = w := by
  obtain ⟨words, hwords, hw⟩ := h
  simp [BvbcImage.insn, hwords, InsnStream.get, hw]

theorem bvbcEmit_eq_some {img img' : BvbcImage} {insn : BitVec 64} (hfilled : img.Filled)
    (h : bvbcEmit img insn = some img') :
    img'.ninsn = img.ninsn + 1 ∧ img'.HasInsn img.ninsn insn ∧ img'.Filled ∧
      ∀ i w, i < img.ninsn → img.HasInsn i w → img'.HasInsn i w := by
  obtain ⟨words, hwords, hlen⟩ := hfilled
  unfold bvbcEmit bvbcAddInsn32 at h
  rw [emitted_word] at h
  split_ifs at h with hfull
  obtain rfl := Option.some.inj h
  have hset : img.insns.set img.ninsn insn =
      .array (words.take img.ninsn ++ insn :: words.drop (img.ninsn + 1)) := by
    rw [hwords]
    rfl
  refine ⟨rfl, ⟨_, hset, ?_⟩, ⟨_, hset, ?_⟩, fun i w hi ⟨words', hwords', hw⟩ => ⟨_, hset, ?_⟩⟩
  · rw [List.getElem?_append_right (by simp)]
    simp [hlen]
  · simp only [List.length_append, List.length_take, List.length_cons, List.length_drop]
    omega
  · obtain rfl : words' = words := by
      rw [hwords'] at hwords
      exact (InsnStream.array.inj hwords)
    rw [List.getElem?_append_left (by simp; omega), List.getElem?_take_of_lt hi]
    exact hw

theorem bEmit_eq_ok {a a' : BradcAsm} {insn : BitVec 64} {line : Nat}
    (h : bEmit a insn line = .ok a') :
    a.inKernel = true ∧ ∃ img, bvbcEmit a.img insn = some img ∧
      a' = { a with img, kpc := a.kpc + 1 } := by
  unfold bEmit bErr at h
  split_ifs at h with hin
  split at h
  · cases h
  · cases h
    exact ⟨by simpa using hin, _, ‹_›, rfl⟩

theorem asmInsn_eq_ok {a a' : BradcAsm} {h lx' : Lexer} (hok : asmInsn a h = .ok (lx', a')) :
    ∃ w img, insnWord a h = .ok (lx', w) ∧ a.inKernel = true ∧ bvbcEmit a.img w = some img ∧
      a' = { a with img, kpc := a.kpc + 1 } := by
  unfold asmInsn at hok
  cases hword : insnWord a h with
  | error e => simp [hword, bind, Except.bind] at hok
  | ok r =>
      obtain ⟨lx, w⟩ := r
      simp only [hword, bind, Except.bind] at hok
      cases hemit : bEmit a w lx.line with
      | error e => simp [hemit] at hok
      | ok b =>
          simp only [hemit] at hok
          obtain ⟨rfl, rfl⟩ := by simpa [pure, Except.pure] using hok
          obtain ⟨hin, img, himg, rfl⟩ := bEmit_eq_ok hemit
          exact ⟨w, img, rfl, hin, himg, rfl⟩

theorem bvbcAddKernel_cases {img img' : BvbcImage} {name : List Byte} {entry nargs : Word}
    (h : bvbcAddKernel img name entry nargs = some img') :
    img'.ninsn = img.ninsn ∧ img'.insns = img.insns ∧
      img'.kernels = img.kernels ++ [⟨kernelName name, entry, nargs⟩] := by
  unfold bvbcAddKernel at h
  split_ifs at h
  cases h
  exact ⟨rfl, rfl, rfl⟩

/-! ### The second pass -/

section Pass2

variable {a a' : BradcAsm} {lx lx' : Lexer}

theorem asmDirective_cases (hok : asmDirective a lx = .ok (lx', a')) :
    ((lexTake lx).t.text = cstr "end" ∧ a.inKernel = true ∧ lx' = lexTake lx ∧
      a' = { a with inKernel := false, kpc := 0 }) ∨
    ((lexTake lx).t.text ≠ cstr "end" ∧ a.inKernel = false ∧ lx' = nextSrc (lexTake lx) ∧
      ∃ img name, bvbcAddKernel a.img name (BitVec.ofNat 32 a.img.ninsn) 0 = some img ∧
        a' = { a with img, inKernel := true, kpc := 0 }) := by
  unfold asmDirective bErr at hok
  dsimp only at hok
  split_ifs at hok with hend hin hin hname
  · cases hok
    exact .inl ⟨hend, by simpa using hin, rfl, rfl⟩
  · split at hok
    · cases hok
    · cases hok
      exact .inr ⟨hend, by simpa using hin, rfl, _, _, ‹_›, rfl⟩

/-- What the second pass does with a line of each kind. -/
theorem pass2Line_cases (hok : pass2Line lx a = .ok (lx', a')) :
    (lineKind lx = .endKernel ∧ a.inKernel = true ∧ a' = { a with inKernel := false, kpc := 0 }) ∨
    (lineKind lx = .kernel ∧ a.inKernel = false ∧ ∃ img name,
      bvbcAddKernel a.img name (BitVec.ofNat 32 a.img.ninsn) 0 = some img ∧
        a' = { a with img, inKernel := true, kpc := 0 }) ∨
    (lineKind lx = .label ∧ a' = a) ∨
    (lineKind lx = .insn ∧ a.inKernel = true ∧ ∃ w img, insnWord a lx = .ok (lx', w) ∧
      bvbcEmit a.img w = some img ∧ a' = { a with img, kpc := a.kpc + 1 }) := by
  unfold pass2Line at hok
  cases hpeek : peekLine lx with
  | dir =>
      simp only [hpeek] at hok
      obtain ⟨hend, hin, -, ha⟩ | ⟨hend, hin, -, himg⟩ := asmDirective_cases hok
      · exact .inl ⟨by simp [lineKind, hpeek, hend], hin, ha⟩
      · exact .inr (.inl ⟨by simp [lineKind, hpeek, hend], hin, himg⟩)
  | label =>
      simp only [hpeek] at hok
      cases hok
      exact .inr (.inr (.inl ⟨by simp [lineKind, hpeek], rfl⟩))
  | insn =>
      simp only [hpeek] at hok
      obtain ⟨w, img, hword, hin, himg, ha⟩ := asmInsn_eq_ok hok
      exact .inr (.inr (.inr ⟨by simp [lineKind, hpeek], hin, w, img, hword, himg, ha⟩))

theorem pass2Line_atPos {p : Pos} (hpos : a.AtPos p) (hok : pass2Line lx a = .ok (lx', a')) :
    a'.AtPos (p.next lx) := by
  obtain ⟨hin, hpc⟩ := hpos
  unfold Pos.next
  obtain ⟨hkind, _, rfl⟩ | ⟨hkind, _, _, _, _, rfl⟩ | ⟨hkind, rfl⟩ |
      ⟨hkind, hkernel, _, _, _, _, rfl⟩ :=
    pass2Line_cases hok
  · rw [hkind]
    exact ⟨rfl, rfl⟩
  · rw [hkind]
    exact ⟨rfl, rfl⟩
  · rw [hkind]
    exact ⟨hin, hpc⟩
  · rw [hkind]
    dsimp only
    rw [if_pos (hin ▸ hkernel)]
    exact ⟨hin, congrArg (· + 1) hpc⟩

end Pass2

theorem pass2Line_skipLine {a a' : BradcAsm} {h lx' : Lexer} (hline : ¬ h.AtLineEnd)
    (hok : pass2Line h a = .ok (lx', a')) : skipLine lx' = skipLine h := by
  unfold pass2Line at hok
  split at hok
  · have hkind := peekLine_dir ‹_›
    obtain ⟨-, -, rfl, -⟩ | ⟨-, -, rfl, -⟩ := asmDirective_cases hok
    · exact skipLine_lexTake hline
    · rw [skipLine_nextSrc (by simp [Lexer.AtLineEnd, hkind]), skipLine_lexTake hline]
  · cases hok
    rfl
  · obtain ⟨w, img, hword, -⟩ := asmInsn_eq_ok hok
    exact insnWord_skipLine hword hline

/-- The instruction line `h`, at position `p`, was assembled with the symbols `syms` to the word the
image holds at its place. -/
def Emitted (syms : List BradcSymbol) (img : BvbcImage) (p : Pos) (h : Lexer) : Prop :=
  p.inKernel = true ∧ ∃ a lx' w, insnWord a h = .ok (lx', w) ∧ a.syms = syms ∧ a.kpc = p.pc ∧
    img.HasInsn p.ninsn w

/-- After the first `k` lines of the second pass. -/
structure Pass2Done (lines : List Lexer) (syms : List BradcSymbol) (k : Nat) (a : BradcAsm) :
    Prop where
  atPos : a.AtPos (posAt lines k)
  symsEq : a.syms = syms
  filled : a.img.Filled
  ninsn : a.img.ninsn = (posAt lines k).ninsn
  emitted : ∀ n < k, ∀ h, lines[n]? = some h → lineKind h = .insn →
    Emitted syms a.img (posAt lines n) h ∧ (posAt lines n).ninsn < a.img.ninsn

section Pass2Done

variable {lines : List Lexer} {syms : List BradcSymbol} {k : Nat} {a a' : BradcAsm} {h lx' : Lexer}

/-- A line that is no instruction and keeps the instructions there are. -/
theorem Pass2Done.keep (hdone : Pass2Done lines syms k a) (hget : lines[k]? = some h)
    (hkind : lineKind h ≠ .insn) (hpos : a'.AtPos ((posAt lines k).next h))
    (hsyms : a'.syms = a.syms)
    (hninsn : a'.img.ninsn = a.img.ninsn) (hinsns : a'.img.insns = a.img.insns) :
    Pass2Done lines syms (k + 1) a' := by
  have hcount : ((posAt lines k).next h).ninsn = (posAt lines k).ninsn := by
    unfold Pos.next
    cases hk : lineKind h with
    | insn => exact absurd hk hkind
    | _ => rfl
  refine ⟨posAt_succ hget ▸ hpos, hsyms.trans hdone.symsEq, ?_, ?_, fun n hn h' hget' hk => ?_⟩
  · obtain ⟨words, hwords, hlen⟩ := hdone.filled
    exact ⟨words, hinsns.trans hwords, hninsn ▸ hlen⟩
  · rw [hninsn, hdone.ninsn, posAt_succ hget, hcount]
  · rcases Nat.lt_succ_iff_lt_or_eq.mp hn with hn | rfl
    · obtain ⟨⟨hin, b, lx, w, hword, hbsyms, hpc, words, hwords, hw⟩, hlt⟩ :=
        hdone.emitted n hn h' hget' hk
      exact ⟨⟨hin, b, lx, w, hword, hbsyms, hpc, words, hinsns.trans hwords, hw⟩, hninsn ▸ hlt⟩
    · rw [hget] at hget'
      exact absurd (Option.some.inj hget' ▸ hk) hkind

theorem Pass2Done.emit (hdone : Pass2Done lines syms k a) (hget : lines[k]? = some h)
    (hkind : lineKind h = .insn) (hin : a.inKernel = true) {w : BitVec 64} {img : BvbcImage}
    (hword : insnWord a h = .ok (lx', w)) (himg : bvbcEmit a.img w = some img)
    (hpos : ({ a with img, kpc := a.kpc + 1 } : BradcAsm).AtPos ((posAt lines k).next h)) :
    Pass2Done lines syms (k + 1) { a with img, kpc := a.kpc + 1 } := by
  obtain ⟨hninsn, hhas, hfilled, hkeep⟩ := bvbcEmit_eq_some hdone.filled himg
  have hpin : (posAt lines k).inKernel = true := hdone.atPos.1 ▸ hin
  have hnext : posAt lines (k + 1) =
      { posAt lines k with pc := (posAt lines k).pc + 1, ninsn := (posAt lines k).ninsn + 1 } := by
    rw [posAt_succ hget, Pos.next, hkind]
    exact if_pos hpin
  refine ⟨posAt_succ hget ▸ hpos, hdone.symsEq, hfilled, ?_, fun n hn h' hget' hk => ?_⟩
  · rw [hnext, hninsn, hdone.ninsn]
  · rcases Nat.lt_succ_iff_lt_or_eq.mp hn with hn | rfl
    · obtain ⟨⟨hin', b, lx, w', hword', hbsyms, hpc, hw'⟩, hlt⟩ := hdone.emitted n hn h' hget' hk
      exact ⟨⟨hin', b, lx, w', hword', hbsyms, hpc, hkeep _ _ hlt hw'⟩, by simp only; omega⟩
    · rw [hget] at hget'
      obtain rfl := Option.some.inj hget'
      rw [hdone.ninsn] at hhas
      exact ⟨⟨hpin, a, lx', w, hword, hdone.symsEq, hdone.atPos.2, hhas⟩,
        by rw [hninsn, hdone.ninsn]; omega⟩

theorem Pass2Done.next (hdone : Pass2Done lines syms k a) (hget : lines[k]? = some h)
    (hok : pass2Line h a = .ok (lx', a')) : Pass2Done lines syms (k + 1) a' := by
  have hpos := pass2Line_atPos hdone.atPos hok
  obtain ⟨hkind, -, rfl⟩ | ⟨hkind, -, img, name, himg, rfl⟩ | ⟨hkind, rfl⟩ |
    ⟨hkind, hin, w, img, hword, himg, rfl⟩ := pass2Line_cases hok
  · exact hdone.keep hget (by simp [hkind]) hpos rfl rfl rfl
  · obtain ⟨hninsn, hinsns, -⟩ := bvbcAddKernel_cases himg
    exact hdone.keep hget (by simp [hkind]) hpos rfl hninsn hinsns
  · exact hdone.keep hget (by simp [hkind]) hpos rfl rfl rfl
  · exact hdone.emit hget hkind hin hword himg hpos

end Pass2Done

def pass1Start (img : BvbcImage) : BradcAsm := { img, syms := [], inKernel := false, kpc := 0 }

def pass2Start (a : BradcAsm) : BradcAsm :=
  { a with
    img := { a.img with kernels := [], ninsn := 0, stringPool := [] }
    inKernel := false
    kpc := 0 }

theorem bradcAssemble_eq_ok {source : List Byte} {img img' : BvbcImage}
    (hok : bradcAssemble source img = .ok img') :
    ∃ a b, lineLoop pass1Line (passFuel source) (lexTake (lxInit source)) (pass1Start img) = .ok a ∧
      lineLoop pass2Line (passFuel source) (lexTake (lxInit source)) (pass2Start a) = .ok b ∧
      b.inKernel = false ∧ img' = { b.img with version := BitVec.ofNat 32 bvbcVersion } := by
  unfold bradcAssemble at hok
  simp only [bind, Except.bind] at hok
  unfold pass1Start pass2Start
  split at hok
  · cases hok
  · rename_i a hpass1
    split at hok
    · cases hok
    · rename_i b hpass2
      split_ifs at hok with hopen
      · cases hok
      · exact ⟨a, b, hpass1, hpass2, by simpa using hopen, (Except.ok.inj hok).symm⟩

/-- **The passes.** An accepted source defines its symbols as the first pass finds them, and every
instruction line is emitted with these symbols at its position. -/
theorem bradcAssemble_emitted {source : List Byte} {img img' : BvbcImage}
    {words : List (BitVec 64)} (hinsns : img.insns = .array words)
    (hok : bradcAssemble source img = .ok img') :
    ∃ syms, SymsFrom (sourceLines source) syms ∧
      img'.ninsn = (posAt (sourceLines source) (sourceLines source).length).ninsn ∧
      ∀ n h, (sourceLines source)[n]? = some h → lineKind h = .insn →
        Emitted syms img' (posAt (sourceLines source) n) h := by
  obtain ⟨a, b, hpass1, hpass2, -, rfl⟩ := bradcAssemble_eq_ok hok
  obtain ⟨hsyms, himg⟩ := pass1_syms ⟨rfl, rfl⟩ rfl hpass1
  rw [lineLoop_eq fun h s lx' s' hline hok => pass2Line_skipLine hline hok] at hpass2
  have hwords : (pass2Start a).img.insns = .array words :=
    (congrArg BvbcImage.insns himg).trans hinsns
  have hstart : Pass2Done (sourceLines source) a.syms 0 (pass2Start a) :=
    ⟨⟨rfl, rfl⟩, rfl, ⟨words, hwords, Nat.zero_le _⟩, rfl, fun n hn =>
      absurd hn (Nat.not_lt_zero n)⟩
  have hdone := foldlM_ok (I := fun k c => Pass2Done (sourceLines source) a.syms k c) hpass2 hstart
    fun k hk c c' hc hstep => by
      obtain ⟨lx', hline⟩ := map_snd_eq_ok hstep
      exact hc.next (List.getElem?_eq_getElem hk) hline
  refine ⟨a.syms, hsyms, hdone.ninsn, fun n h hget hkind => ?_⟩
  exact (hdone.emitted n (List.getElem?_eq_some_iff.mp hget).1 h hget hkind).1

end BradVector
