import BradVector.Proof.Passes

/-!
# Label resolution

A branch reaches its label when the label is one of its own kernel with an instruction behind it.
The assembler checks neither: the symbol table knows no kernels.
-/

namespace BradVector

open CSem

/-! ### Labels of the source -/

/-- The first operand's token, behind the mnemonic and its predicate. -/
def operandStart (h : Lexer) : Lexer :=
  if (lexTake h).t.kind = .at then nextSrc (lexTake (lexTake h)) else lexTake h

/-- The label an instruction line branches to. -/
def branchLabel (h : Lexer) : Option (List Byte) :=
  match opOf h.t.text with
  | some op =>
      if op.isJump ∧ (operandStart h).t.kind = .id then some (operandStart h).t.text else none
  | none => none

/-- No two label lines of the file define the same name. -/
def LabelsUnique (lines : List Lexer) : Prop :=
  ∀ m m' name, LabelLine lines m name → LabelLine lines m' name → m = m'

/-- Two lines of the same kernel. -/
def SameKernel (lines : List Lexer) (n m : Nat) : Prop :=
  (posAt lines n).inKernel = true ∧ (posAt lines m).inKernel = true ∧
    (posAt lines n).kernel = (posAt lines m).kernel

/-- Line `m` defines `name` in the kernel of line `n`, and line `q` is the first instruction that
follows in that kernel. -/
structure LabelTarget (lines : List Lexer) (n : Nat) (name : List Byte) (m q : Nat) : Prop where
  label : LabelLine lines m name
  sameKernel : SameKernel lines n m
  insn : InsnLine lines q
  insnKernel : SameKernel lines m q
  after : m < q
  first : ∀ r, m < r → r < q → ¬ InsnLine lines r

/-- Every branch to a label names one of its kernel with an instruction of the kernel behind it. -/
def LabelsInScope (lines : List Lexer) : Prop :=
  ∀ n h name, lines[n]? = some h → lineKind h = .insn → branchLabel h = some name →
    ∃ m q, LabelTarget lines n name m q

/-- Every branch to a label goes from its kernel-relative address to that of the instruction behind
the label. -/
def Resolves (lines : List Lexer) (img : BvbcImage) : Prop :=
  ∀ n h name, lines[n]? = some h → lineKind h = .insn → branchLabel h = some name →
    ∃ m q, LabelTarget lines n name m q ∧
      ((posAt lines n).pc : Int) + 1 +
        (bvDecode (img.insn (posAt lines n).ninsn)).imm.toInt = (posAt lines q).pc

/-! ### Positions within a kernel -/

theorem Pos.kernel_le_next (p : Pos) (h : Lexer) : p.kernel ≤ (p.next h).kernel := by
  unfold Pos.next
  split
  · exact Nat.le_succ _
  · exact le_refl _
  · exact le_refl _
  · split_ifs <;> exact le_refl _

theorem posAt_kernel_mono {lines : List Lexer} {m n : Nat} (h : m ≤ n) :
    (posAt lines m).kernel ≤ (posAt lines n).kernel := by
  induction n, h using Nat.le_induction with
  | base => exact le_refl _
  | succ n _ ih =>
      cases hn : lines[n]? with
      | none =>
          have hlen : lines.length ≤ n := List.getElem?_eq_none_iff.mp hn
          have hstay : posAt lines (n + 1) = posAt lines n := by
            rw [posAt, posAt, List.take_of_length_le hlen, List.take_of_length_le (by omega)]
          rwa [hstay]
      | some h => exact ih.trans (posAt_succ hn ▸ Pos.kernel_le_next _ _)

/-- Going back from a line of the kernel a label is in, over lines that are no instructions, one
stays at its position. -/
theorem Pos.eq_of_next {p : Pos} {h : Lexer} {k : Nat} (hin : (p.next h).inKernel = true)
    (hkernel : (p.next h).kernel = k) (hle : k ≤ p.kernel) (hinsn : lineKind h ≠ .insn) :
    p.next h = p := by
  unfold Pos.next at hin hkernel ⊢
  cases hkind : lineKind h with
  | kernel =>
      simp only [hkind] at hkernel
      omega
  | endKernel => simp [hkind] at hin
  | label => rfl
  | insn => exact absurd hkind hinsn

theorem LabelTarget.pc_eq {lines : List Lexer} {n m q : Nat} {name : List Byte}
    (h : LabelTarget lines n name m q) : (posAt lines m).pc = (posAt lines q).pc := by
  obtain ⟨h₀, hget₀, hkind₀, -⟩ := h.label
  obtain ⟨-, hin, hkernel⟩ := h.insnKernel
  obtain ⟨hq, hqget, -⟩ := h.insn
  have hqlen : q < lines.length := (List.getElem?_eq_some_iff.mp hqget).1
  -- down from `q` to `m`, no line in between changes the position
  have hback : ∀ i, i ≤ q - m → posAt lines (q - i) = posAt lines q := by
    intro i
    induction i with
    | zero => exact fun _ => rfl
    | succ i ih =>
        intro hi
        have hprev := ih (by omega)
        obtain ⟨r, hr⟩ : ∃ r, q - i = r + 1 := ⟨q - i - 1, by omega⟩
        have hrq : q - (i + 1) = r := by omega
        have hget : lines[r]? = some lines[r] := List.getElem?_eq_getElem (by omega)
        rw [hr, posAt_succ hget] at hprev
        have hnotinsn : lineKind lines[r] ≠ .insn := by
          intro hkind
          rcases Nat.lt_or_ge m r with hlt | hge
          · exact h.first r hlt (by omega) ⟨_, hget, hkind⟩
          · obtain rfl : r = m := by omega
            rw [hget₀] at hget
            rw [← Option.some.inj hget, hkind₀] at hkind
            cases hkind
        have hstay := Pos.eq_of_next (by rw [hprev, hin]) (by rw [hprev, ← hkernel])
          (posAt_kernel_mono (show m ≤ r by omega)) hnotinsn
        rw [hrq, ← hstay, hprev]
  have hm := hback (q - m) (le_refl _)
  rw [show q - (q - m) = m by have := h.after; omega] at hm
  rw [hm]

/-! ### Branches -/

theorem PredForm.operandStart_eq {lx lx' : Lexer} {pred : BitVec 8} (h : PredForm lx lx' pred) :
    operandStart lx = lx' := by
  cases h with
  | absent hat => rw [operandStart, if_neg hat]
  | present hat => rw [operandStart, if_pos hat]

theorem branchLabel_eq_some {h : Lexer} {name : List Byte} (hb : branchLabel h = some name) :
    ∃ op, opOf h.t.text = some op ∧ op.isJump ∧ (operandStart h).t.kind = .id ∧
      (operandStart h).t.text = name := by
  unfold branchLabel at hb
  split at hb
  · split_ifs at hb with hjump
    exact ⟨_, ‹_›, hjump.1, hjump.2, Option.some.inj hb⟩
  · cases hb

theorem branchWord_of_label {a : BradcAsm} {lx : Lexer} {op pred : BitVec 8} {w : BitVec 64}
    (hok : branchWord a lx op pred = .ok w) (hkind : lx.t.kind = .id) :
    ∃ s ∈ a.syms, s.name = lx.t.text ∧ -128 ≤ (s.addr : Int) - (a.kpc + 1) ∧
      (s.addr : Int) - (a.kpc + 1) ≤ 127 ∧
      w = bven op pred 0 0 0 (BitVec.ofInt 8 ((s.addr : Int) - (a.kpc + 1))) 0 0 := by
  unfold branchWord bErr at hok
  rw [hkind] at hok
  cases hfind : bFind a lx.t.text with
  | none => simp [hfind] at hok
  | some s =>
      simp only [hfind] at hok
      split_ifs at hok with hrange
      obtain ⟨hlo, hhi⟩ := not_or.mp hrange
      exact ⟨s, List.mem_of_find?_eq_some hfind, by simpa using List.find?_some hfind,
        not_lt.mp hlo, not_lt.mp hhi, (Except.ok.inj hok).symm⟩

theorem toInt_ofInt_8 {d : Int} (hlo : -128 ≤ d) (hhi : d ≤ 127) :
    (BitVec.ofInt 8 d).toInt = d := by
  rw [BitVec.toInt_ofInt, Int.bmod_eq_of_le] <;> omega

/-- A branch to a label goes to the position some label line of this name has in its kernel. -/
theorem Emitted.label_addr {lines : List Lexer} {syms : List BradcSymbol} {img : BvbcImage}
    {p : Pos}
    {h : Lexer} {name : List Byte} (hem : Emitted syms img p h) (hsyms : SymsFrom lines syms)
    (hb : branchLabel h = some name) :
    ∃ m, LabelLine lines m name ∧
      (p.pc : Int) + 1 + (bvDecode (img.insn p.ninsn)).imm.toInt = (posAt lines m).pc := by
  obtain ⟨-, a, lx', w, hword, rfl, hkpc, hinsn⟩ := hem
  obtain ⟨op, hop, hjump, hkind, hname⟩ := branchLabel_eq_some hb
  obtain ⟨op', pred, start, hop', hpred, hform⟩ := insnWord_form hword
  obtain rfl : op = op' := Option.some.inj (hop.symm.trans hop')
  rw [hpred.operandStart_eq] at hkind hname
  cases hform with
  | plain hplain => rcases hjump with rfl | rfl | rfl <;> simp [Opcode.isPlain] at hplain
  | special hspecial => rcases hjump with rfl | rfl | rfl <;> simp [Opcode.isSpecial] at hspecial
  | sources _ hnot => exact absurd hjump hnot
  | jump _ hbranch =>
      obtain ⟨s, hs, hsname, hlo, hhi, rfl⟩ := branchWord_of_label hbranch hkind
      obtain ⟨m, hlabel, -, haddr⟩ := hsyms s hs
      refine ⟨m, hname ▸ hsname ▸ hlabel, ?_⟩
      rw [hinsn.insn_eq, bvDecode_bven, toInt_ofInt_8 hlo hhi, hkpc, ← haddr]
      omega

/-- **Label resolution.** In an accepted source with unique labels, every branch to a label resolves
to the instruction behind it exactly when every such label is one of the branch's own kernel, with
an instruction of that kernel behind it. -/
theorem bradcAssemble_resolves_iff {source : List Byte} {img img' : BvbcImage}
    {words : List (BitVec 64)} (hinsns : img.insns = .array words)
    (hok : bradcAssemble source img = .ok img') (hunique : LabelsUnique (sourceLines source)) :
    Resolves (sourceLines source) img' ↔ LabelsInScope (sourceLines source) := by
  obtain ⟨syms, hsyms, -, hemitted⟩ := bradcAssemble_emitted hinsns hok
  constructor
  · intro hres n h name hget hkind hb
    obtain ⟨m, q, htarget, -⟩ := hres n h name hget hkind hb
    exact ⟨m, q, htarget⟩
  · intro hscope n h name hget hkind hb
    obtain ⟨m, q, htarget⟩ := hscope n h name hget hkind hb
    obtain ⟨m', hlabel, haddr⟩ := (hemitted n h hget hkind).label_addr hsyms hb
    obtain rfl := hunique m m' name htarget.label hlabel
    exact ⟨m, q, htarget, haddr.trans (congrArg Nat.cast htarget.pc_eq)⟩

instance (lines : List Lexer) (m : Nat) (name : List Byte) : Decidable (LabelLine lines m name) :=
  decidable_of_iff (lines[m]?.any fun h => lineKind h = .label ∧ h.t.text = name) <| by
    simp [LabelLine, Option.any_eq_true]

instance (lines : List Lexer) (n m : Nat) : Decidable (SameKernel lines n m) := by
  unfold SameKernel
  infer_instance

theorem LabelLine.lt_length {lines : List Lexer} {m : Nat} {name : List Byte}
    (h : LabelLine lines m name) : m < lines.length := by
  obtain ⟨_, hget, -⟩ := h
  exact (List.getElem?_eq_some_iff.mp hget).1

theorem labelsUnique_of_one {lines : List Lexer} {k : Nat}
    (h : ∀ m < lines.length, lines[m]?.any (fun h => lineKind h = .label) = true → m = k) :
    LabelsUnique lines := by
  have hone (m : Nat) (name : List Byte) (hm : LabelLine lines m name) : m = k := by
    refine h m hm.lt_length ?_
    obtain ⟨h', hget, hkind, -⟩ := hm
    simp [hget, hkind]
  exact fun m m' name hm hm' => (hone m name hm).trans (hone m' name hm').symm

/-- A kernel that loops for ever. -/
def loopSource : List Byte := cstr ".kernel k\nl:\nBR l\n.end"

theorem loopSource_resolves_iff :
    ∃ img', bradcAssemble loopSource BvbcImage.zero = .ok img' ∧
      (Resolves (sourceLines loopSource) img' ↔ LabelsInScope (sourceLines loopSource)) := by
  have hok : (bradcAssemble loopSource BvbcImage.zero).isOk = true := by decide
  cases h : bradcAssemble loopSource BvbcImage.zero with
  | error e => simp [h, Except.isOk, Except.toBool] at hok
  | ok img' =>
      exact ⟨img', rfl, bradcAssemble_resolves_iff (show BvbcImage.zero.insns = .array [] from
        rfl) h (labelsUnique_of_one (k := 1) (by decide))⟩

/-- Two kernels, the second one with a branch to the label of the first one. -/
def crossSource : List Byte :=
  cstr ".kernel a\nfoo:\nEXIT\n.end\n.kernel b\nBR foo\nEXIT\n.end"

/-- The branch is accepted, and there is no label `foo` in its kernel to reach. -/
theorem not_forall_bradcAssemble_resolves :
    ¬ ∀ (source : List Byte) (img img' : BvbcImage) (words : List (BitVec 64)),
      img.insns = .array words → bradcAssemble source img = .ok img' →
        LabelsUnique (sourceLines source) → Resolves (sourceLines source) img' := by
  intro hall
  have hok : (bradcAssemble crossSource BvbcImage.zero).isOk = true := by decide
  cases h : bradcAssemble crossSource BvbcImage.zero with
  | error e => simp [h, Except.isOk, Except.toBool] at hok
  | ok img' =>
      have hunique : LabelsUnique (sourceLines crossSource) :=
        labelsUnique_of_one (k := 1) (by decide)
      have hres := hall crossSource _ img' [] rfl h hunique
      obtain ⟨line, hline, hkind, hb⟩ : ∃ line, (sourceLines crossSource)[5]? = some line ∧
          lineKind line = .insn ∧ branchLabel line = some (cstr "foo") := by
        have hany : (sourceLines crossSource)[5]?.any (fun l =>
            lineKind l = .insn ∧ branchLabel l = some (cstr "foo")) = true := by decide
        simpa [Option.any_eq_true] using hany
      obtain ⟨m, q, htarget, -⟩ := hres 5 line _ hline hkind hb
      have hnone : ∀ m < (sourceLines crossSource).length,
          ¬ (LabelLine (sourceLines crossSource) m (cstr "foo") ∧
            SameKernel (sourceLines crossSource) 5 m) := by decide
      exact hnone m htarget.label.lt_length ⟨htarget.label, htarget.sameKernel⟩

end BradVector
