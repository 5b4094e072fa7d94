import BradVector.Library.Decimal
import BradVector.Proof.Written

/-!
# The documented assembly forms

The rows of the operand table of `10-toolchain.md`, the text of a kernel written in them, and the
tokens of such a text.
-/

namespace BradVector

open CSem

/-! ### The table -/

/-- A row of the operand table. -/
inductive DocRow where
  | threeRegister | immediate | move | singleSource | compare | load | vectorLoad | store |
    vectorStore
  | atomic | vector | vectorScalar | branch | noOperand | special
  deriving DecidableEq, Repr

/-- The mnemonics of a row and what they stand for. -/
def DocRow.mnemonics : DocRow → List (List Byte × Opcode)
  | threeRegister =>
      [(cstr "ADD", .add), (cstr "SUB", .sub), (cstr "MUL", .mul), (cstr "MAD", .mad),
        (cstr "DIV", .div),
        (cstr "MIN", .min), (cstr "MAX", .max), (cstr "SEL", .sel), (cstr "IADD", .iadd),
        (cstr "ISUB", .isub), (cstr "IMUL", .imul), (cstr "IDIV", .idiv), (cstr "IMAD", .imad),
        (cstr "SHL", .shl), (cstr "SHR", .shr), (cstr "AND", .and), (cstr "OR", .or),
          (cstr "XOR", .xor)]
  | immediate => [(cstr "ADDi", .addi)]
  | move => [(cstr "MOV", .addi)]
  | singleSource =>
      [(cstr "ABS", .abs), (cstr "NEG", .neg), (cstr "NOT", .not), (cstr "POPC", .popc),
        (cstr "CLZ", .clz),
        (cstr "SQRT", .sqrt), (cstr "RSQRT", .rsqrt), (cstr "RCP", .rcp), (cstr "SIN", .sin),
        (cstr "COS", .cos), (cstr "EXP2", .exp2), (cstr "LOG2", .log2)]
  | compare => [(cstr "CMP", .cmp)]
  | load => [(cstr "LOAD", .load)]
  | vectorLoad => [(cstr "LOADV", .loadv)]
  | store => [(cstr "STORE", .store)]
  | vectorStore => [(cstr "STOREV", .storev)]
  | atomic => [(cstr "ATOMIC_ADD", .atomicAdd)]
  | vector => [(cstr "VADD", .vadd), (cstr "VMUL", .vmul), (cstr "VMAD", .vmad)]
  | vectorScalar => [(cstr "VBROADCAST", .vbroadcast)]
  | branch => [(cstr "BR", .br), (cstr "BR_COND", .brCond), (cstr "CALL", .call)]
  | noOperand => [(cstr "RET", .ret), (cstr "BAR", .bar), (cstr "EXIT", .exit),
    (cstr "TRAP", .trap)]
  | special => [(cstr "LANE_ID", .laneId), (cstr "WARP_SZ", .warpSz), (cstr "CLOCK", .clock)]

/-- The operands of a row in the order they are written. -/
def DocRow.slots : DocRow → List Slot
  | threeRegister => [.reg .dst .s, .reg .src1 .s, .reg .src2 .s]
  | immediate | load | atomic => [.reg .dst .s, .reg .src1 .s, .imm]
  | move | singleSource => [.reg .dst .s, .reg .src1 .s]
  | compare => [.reg .dst .p, .reg .src1 .s, .reg .src2 .s]
  | vectorLoad => [.reg .dst .v, .reg .src1 .s, .imm]
  | store => [.reg .src1 .s, .reg .dst .s, .imm]
  | vectorStore => [.reg .src1 .s, .reg .dst .v, .imm]
  | vector => [.reg .dst .v, .reg .src1 .v, .reg .src2 .v]
  | vectorScalar => [.reg .dst .v, .reg .src1 .s]
  | branch => [.target]
  | noOperand => []
  | special => [.reg .dst .s]

/-! ### Kernels written in the documented forms -/

/-- A word of at most 63 bytes. -/
def isWord (w : List Byte) : Bool :=
  (isAlpha (w.headD 0) || w.headD 0 == ch '_') && w.all isIdChar && Nat.blt w.length tokTextSize

structure Ident where
  text : List Byte
  word : isWord text = true

inductive DocOperand where
  | reg (cls : OperandClass) (n : Nat)
  | imm (v : Int)
  | label (name : Ident)

/-- The operand is of the right kind and class and in range. -/
def Slot.Takes : Slot → DocOperand → Prop
  | .reg _ c, .reg c' n => c' = c ∧ n < c.regs
  | .imm, .imm v => -128 ≤ v ∧ v ≤ 127
  | .target, .imm v => -128 ≤ v ∧ v ≤ 127
  | .target, .label _ => True
  | _, _ => False

/-- An instruction in one of the documented forms, with its operands in range. -/
structure DocInsn where
  row : DocRow
  mn : List Byte
  op : Opcode
  pred : Option (Fin predRegs)
  operands : List DocOperand
  mem : (mn, op) ∈ row.mnemonics
  takes : List.Forall₂ Slot.Takes row.slots operands

inductive DocLine where
  | label (name : Ident)
  | insn (i : DocInsn)

def OperandClass.letter : OperandClass → Byte
  | .s => ch 'S'
  | .v => ch 'V'
  | _ => ch 'P'

def DocOperand.text : DocOperand → List Byte
  | .reg c n => c.letter :: decimal n
  | .imm v => decimal v
  | .label name => name.text

/-- The operands behind the first one. -/
def moreText (os : List DocOperand) : List Byte := os.flatMap fun o => ch ',' :: ch ' ' :: o.text

def operandsText : List DocOperand → List Byte
  | [] => []
  | o :: os => ch ' ' :: o.text ++ moreText os

def predText : Option (Fin predRegs) → List Byte
  | none => []
  | some p => ch '@' :: ch 'P' :: decimal p

def DocInsn.text (i : DocInsn) : List Byte :=
  i.mn ++ predText i.pred ++ operandsText i.operands ++ [ch '\n']

def DocLine.text : DocLine → List Byte
  | .label name => name.text ++ cstr ":\n"
  | .insn i => i.text

def docText (lines : List DocLine) : List Byte := lines.flatMap DocLine.text

/-- A source of one kernel. -/
def kernelText (k : Ident) (lines : List DocLine) : List Byte :=
  cstr ".kernel " ++ k.text ++ ch '\n' :: (docText lines ++ cstr ".end\n")

def insnsOf (lines : List DocLine) : List DocInsn :=
  lines.filterMap fun
    | .insn i => some i
    | .label _ => none

def labelsOf (lines : List DocLine) : List Ident :=
  lines.filterMap fun
    | .insn _ => none
    | .label name => some name

/-- The number of instructions in front of the first label of this name. -/
def labelPc : List DocLine → List Byte → Option Nat
  | [], _ => none
  | .label name :: lines, text => if name.text = text then some 0 else labelPc lines text
  | .insn _ :: lines, text => (labelPc lines text).map (· + 1)

/-- Where a branch at `pc` goes, relative to the instruction behind it. -/
def branchOffset (lines : List DocLine) (pc : Nat) (text : List Byte) : Option Int :=
  (labelPc lines text).map fun addr : Nat => (addr : Int) - (pc + 1)

/-- The branch targets are labels of the kernel, and in the range of the offset. -/
def TargetsInRange (lines : List DocLine) : Prop :=
  ∀ (pc : Nat) (i : DocInsn), (insnsOf lines)[pc]? = some i → ∀ name, .label name ∈ i.operands →
    ∃ d, branchOffset lines pc name.text = some d ∧ -128 ≤ d ∧ d ≤ 127

/-! ### What is read back -/

/-- The executor finds the operand where it looks for it. -/
def Slot.Reads (offset : List Byte → Option Int) (d : BvInsn) : Slot → DocOperand → Prop
  | .reg f _, .reg _ n => (d.field f).toNat = n
  | .imm, .imm v => d.imm.toInt = v
  | .target, .imm v => d.imm.toInt = v
  | .target, .label name => offset name.text = some d.imm.toInt
  | _, _ => False

/-- The decoded instruction is the written one, with zeros in the fields that nothing is written
for. -/
structure DocInsn.ReadBack (i : DocInsn) (offset : List Byte → Option Int) (d : BvInsn) : Prop where
  op : d.op = i.op.toByte
  pred : d.pred.toNat = match i.pred with
    | none => 0
    | some p => p + 1
  operands : List.Forall₂ (Slot.Reads offset d) i.row.slots i.operands
  fields : ∀ f, (∀ c, .reg f c ∉ i.row.slots) → d.field f = 0
  imm : .imm ∉ i.row.slots → .target ∉ i.row.slots → d.imm = 0
  flags : d.flags = 0 ∧ d.mod = 0

/-! ### Tokens of the text -/

def DocOperand.tok : DocOperand → Tok
  | .reg c n => ⟨.id, c.letter :: decimal n, 0⟩
  | .imm v => ⟨.num, [], BitVec.ofInt 32 v⟩
  | .label name => ⟨.id, name.text, 0⟩

/-- What ends a word or a numeral. -/
def EndsToken (rest : List Byte) : Prop := isIdChar (rest.headD 0) = false

theorem EndsToken.endsNumeral {rest : List Byte} (h : EndsToken rest) : EndsNumeral rest := by
  simp only [EndsToken, isIdChar, Bool.or_eq_false_iff] at h
  exact h.1.1.1

/-- The first byte of a word starts no other token. -/
theorem wordStart : ∀ {c : Byte}, isAlpha c = true ∨ c = ch '_' →
    isBlank c = false ∧ isIdChar c = true ∧ c ≠ 0 ∧ c ≠ ch '\n' ∧ ¬ (c = ch ';' ∨ c = ch '#') ∧
      c ≠ ch ',' ∧ c ≠ ch ':' ∧ c ≠ ch '@' ∧ c ≠ ch '.' ∧ isDigit c = false ∧ c ≠ ch '-' := by
  decide

/-- The first byte of a numeral starts no other token. -/
theorem numeralStart : ∀ {c : Byte}, isDigit c = true ∨ c = ch '-' →
    isBlank c = false ∧ c ≠ 0 ∧ c ≠ ch '\n' ∧ ¬ (c = ch ';' ∨ c = ch '#') ∧
      c ≠ ch ',' ∧ c ≠ ch ':' ∧ c ≠ ch '@' ∧ c ≠ ch '.' := by
  decide

section Tokens

variable {rest : List Byte} {line : Nat} {t : Tok}

theorem lexTake_blank : lexTake ⟨ch ' ' :: rest, line, t⟩ = lexTake ⟨rest, line, t⟩ := rfl

theorem lexTake_newline : lexTake ⟨ch '\n' :: rest, line, t⟩ = ⟨rest, line + 1, .plain .nl⟩ := rfl

theorem lexTake_comma : lexTake ⟨ch ',' :: rest, line, t⟩ = ⟨rest, line, .plain .comma⟩ := rfl

theorem lexTake_colon : lexTake ⟨ch ':' :: rest, line, t⟩ = ⟨rest, line, .plain .colon⟩ := rfl

theorem lexTake_at : lexTake ⟨ch '@' :: rest, line, t⟩ = ⟨rest, line, .plain .at⟩ := rfl

theorem lexTake_dot : lexTake ⟨ch '.' :: rest, line, t⟩ = ⟨rest, line, .plain .dot⟩ := rfl

theorem takeWhile_word {w : List Byte} (hw : ∀ b ∈ w, isIdChar b = true) (hrest : EndsToken rest) :
    (w ++ rest).takeWhile isIdChar = w := by
  have hstop : rest.takeWhile isIdChar = [] := by
    cases rest with
    | nil => rfl
    | cons c rest =>
        have hc : isIdChar c = false := hrest
        exact List.takeWhile_cons_of_neg (by simp [hc])
  rw [List.takeWhile_append_of_pos hw, hstop, List.append_nil]

theorem isWord_iff {w : List Byte} : isWord w = true ↔
    (isAlpha (w.headD 0) = true ∨ w.headD 0 = ch '_') ∧ (∀ b ∈ w, isIdChar b = true) ∧
      w.length < tokTextSize := by
  simp only [isWord, Bool.and_eq_true, Bool.or_eq_true, beq_iff_eq, List.all_eq_true, Nat.blt_eq,
    and_assoc]

theorem lexTake_word {w : List Byte} (hw : isWord w = true) (hrest : EndsToken rest) :
    lexTake ⟨w ++ rest, line, t⟩ = ⟨rest, line, ⟨.id, w, 0⟩⟩ := by
  obtain ⟨hfirst, hchars, hshort⟩ := isWord_iff.mp hw
  have htake : ((w ++ rest).takeWhile isIdChar).take (tokTextSize - 1) = w := by
    rw [takeWhile_word hchars hrest, List.take_of_length_le (by omega)]
  have hdrop : (w ++ rest).drop w.length = rest := List.drop_left
  cases w with
  | nil => exact absurd hfirst (by decide)
  | cons c w =>
      change isAlpha c = true ∨ c = ch '_' at hfirst
      obtain ⟨hblank, -, h0, hnl, hcomment, hcomma, hcolon, hat, hdot, hdigit, hminus⟩ :=
        wordStart hfirst
      rw [List.cons_append] at htake hdrop ⊢
      rw [lexTake, List.dropWhile_cons_of_neg (by simp [hblank])]
      dsimp only
      rw [if_neg h0, if_neg hnl, if_neg hcomment, if_neg hcomma, if_neg hcolon, if_neg hat,
        if_neg hdot, if_neg (by simp [hdigit, hminus]), if_pos hfirst, htake, hdrop]

theorem decimal_startsNumeral (v : Int) (rest : List Byte) : StartsNumeral (decimal v ++ rest) := by
  have hdigits (rest : List Byte) : isDigit ((decimalDigits v.natAbs ++ rest).headD 0) = true := by
    cases hds : decimalDigits v.natAbs with
    | nil => exact absurd hds (decimalDigits_ne_nil _)
    | cons d ds => exact isDigit_of_mem_decimalDigits (hds ▸ List.mem_cons_self)
  unfold decimal
  split_ifs with hv
  · exact .inr ⟨rfl, hdigits rest⟩
  · cases hds : decimalDigits v.natAbs with
    | nil => exact absurd hds (decimalDigits_ne_nil _)
    | cons d ds => exact .inl (isDigit_of_mem_decimalDigits (hds ▸ List.mem_cons_self))

theorem lexTake_decimal {v : Int} (hlo : longMin ≤ v) (hhi : v ≤ longMax) (hrest : EndsToken rest) :
    lexTake ⟨decimal v ++ rest, line, t⟩ = ⟨rest, line, ⟨.num, [], BitVec.ofInt 32 v⟩⟩ := by
  have hread : strtol (decimal v ++ rest) 0 = (v, rest) :=
    strtol_decimal (.inl rfl) hlo hhi hrest.endsNumeral
  have hstart := decimal_startsNumeral v rest
  generalize decimal v ++ rest = s at hread hstart
  cases s with
  | nil => exact hstart.elim
  | cons c s =>
      change isDigit c = true ∨ c = ch '-' ∧ isDigit (s.headD 0) = true at hstart
      obtain ⟨hblank, h0, hnl, hcomment, hcomma, hcolon, hat, hdot⟩ :=
        numeralStart (hstart.imp_right And.left)
      rw [lexTake, List.dropWhile_cons_of_neg (by simp [hblank])]
      dsimp only
      rw [if_neg h0, if_neg hnl, if_neg hcomment, if_neg hcomma, if_neg hcolon, if_neg hat,
        if_neg hdot, if_pos hstart, host_strtol, hread]

theorem decimal_natCast (n : Nat) : decimal n = decimalDigits n := by
  simp [decimal]

/-- A letter and an index of at most three digits. -/
theorem lexTake_indexed {c : Byte} (hc : isAlpha c = true) {n : Nat} (hn : n < 10 ^ 3)
    (hrest : EndsToken rest) :
    lexTake ⟨c :: decimal n ++ rest, line, t⟩ = ⟨rest, line, ⟨.id, c :: decimal n, 0⟩⟩ := by
  have hchars : ∀ b ∈ c :: decimal n, isIdChar b = true := by
    intro b hb
    rw [decimal_natCast, List.mem_cons] at hb
    rcases hb with rfl | hb
    · simp [isIdChar, isAlnum, hc]
    · simp [isIdChar, isAlnum, isDigit_of_mem_decimalDigits hb]
  have hlen : (c :: decimal n).length < tokTextSize := by
    have hdigits := length_decimalDigits_le (by decide) hn
    rw [List.length_cons, decimal_natCast]
    unfold tokTextSize
    omega
  exact lexTake_word (isWord_iff.mpr ⟨.inl hc, hchars, hlen⟩) hrest

/-- The operand lies within what its kind can be written for. -/
def DocOperand.Small : DocOperand → Prop
  | .reg _ n => n < 10 ^ 3
  | .imm v => -128 ≤ v ∧ v ≤ 127
  | .label _ => True

theorem Slot.Takes.small {s : Slot} {o : DocOperand} (h : s.Takes o) : o.Small := by
  match s, o, h with
  | .reg _ c, .reg _ n, ⟨_, hn⟩ =>
      have hregs := c.regs_le
      exact show n < 10 ^ 3 by omega
  | .imm, .imm _, hv => exact hv
  | .target, .imm _, hv => exact hv
  | .target, .label _, _ => trivial

theorem lexTake_operand {o : DocOperand} (ho : o.Small) (hrest : EndsToken rest) :
    lexTake ⟨ch ' ' :: o.text ++ rest, line, t⟩ = ⟨rest, line, o.tok⟩ := by
  rw [List.cons_append, lexTake_blank]
  match o, ho with
  | .reg c n, hn =>
      have hc : isAlpha c.letter = true := by cases c <;> decide
      exact lexTake_indexed hc hn hrest
  | .imm v, ⟨hlo, hhi⟩ =>
      have hmin : longMin ≤ -128 := by decide
      have hmax : (127 : Int) ≤ longMax := by decide
      exact lexTake_decimal (hmin.trans hlo) (hhi.trans hmax) hrest
  | .label name, _ => exact lexTake_word name.word hrest

end Tokens

end BradVector
